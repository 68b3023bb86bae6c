/-
Axes and what is known along each of them.

Whatever holds one value per axis is a `Vector α D`, and `get` reads it: an axis is a
`Fin D`, so there is always a value to read.

Most rules hold axis by axis and report the first axis that breaks them.  The two
searches here are that walk; when they come back empty, the rule holds along every
axis.
-/

namespace AdaptiveMesh

variable {D : Nat}

/-! ### Values by axis -/

section Values

variable {α : Type}

/-- The values with the one along an axis replaced. -/
def setAxis (v : Vector α D) (d : Fin D) (x : α) : Vector α D := v.set d.val x d.isLt

@[simp] theorem get_ofFn (f : Fin D → α) (d : Fin D) : (Vector.ofFn f).get d = f d :=
  Vector.getElem_ofFn d.isLt

@[simp] theorem get_replicate (x : α) (d : Fin D) : (Vector.replicate D x).get d = x :=
  Vector.getElem_replicate d.isLt

theorem get_setAxis (v : Vector α D) (c d : Fin D) (x : α) :
    (setAxis v c x).get d = if c = d then x else v.get d := by
  have h : (setAxis v c x).get d = if c.val = d.val then x else v.get d :=
    Vector.getElem_set c.isLt d.isLt
  rw [h]
  simp only [Fin.ext_iff]

/-- Values that agree along every axis are the same. -/
theorem ext_get {v w : Vector α D} (h : ∀ d, v.get d = w.get d) : v = w :=
  Vector.ext fun i hi => h ⟨i, hi⟩

end Values

/-! ### The first axis

A fault names the first axis that breaks a rule.  That an axis was found therefore says two things,
that it breaks the rule and that the axes before it do not. -/

/-- The first axis of which the property holds. -/
def firstAxis? (p : Fin D → Prop) [DecidablePred p] : Option (Fin D) :=
  (List.finRange D).find? fun d => p d

/-- What is found along the first axis along which anything is found. -/
def firstFound? {α : Type} (f : Fin D → Option α) : Option α :=
  (List.finRange D).findSome? f

theorem firstAxis?_eq_none_iff {p : Fin D → Prop} [DecidablePred p] :
    firstAxis? p = none ↔ ∀ d, ¬ p d := by
  simp [firstAxis?]

theorem firstFound?_eq_none_iff {α : Type} {f : Fin D → Option α} :
    firstFound? f = none ↔ ∀ d, f d = none := by
  simp [firstFound?]

/-- The axes listed before an axis are those below it. -/
theorem mem_iff_lt_of_finRange_eq {before after : List (Fin D)} {c d : Fin D}
    (h : List.finRange D = before ++ d :: after) : c ∈ before ↔ c < d := by
  have sorted : (before ++ d :: after).Pairwise (· < ·) := h ▸ List.pairwise_lt_finRange D
  obtain ⟨-, hafter, hbefore⟩ := List.pairwise_append.1 sorted
  refine ⟨fun hc => hbefore c hc d List.mem_cons_self, fun hlt => ?_⟩
  have hmem : c ∈ before ++ d :: after := h ▸ List.mem_finRange c
  rcases List.mem_append.1 hmem with hm | hm
  · exact hm
  · rcases List.mem_cons.1 hm with rfl | hm
    · exact absurd hlt (Fin.lt_irrefl _)
    · exact absurd ((List.pairwise_cons.1 hafter).1 c hm) (by omega)

theorem of_firstAxis?_eq_some {p : Fin D → Prop} [DecidablePred p] {d : Fin D}
    (h : firstAxis? p = some d) : p d ∧ ∀ c < d, ¬ p c := by
  obtain ⟨hd, before, after, hsplit, hbefore⟩ := List.find?_eq_some_iff_append.1 h
  refine ⟨of_decide_eq_true hd, fun c hc hpc => ?_⟩
  simpa [hpc] using hbefore c ((mem_iff_lt_of_finRange_eq hsplit).2 hc)

/-- The axis found has the property, and no axis before it does. -/
theorem firstAxis?_eq_some_iff {p : Fin D → Prop} [DecidablePred p] {d : Fin D} :
    firstAxis? p = some d ↔ p d ∧ ∀ c < d, ¬ p c := by
  refine ⟨of_firstAxis?_eq_some, fun ⟨hd, hmin⟩ => ?_⟩
  cases hf : firstAxis? p with
  | none => exact absurd hd (firstAxis?_eq_none_iff.1 hf d)
  | some c =>
    obtain ⟨hc, hcmin⟩ := of_firstAxis?_eq_some hf
    rcases Nat.lt_trichotomy c.val d.val with hlt | heq | hgt
    · exact absurd hc (hmin c hlt)
    · rw [Fin.ext heq]
    · exact absurd hd (hcmin d hgt)

/-- What is found is found along some axis, and nothing is found along any axis before it. -/
theorem firstFound?_eq_some_iff {α : Type} {f : Fin D → Option α} {a : α} :
    firstFound? f = some a ↔ ∃ d, f d = some a ∧ ∀ c < d, f c = none := by
  unfold firstFound?
  rw [List.findSome?_eq_some_iff]
  constructor
  · rintro ⟨before, d, after, hsplit, hd, hbefore⟩
    exact ⟨d, hd, fun c hc => hbefore c ((mem_iff_lt_of_finRange_eq hsplit).2 hc)⟩
  · rintro ⟨d, hd, hmin⟩
    obtain ⟨before, after, hsplit⟩ := List.append_of_mem (List.mem_finRange d)
    exact ⟨before, d, after, hsplit, hd,
      fun c hc => hmin c ((mem_iff_lt_of_finRange_eq hsplit).1 hc)⟩

end AdaptiveMesh
