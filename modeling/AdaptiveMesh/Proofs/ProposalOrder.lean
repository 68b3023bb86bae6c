/-
The order in which proposals are put together.

Along an axis each flag meets what the earlier ones came to.  Which flag comes out does not
depend on the order, it is the one that overrides all others.  Whether any comes out does: a
split or join hides what it overrides, so that requests for more grid points and for fewer are
noticed as opposite only if both come up before the first split or join.
-/
import Mathlib.Tactic.Choose
import AdaptiveMesh.Proofs.Criteria

namespace AdaptiveMesh

variable {D : Nat}

/-! ### Flags for one axis

When flags are put together one of them is kept and the other one is forgotten.  So a clash comes to
light only if both sides of it are still remembered when they meet, and requests about grid points
are remembered up to the first split or join. -/

namespace Flag

variable {a b c : Flag} {l l' : List Flag}

/-- The flag that overrides all others of a list. -/
def dominant (l : List Flag) : Flag :=
  if split ∈ l then split
  else if join ∈ l then join
  else if increaseResolution ∈ l then increaseResolution
  else if decreaseResolution ∈ l then decreaseResolution
  else if doNothing ∈ l then doNothing
  else undefined

/-- Splitting and joining are both asked for, or more grid points and fewer. -/
def Clash (l : List Flag) : Prop :=
  (split ∈ l ∧ join ∈ l) ∨ (increaseResolution ∈ l ∧ decreaseResolution ∈ l)

instance (l : List Flag) : Decidable (Clash l) := inferInstanceAs (Decidable (_ ∨ _))

/-- What is asked for before the first split or join. -/
def beforeTopology (l : List Flag) : List Flag := l.takeWhile fun a => ¬ a.IsTopological

/-- The clashes that come to light in this order. -/
def Halts (l : List Flag) : Prop :=
  (split ∈ l ∧ join ∈ l) ∨
    (increaseResolution ∈ beforeTopology l ∧ decreaseResolution ∈ beforeTopology l)

instance (l : List Flag) : Decidable (Halts l) := inferInstanceAs (Decidable (_ ∨ _))

theorem Halts.clash (h : Halts l) : Clash l :=
  h.imp_right (And.imp (List.takeWhile_subset _ ·) (List.takeWhile_subset _ ·))

theorem Clash.perm (h : Clash l) (hl : l.Perm l') : Clash l' :=
  h.imp (And.imp hl.mem_iff.1 hl.mem_iff.1) (And.imp hl.mem_iff.1 hl.mem_iff.1)

theorem dominant_eq_of_perm (h : l.Perm l') : dominant l = dominant l' := by
  unfold dominant
  simp only [h.mem_iff]

/-- The flag that overrides all others is one of them, unless none has an opinion. -/
theorem dominant_mem (h : dominant l ≠ .undefined) : dominant l ∈ l := by
  unfold dominant at h ⊢
  repeat' split
  all_goals simp_all

theorem dominant_eq_undefined_iff : dominant l = .undefined ↔ ∀ a ∈ l, a = .undefined := by
  constructor
  · intro h a ha
    unfold dominant at h
    repeat' split at h
    all_goals try contradiction
    cases a <;> first | rfl | contradiction
  · intro h
    exact Classical.byContradiction fun hne => hne (h _ (dominant_mem hne))

theorem combine?_comm (a b : Flag) : a.combine? b = b.combine? a := by
  cases a <;> cases b <;> rfl

theorem halts_undefined_cons : Halts (.undefined :: l) ↔ Halts l := by
  simp [Halts, beforeTopology, IsTopological]

theorem dominant_undefined_cons : dominant (.undefined :: l) = dominant l := by
  simp [dominant]

/-- Flags that cannot be combined come to light as a clash. -/
theorem halts_of_combine?_eq_none (h : a.combine? b = none) : Halts (a :: b :: l) := by
  obtain ⟨ha, rfl⟩ := combine?_eq_none_iff.1 h
  cases a <;> simp_all [tendency, opposite, Halts, beforeTopology, IsTopological]

/-- Combining the first two flags hides no clash that would have come to light. -/
theorem halts_cons_cons_iff (h : a.combine? b = some c) :
    Halts (a :: b :: l) ↔ Halts (c :: l) := by
  cases a <;> cases b <;> cases h <;> simp [Halts, beforeTopology, IsTopological]

theorem dominant_cons_cons (h : a.combine? b = some c) :
    dominant (a :: b :: l) = dominant (c :: l) := by
  cases a <;> cases b <;> cases h <;> simp [dominant]

/-- Flags are put together exactly if no clash comes to light, and what comes of them is the flag
that overrides all others. -/
theorem foldlM_combine?_eq_some_iff :
    l.foldlM combine? a = some c ↔ ¬ Halts (a :: l) ∧ c = dominant (a :: l) := by
  induction l generalizing a with
  | nil =>
      have hhalts : ¬ Halts [a] := by cases a <;> decide
      have hdominant : dominant [a] = a := by cases a <;> decide
      rw [hdominant, List.foldlM_nil, and_iff_right hhalts]
      exact Option.some_inj.trans eq_comm
  | cons b l ih =>
      rw [List.foldlM_cons]
      cases hab : a.combine? b with
      | none => exact iff_of_false (by simp) fun h => h.1 (halts_of_combine?_eq_none hab)
      | some x =>
          rw [halts_cons_cons_iff hab, dominant_cons_cons hab]
          exact ih

end Flag

/-! ### Proposals

Decisions are put together axis by axis, but they fail as a whole.  A list of proposals is therefore
read as one list of flags for each axis, its columns, and reordering the proposals reorders every
column. -/

namespace Decision

variable {a b r start : Decision D} {l l' : List (Decision D)}

theorem Combines.symm (h : a.Combines b) : b.Combines a :=
  fun d => Flag.combine?_comm (a.get d) (b.get d) ▸ h d

/-- What is proposed along an axis. -/
def column (l : List (Decision D)) (d : Fin D) : List Flag := l.map fun a => a.get d

theorem combine?_of_combine (h : combine a b = .ok r) (d : Fin D) :
    (a.get d).combine? (b.get d) = some (r.get d) := by
  unfold combine at h
  split at h
  · contradiction
  · next hclash =>
    have hd := firstFound?_eq_none_iff.1 hclash d
    rw [← Except.ok.inj h, get_ofFn]
    cases hab : (a.get d).combine? (b.get d) with
    | none =>
        rw [hab] at hd
        contradiction
    | some x => rfl

/-- Two decisions are combined axis by axis. -/
theorem combine_eq_ok_iff :
    combine a b = .ok r ↔ ∀ d, (a.get d).combine? (b.get d) = some (r.get d) := by
  refine ⟨combine?_of_combine, fun h => ?_⟩
  have hcombines : a.Combines b := fun d hnone => by
    rw [h d] at hnone
    contradiction
  obtain ⟨r', hr', -⟩ := combine_eq_ok hcombines
  have heq : r' = r := ext_get fun d =>
    Option.some.inj ((combine?_of_combine hr' d).symm.trans (h d))
  exact heq ▸ hr'

/-- So are several. -/
theorem foldlM_combine_eq_ok_iff : l.foldlM combine start = .ok r ↔
    ∀ d, (column l d).foldlM Flag.combine? (start.get d) = some (r.get d) := by
  induction l generalizing start with
  | nil =>
      rw [List.foldlM_nil, pure_eq_ok]
      exact ⟨fun heq _ => heq ▸ rfl, fun h => ext_get fun d => Option.some.inj (h d)⟩
  | cons a l ih =>
      have hcons : ∀ d, column (a :: l) d = a.get d :: column l d := fun d => rfl
      simp only [List.foldlM_cons, bind_eq_ok, hcons]
      constructor
      · rintro ⟨next, hnext, hrest⟩ d
        rw [combine?_of_combine hnext d]
        exact ih.1 hrest d
      · intro h
        choose flag hflag hrest using fun d => Option.bind_eq_some_iff.1 (h d)
        refine ⟨Vector.ofFn flag, combine_eq_ok_iff.2 fun d => ?_, ih.2 fun d => ?_⟩
        · rw [get_ofFn]
          exact hflag d
        · rw [get_ofFn]
          exact hrest d

/-- Proposals are put together exactly if no clash comes to light along any axis, and what comes of
them is the flag along each axis that overrides all others. -/
theorem combineAll_eq_ok_iff : combineAll l = .ok r ↔
    (∀ d, ¬ Flag.Halts (column l d)) ∧ ∀ d, r.get d = Flag.dominant (column l d) := by
  unfold combineAll
  rw [foldlM_combine_eq_ok_iff, ← forall_and]
  refine forall_congr' fun d => ?_
  rw [show (undecided : Decision D).get d = .undefined from get_replicate _ d,
    Flag.foldlM_combine?_eq_some_iff, Flag.halts_undefined_cons, Flag.dominant_undefined_cons]

theorem exists_combineAll_iff :
    (∃ r, combineAll l = .ok r) ↔ ∀ d, ¬ Flag.Halts (column l d) := by
  constructor
  · rintro ⟨r, hr⟩
    exact (combineAll_eq_ok_iff.1 hr).1
  · intro h
    exact ⟨Vector.ofFn fun d => Flag.dominant (column l d),
      combineAll_eq_ok_iff.2 ⟨h, fun d => get_ofFn _ d⟩⟩

theorem column_perm (h : l.Perm l') (d : Fin D) : (column l d).Perm (column l' d) :=
  h.map _

/-- Two orders that both succeed agree. -/
theorem eq_of_combineAll_perm {r' : Decision D} (h : l.Perm l') (hr : combineAll l = .ok r)
    (hr' : combineAll l' = .ok r') : r = r' := by
  refine ext_get fun d => ?_
  rw [(combineAll_eq_ok_iff.1 hr).2, (combineAll_eq_ok_iff.1 hr').2]
  exact Flag.dominant_eq_of_perm (column_perm h d)

/-- Every clash comes to light in some order. -/
theorem exists_perm_halts {d : Fin D} (h : Flag.Clash (column l d)) :
    ∃ k, l.Perm k ∧ Flag.Halts (column k d) := by
  rcases h with htopology | ⟨hincrease, hdecrease⟩
  · exact ⟨l, .refl l, Or.inl htopology⟩
  · obtain ⟨a, ha, had⟩ := List.mem_map.1 hincrease
    obtain ⟨b, hb, hbd⟩ := List.mem_map.1 hdecrease
    have hne : b ≠ a := by
      rintro rfl
      rw [had] at hbd
      contradiction
    have hb : b ∈ l.erase a := (List.mem_erase_of_ne hne).2 hb
    -- the two requests that are opposite come up first
    refine ⟨a :: b :: (l.erase a).erase b,
      (List.perm_cons_erase ha).trans ((List.perm_cons_erase hb).cons a), Or.inr ?_⟩
    simp [column, Flag.beforeTopology, Flag.IsTopological, had, hbd]

/-- What comes of proposals in one order or another.  Two orders that both succeed agree, so they
differ exactly if a clash comes to light in one of them only.  They succeed in every order exactly
if there is no clash. -/
theorem combineAll_orders (h : l.Perm l') :
    (∀ r, combineAll l = .ok r ↔
      (∀ d, ¬ Flag.Halts (column l d)) ∧ ∀ d, r.get d = Flag.dominant (column l d)) ∧
    (∀ r r', combineAll l = .ok r → combineAll l' = .ok r' → r = r') ∧
    ((∀ r, combineAll l = .ok r ↔ combineAll l' = .ok r) ↔
      ((∀ d, ¬ Flag.Halts (column l d)) ↔ ∀ d, ¬ Flag.Halts (column l' d))) ∧
    ((∀ k, l.Perm k → ∃ r, combineAll k = .ok r) ↔ ∀ d, ¬ Flag.Clash (column l d)) := by
  refine ⟨fun r => combineAll_eq_ok_iff, fun r r' => eq_of_combineAll_perm h, ⟨fun hsame => ?_,
    fun hhalts r => ?_⟩, fun hall d hclash => ?_, fun hno k hk => ?_⟩
  · rw [← exists_combineAll_iff, ← exists_combineAll_iff]
    exact exists_congr hsame
  · rw [combineAll_eq_ok_iff, combineAll_eq_ok_iff, hhalts]
    simp only [fun d => Flag.dominant_eq_of_perm (column_perm h d)]
  · obtain ⟨k, hk, hhalts⟩ := exists_perm_halts hclash
    exact exists_combineAll_iff.1 (hall k hk) d hhalts
  · exact exists_combineAll_iff.2 fun d hhalts =>
      hno d (hhalts.clash.perm (column_perm hk d).symm)

/-- Requests for more grid points and for fewer, with a split between them. -/
def splitBetween : List (Decision 1) :=
  [#v[.increaseResolution], #v[.split], #v[.decreaseResolution]]

/-- The same requests, the split after them. -/
def splitLast : List (Decision 1) :=
  [#v[.increaseResolution], #v[.decreaseResolution], #v[.split]]

theorem splitBetween_perm : splitBetween.Perm splitLast := by decide

/-- The split between them keeps the requests from being noticed as opposite. -/
theorem combineAll_orders_splitBetween :
    splitBetween.Perm splitLast ∧ combineAll splitBetween = .ok #v[.split] ∧
      ¬ ∀ r, combineAll splitBetween = .ok r ↔ combineAll splitLast = .ok r := by
  obtain ⟨heq, -, hsame, -⟩ := combineAll_orders splitBetween_perm
  refine ⟨splitBetween_perm, (heq _).2 (by decide), fun h => ?_⟩
  exact absurd (hsame.1 h) (by decide)

/-- The same proposals succeed in one order and fail in another, and the order that succeeds holds
opposite requests. -/
theorem combineAll_orders_differ :
    splitBetween.Perm splitLast ∧ Flag.Clash (column splitBetween 0) ∧
      combineAll splitBetween = .ok #v[.split] ∧
      combineAll splitLast = .error (.proposalsClash .increaseResolution .decreaseResolution 0) :=
  ⟨splitBetween_perm, by decide, rfl, rfl⟩

end Decision

/-! ### Criteria that were accepted -/

/-- Criteria that are accepted have the same common proposal in whichever order they are asked. -/
theorem Criterion.combineAll_propose_perm {criteria criteria' : List (Criterion D)}
    {isotropy : Isotropy} (h : clash? criteria isotropy = none) (hp : criteria.Perm criteria')
    (limits : Limits D) (e : Element D) (m : Mesh D) :
    Decision.combineAll (criteria'.map fun k => k.propose limits e m) =
      Decision.combineAll (criteria.map fun k => k.propose limits e m) := by
  have hopposed := pairwise_of_opposed?_eq_none (Option.or_eq_none_iff.1 h).1
  have hcombines : (criteria.map fun k => k.propose limits e m).Pairwise Decision.Combines :=
    List.pairwise_map.2 (hopposed.imp combines_propose)
  have hp := hp.map fun k => k.propose limits e m
  obtain ⟨r, hr, -⟩ := Decision.combineAll_eq_ok hcombines
  obtain ⟨r', hr', -⟩ := Decision.combineAll_eq_ok (hp.pairwise hcombines Decision.Combines.symm)
  rw [hr, hr', Decision.eq_of_combineAll_perm hp hr hr']

end AdaptiveMesh
