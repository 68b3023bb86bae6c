/-
Computations that succeed.

A step that looks something up may fail, and so may every sequence of such steps.  The
lemmas here open a successful sequence into its successful steps, and put one together
from steps that are known to succeed.  A store that is filled from a list is read back
entry by entry.
-/
import Std.Data.ExtTreeMap

namespace AdaptiveMesh

/-! ### Steps and sequences of steps -/

section Except

variable {ε ε' α β : Type}

theorem bind_eq_ok {x : Except ε α} {f : α → Except ε β} {b : β} :
    (x >>= f) = .ok b ↔ ∃ a, x = .ok a ∧ f a = .ok b := by
  cases x with
  | error e => simp [bind, Except.bind]
  | ok a => simp [bind, Except.bind]

theorem bind_eq_error {x : Except ε α} {f : α → Except ε β} {e : ε} :
    (x >>= f) = .error e ↔ x = .error e ∨ ∃ a, x = .ok a ∧ f a = .error e := by
  cases x with
  | error e' => simp [bind, Except.bind]
  | ok a => simp [bind, Except.bind]

theorem pure_eq_ok {a b : α} : (pure a : Except ε α) = .ok b ↔ a = b := by
  simp [pure, Except.pure]

/-- A computation of which something is known once it succeeds has succeeded. -/
theorem exists_eq_ok_of_toOption {x : Except ε α} {p : α → β} {b : β}
    (h : x.toOption.map p = some b) : ∃ a, x = .ok a ∧ p a = b := by
  cases x with
  | error e => contradiction
  | ok a => exact ⟨a, rfl, Option.some.inj h⟩

/-- A computation that comes to nothing has failed. -/
theorem exists_eq_error_of_toOption {x : Except ε α} (h : x.toOption = none) :
    ∃ e, x = .error e := by
  cases x with
  | error e => exact ⟨e, rfl⟩
  | ok a => contradiction

theorem mapError_eq_ok {x : Except ε α} {f : ε → ε'} {a : α} :
    x.mapError f = .ok a ↔ x = .ok a := by
  cases x with
  | error e =>
      show Except.error (f e) = .ok a ↔ Except.error e = .ok a
      simp
  | ok b =>
      show Except.ok b = .ok a ↔ Except.ok b = .ok a
      simp

theorem mapError_eq_error {x : Except ε α} {f : ε → ε'} {e' : ε'} :
    x.mapError f = .error e' ↔ ∃ e, x = .error e ∧ f e = e' := by
  cases x with
  | error e =>
      show Except.error (f e) = .error e' ↔ ∃ e₀, Except.error e = .error e₀ ∧ f e₀ = e'
      simp
  | ok a =>
      show Except.ok a = .error e' ↔ ∃ e₀, Except.ok a = .error e₀ ∧ f e₀ = e'
      simp

variable {l : List α} {r : List β} {g : α → Except ε β}

/-- A traversal succeeds with the results of its steps. -/
theorem mapM_eq_ok : l.mapM g = .ok r ↔ l.map g = r.map Except.ok := by
  induction l generalizing r with
  | nil =>
      rw [List.mapM_nil, pure_eq_ok]
      cases r <;> simp
  | cons a l ih =>
      rw [List.mapM_cons, bind_eq_ok]
      simp only [bind_eq_ok, pure_eq_ok]
      constructor
      · rintro ⟨b, hb, bs, hbs, rfl⟩
        rw [List.map_cons, List.map_cons, hb, ih.1 hbs]
      · intro h
        cases r with
        | nil => contradiction
        | cons b bs =>
            rw [List.map_cons, List.map_cons, List.cons.injEq] at h
            exact ⟨b, h.1, bs, ih.2 h.2, rfl⟩

theorem exists_result_of_mapM {a : α} (h : l.mapM g = .ok r) (ha : a ∈ l) :
    ∃ b ∈ r, g a = .ok b := by
  have hm : g a ∈ r.map Except.ok := mapM_eq_ok.1 h ▸ List.mem_map_of_mem ha
  obtain ⟨b, hb, heq⟩ := List.mem_map.1 hm
  exact ⟨b, hb, heq.symm⟩

theorem exists_source_of_mapM {b : β} (h : l.mapM g = .ok r) (hb : b ∈ r) :
    ∃ a ∈ l, g a = .ok b := by
  have hm : Except.ok b ∈ l.map g := mapM_eq_ok.1 h ▸ List.mem_map_of_mem hb
  exact List.mem_map.1 hm

/-- A traversal fails with the fault of one of its steps. -/
theorem exists_source_of_mapM_error {e : ε} (h : l.mapM g = .error e) :
    ∃ a ∈ l, g a = .error e := by
  induction l with
  | nil => contradiction
  | cons a l ih =>
      rw [List.mapM_cons, bind_eq_error] at h
      rcases h with h | ⟨b, -, h⟩
      · exact ⟨a, List.mem_cons_self, h⟩
      · rcases bind_eq_error.1 h with h | ⟨bs, -, h⟩
        · obtain ⟨a', ha', h⟩ := ih h
          exact ⟨a', List.mem_cons_of_mem a ha', h⟩
        · contradiction

/-- A fold that fails does so with the fault of one of its steps. -/
theorem exists_step_of_foldlM_error {step : β → α → Except ε β} {start : β} {e : ε}
    (h : l.foldlM step start = .error e) : ∃ b, ∃ a ∈ l, step b a = .error e := by
  induction l generalizing start with
  | nil => contradiction
  | cons a l ih =>
      rw [List.foldlM_cons, bind_eq_error] at h
      rcases h with h | ⟨b, -, h⟩
      · exact ⟨start, a, List.mem_cons_self, h⟩
      · obtain ⟨b', a', ha', h⟩ := ih h
        exact ⟨b', a', List.mem_cons_of_mem a ha', h⟩

/-- A fold that succeeds has succeeded in each of its steps. -/
theorem exists_step_of_foldlM {step : β → α → Except ε β} {start last : β} {a : α}
    (h : l.foldlM step start = .ok last) (ha : a ∈ l) : ∃ b next, step b a = .ok next := by
  induction l generalizing start with
  | nil => contradiction
  | cons first l ih =>
      rw [List.foldlM_cons] at h
      obtain ⟨next, hnext, h⟩ := bind_eq_ok.1 h
      rcases List.mem_cons.1 ha with rfl | ha
      · exact ⟨start, next, hnext⟩
      · exact ih h ha

/-- What holds between the entries of a list holds between the results of a traversal. -/
theorem pairwise_of_mapM {R : α → α → Prop} {S : β → β → Prop} (h : l.mapM g = .ok r)
    (hl : l.Pairwise R)
    (hstep : ∀ a a' b b', R a a' → g a = .ok b → g a' = .ok b' → S b b') : r.Pairwise S := by
  let T : Except ε β → Except ε β → Prop := fun x y => ∀ b b', x = .ok b → y = .ok b' → S b b'
  have hmap : (l.map g).Pairwise T :=
    List.pairwise_map.2 (hl.imp fun {a a'} haa' b b' => hstep a a' b b' haa')
  rw [mapM_eq_ok.1 h] at hmap
  exact (List.pairwise_map.1 hmap).imp fun {b b'} hbb' => hbb' b b' rfl rfl

/-- A traversal whose steps all succeed does so, too. -/
theorem exists_mapM (h : ∀ a ∈ l, ∃ b, g a = .ok b) : ∃ r, l.mapM g = .ok r := by
  induction l with
  | nil => exact ⟨[], rfl⟩
  | cons a l ih =>
      obtain ⟨⟨b, hb⟩, hl⟩ := List.forall_mem_cons.1 h
      obtain ⟨bs, hbs⟩ := ih hl
      refine ⟨b :: bs, ?_⟩
      rw [List.mapM_cons, hb, hbs]
      rfl

/-- What is read off the results of a traversal is what can be read off its entries. -/
theorem flatMap_of_mapM {γ : Type} {p : β → List γ} {q : α → List γ} (h : l.mapM g = .ok r)
    (hstep : ∀ a ∈ l, ∀ b, g a = .ok b → p b = q a) : r.flatMap p = l.flatMap q := by
  induction l generalizing r with
  | nil =>
      obtain rfl := pure_eq_ok.1 h
      rfl
  | cons a l ih =>
      rw [List.mapM_cons] at h
      obtain ⟨b, hb, h⟩ := bind_eq_ok.1 h
      obtain ⟨bs, hbs, h⟩ := bind_eq_ok.1 h
      obtain ⟨ha, hl⟩ := List.forall_mem_cons.1 hstep
      rw [← pure_eq_ok.1 h, List.flatMap_cons, List.flatMap_cons, ha b hb, ih hbs hl]

theorem mapM_eq_ok_map {v : α → β} (h : ∀ a ∈ l, g a = .ok (v a)) :
    l.mapM g = .ok (l.map v) := by
  rw [mapM_eq_ok, List.map_map]
  exact List.map_congr_left h

end Except

/-! ### Filling a store

Of several entries for one key the last one counts.  The lists from which the store of a forest is
filled have one value at most for each key, so their order does not matter. -/

section Store

variable {κ ν : Type} [Ord κ] [Std.TransOrd κ] [Std.LawfulEqOrd κ] [DecidableEq κ]

theorem getElem?_insert_eq (m : Std.ExtTreeMap κ ν) (a k : κ) (v : ν) :
    (m.insert a v)[k]? = if a = k then some v else m[k]? := by
  rw [Std.ExtTreeMap.getElem?_insert]
  simp only [Std.LawfulEqOrd.compare_eq_iff_eq]

variable {m : Std.ExtTreeMap κ ν} {l : List (κ × ν)} {k : κ}

/-- A key that is not listed keeps its value. -/
theorem getElem?_insertMany_of_not_mem (h : ∀ p ∈ l, p.1 ≠ k) : (m.insertMany l)[k]? = m[k]? := by
  induction l generalizing m with
  | nil => rfl
  | cons p l ih =>
      obtain ⟨hp, hl⟩ := List.forall_mem_cons.1 h
      rw [Std.ExtTreeMap.insertMany_cons, ih hl, getElem?_insert_eq, if_neg hp]

/-- A key that is listed with one value only gets that value. -/
theorem getElem?_insertMany_of_mem {v : ν} (hmem : (k, v) ∈ l) (h : ∀ p ∈ l, p.1 = k → p.2 = v) :
    (m.insertMany l)[k]? = some v := by
  induction l generalizing m with
  | nil => contradiction
  | cons p l ih =>
      rw [Std.ExtTreeMap.insertMany_cons]
      obtain ⟨hp, hl⟩ := List.forall_mem_cons.1 h
      by_cases hk : (k, v) ∈ l
      · exact ih hk hl
      · -- no later entry has the key, so the first one stays
        obtain rfl : (k, v) = p := (List.mem_cons.1 hmem).resolve_right hk
        have hnot : ∀ q ∈ l, q.1 ≠ k := by
          intro q hq hqk
          have heq : q = (k, v) := Prod.ext hqk (hl q hq hqk)
          exact hk (heq ▸ hq)
        rw [getElem?_insertMany_of_not_mem hnot, getElem?_insert_eq, if_pos rfl]

/-- A value that is found was listed or was there before. -/
theorem mem_of_getElem?_insertMany {v : ν} (h : (m.insertMany l)[k]? = some v) :
    (k, v) ∈ l ∨ m[k]? = some v := by
  induction l generalizing m with
  | nil => exact Or.inr h
  | cons p l ih =>
      rw [Std.ExtTreeMap.insertMany_cons] at h
      rcases ih h with hl | hm
      · exact Or.inl (List.mem_cons_of_mem p hl)
      · rw [getElem?_insert_eq] at hm
        split at hm
        · next hp =>
          subst hp
          rw [← Option.some.inj hm]
          exact Or.inl List.mem_cons_self
        · exact Or.inr hm

theorem mem_of_getElem?_ofList {v : ν} (h : (Std.ExtTreeMap.ofList l)[k]? = some v) :
    (k, v) ∈ l := by
  rw [Std.ExtTreeMap.ofList_eq_insertMany_empty] at h
  exact (mem_of_getElem?_insertMany h).resolve_right (by simp)

end Store

end AdaptiveMesh
