/-
Choosing one thing per axis.

Splitting an element in several axes, and laying out the elements of a block, both
pick one segment per axis in every possible way.  `choices` lists the picks in
lexicographic order of the places in the given lists: the first axis varies
slowest, the last one fastest.
-/

namespace AdaptiveMesh

/-- Every way to pick one entry of each list, the first list varying slowest. -/
def choices {α : Type} : {n : Nat} → Vector (List α) n → List (Vector α n)
  | 0, _ => [#v[]]
  | _ + 1, lists => (choices lists.pop).flatMap fun v => lists.back.map v.push

theorem mem_choices {α : Type} : {n : Nat} → {lists : Vector (List α) n} → {v : Vector α n} →
    (v ∈ choices lists ↔ ∀ i : Fin n, v.get i ∈ lists.get i)
  | 0, lists, v => by
    have hv : v = #v[] := Vector.ext fun i hi => absurd hi (by simp)
    simp [choices, hv]
  | n + 1, lists, v => by
    simp only [choices, List.mem_flatMap, List.mem_map, mem_choices]
    constructor
    · rintro ⟨w, hw, x, hx, rfl⟩ ⟨i, hi⟩
      change (w.push x)[i] ∈ lists[i]
      rw [Vector.getElem_push]
      split
      · next h =>
        have hwi : w[i] ∈ lists.pop[i] := hw ⟨i, h⟩
        rwa [Vector.getElem_pop] at hwi
      · next h =>
        have hin : i = n := by omega
        subst hin
        rwa [Vector.back_eq_getElem] at hx
    · intro h
      refine ⟨v.pop, fun ⟨i, hi⟩ => ?_, v.back, ?_, Vector.push_pop_back v⟩
      · change v.pop[i] ∈ lists.pop[i]
        rw [Vector.getElem_pop, Vector.getElem_pop]
        exact h ⟨i, by omega⟩
      · rw [Vector.back_eq_getElem, Vector.back_eq_getElem]
        exact h ⟨n, by omega⟩

end AdaptiveMesh
