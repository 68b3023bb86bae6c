/-
Lists in ascending order.

A forest lists its elements in ascending order, and the children of an element and
the first elements of a block come in ascending order by construction.  A list in
ascending order is determined by what it holds, so such lists may be compared member
by member.

Order is order of keys, and the keys of all elements have one length.  Picking
segments with the last axis varying fastest therefore is picking keys in
lexicographic order; the induction is the one of `choices`, from the last axis
forwards.
-/
import AdaptiveMesh.Proofs.Family

namespace AdaptiveMesh

/-- Each entry of the list is below the ones after it. -/
def Ascending {α : Type} [Ord α] (l : List α) : Prop := l.Pairwise fun a b => compare a b = .lt

namespace Ascending

section Basic

variable {α : Type} [Ord α] {l m : List α}

theorem filter (h : Ascending l) (p : α → Bool) : Ascending (l.filter p) :=
  List.Pairwise.sublist List.filter_sublist h

theorem nodup [Std.ReflOrd α] (h : Ascending l) : l.Nodup := by
  refine List.Pairwise.imp (fun {a b} hlt heq => ?_) h
  rw [heq, Std.ReflOrd.compare_self] at hlt
  contradiction

/-- A list in ascending order is determined by its members. -/
theorem eq_of_mem_iff [Std.TransOrd α] (hl : Ascending l) (hm : Ascending m)
    (h : ∀ a, a ∈ l ↔ a ∈ m) : l = m := by
  have hp : l.Perm m := (List.perm_ext_iff_of_nodup hl.nodup hm.nodup).2 h
  refine hp.eq_of_pairwise (fun a b _ _ hab hba => ?_) hl hm
  rw [Std.OrientedOrd.eq_swap (a := a) (b := b), hba] at hab
  contradiction

end Basic

/-! ### Keys

Lists of numbers are compared from the front, while `choices` adds the last axis at the end.
Comparing keys is therefore taken apart at the end as well: where the keys so far are equal, the
segments that were added decide. -/

theorem compare_append {a a' b b' : List Nat} (h : a.length = a'.length) :
    compare (a ++ b) (a' ++ b') = (compare a a').then (compare b b') := by
  induction a generalizing a' with
  | nil =>
      cases a' with
      | nil => rfl
      | cons => contradiction
  | cons n a ih =>
      cases a' with
      | nil => contradiction
      | cons n' a' =>
          rw [List.cons_append, List.cons_append, List.compare_cons_cons,
            List.compare_cons_cons, ih (Nat.succ.inj h), Ordering.then_assoc]

/-- The numbers by which the segments of an element are ordered. -/
def segmentsKey {n : Nat} (v : Vector Segment n) : List Nat := v.toList.flatMap Segment.key

theorem length_flatMap_key (l : List Segment) : (l.flatMap Segment.key).length = 2 * l.length := by
  induction l with
  | nil => rfl
  | cons s l ih =>
      rw [List.flatMap_cons, List.length_append, ih, List.length_cons]
      show 2 + 2 * l.length = _
      omega

theorem length_segmentsKey {n : Nat} (v : Vector Segment n) : (segmentsKey v).length = 2 * n := by
  rw [segmentsKey, length_flatMap_key, Vector.length_toList]

theorem segmentsKey_push {n : Nat} (v : Vector Segment n) (s : Segment) :
    segmentsKey (v.push s) = segmentsKey v ++ s.key := by
  simp [segmentsKey, Vector.toList_push]

theorem compare_segmentsKey_push {n : Nat} (v w : Vector Segment n) (s t : Segment) :
    compare (segmentsKey (v.push s)) (segmentsKey (w.push t))
      = (compare (segmentsKey v) (segmentsKey w)).then (compare s t) := by
  rw [segmentsKey_push, segmentsKey_push,
    compare_append (by rw [length_segmentsKey, length_segmentsKey])]
  rfl

/-! ### Picking one segment per axis -/

theorem pairwise_choices {n : Nat} {lists : Vector (List Segment) n}
    (h : ∀ i : Fin n, Ascending (lists.get i)) :
    (choices lists).Pairwise fun v w => compare (segmentsKey v) (segmentsKey w) = .lt := by
  induction n with
  | zero => exact List.pairwise_singleton _ _
  | succ n ih =>
      have hback : Ascending lists.back := by
        rw [Vector.back_eq_getElem]
        exact h ⟨n, Nat.lt_succ_self n⟩
      have hpop : ∀ i : Fin n, Ascending (lists.pop.get i) := by
        intro i
        have hi : lists.pop.get i = lists.get i.castSucc := Vector.getElem_pop _
        rw [hi]
        exact h i.castSucc
      unfold choices
      refine List.pairwise_flatMap.2 ⟨fun v _ => ?_, (ih hpop).imp fun {v w} hvw => ?_⟩
      · refine List.pairwise_map.2 (List.Pairwise.imp (fun {s t} hst => ?_) hback)
        rw [compare_segmentsKey_push, Std.ReflOrd.compare_self]
        exact hst
      · intro a ha b hb
        obtain ⟨s, -, rfl⟩ := List.mem_map.1 ha
        obtain ⟨t, -, rfl⟩ := List.mem_map.1 hb
        rw [compare_segmentsKey_push, hvw]
        rfl

end Ascending

namespace Segment

theorem compare_of_level_eq {s t : Segment} (hl : s.level = t.level) (hi : s.index < t.index) :
    compare s t = .lt := by
  show compare [s.level, s.index] [t.level, t.index] = .lt
  rw [List.compare_cons_cons, List.compare_cons_cons, hl, Std.ReflOrd.compare_self,
    Nat.compare_eq_lt.2 hi]
  rfl

theorem ascending_halves (s : Segment) : Ascending s.halves := by
  unfold halves
  split
  · refine List.pairwise_pair.2 (compare_of_level_eq rfl ?_)
    exact Nat.lt_succ_self _
  · exact List.Pairwise.nil

end Segment

namespace Element

variable {D : Nat} {e : Element D} {flags : Decision D} {l : List (Element D)}

theorem compare_eq_of_block_eq {e c : Element D} (h : e.block = c.block) :
    compare e c
      = compare (Ascending.segmentsKey e.segments) (Ascending.segmentsKey c.segments) := by
  show compare (e.block :: _) (c.block :: _) = _
  rw [List.compare_cons_cons, h, Std.ReflOrd.compare_self]
  rfl

theorem ascending_children (h : e.children flags = .ok l) : Ascending l := by
  rw [(children_eq_ok h).2]
  have hpieces : ∀ d : Fin D, Ascending ((Vector.ofFn (e.pieces flags)).get d) := by
    intro d
    rw [get_ofFn]
    unfold pieces
    split
    · exact Segment.ascending_halves _
    · exact List.pairwise_singleton _ _
  refine List.pairwise_map.2 ((Ascending.pairwise_choices hpieces).imp fun {v w} hvw => ?_)
  have hkey := compare_eq_of_block_eq (e := { e with segments := v })
    (c := { e with segments := w }) rfl
  exact hkey.trans hvw

end Element

end AdaptiveMesh
