/-
An element and its children.

A split cuts an element in half along each axis that splits, and the children are all ways to
pick a half along each of these axes.  So there are two to the number of those axes, in
ascending order, and they partition the element: whatever shares a cell with the element shares
it with one of them, and no cell is shared by two.  The element is determined by each of its
children, since joining along the same axes leads back to it, and the siblings that would have
to join are the children again.

Nothing but the ends of the bisection tree is in the way: an axis on the finest grid cannot
split, and an unrefined axis cannot join.
-/
import Mathlib.Algebra.BigOperators.Fin
import AdaptiveMesh.Proofs.Ascending

namespace AdaptiveMesh

variable {D : Nat}

/-! ### How many children there are -/

/-- The number of picks is the product of the numbers of entries to pick from.  The induction is the
one of `choices`, from the last axis forwards. -/
theorem length_choices {α : Type} {n : Nat} (lists : Vector (List α) n) :
    (choices lists).length = ∏ i, (lists.get i).length := by
  induction n with
  | zero => simp [choices]
  | succ n ih =>
      have hlast : lists.get (Fin.last n) = lists.back := Vector.back_eq_getElem.symm
      have hpop : ∀ i : Fin n, lists.get i.castSucc = lists.pop.get i := by
        intro i
        exact (Vector.getElem_pop _).symm
      rw [Fin.prod_univ_castSucc, hlast]
      simp only [hpop, ← ih]
      simp [choices, List.length_flatMap]

/-- The axes along which a decision splits. -/
def Decision.splitAxes (flags : Decision D) : Finset (Fin D) :=
  Finset.univ.filter fun d => flags.get d = .split

/-- The first decision joins along exactly the axes along which the second one splits. -/
def Decision.Undoes (joins flags : Decision D) : Prop :=
  ∀ d, joins.get d = .join ↔ flags.get d = .split

theorem Segment.length_halves {s : Segment} (h : s.level < maxLevel) : s.halves.length = 2 := by
  unfold halves
  rw [dif_pos h]
  rfl

namespace Element

variable {e c p : Element D} {flags joins : Decision D} {l : List (Element D)}

theorem length_pieces {d : Fin D} (h : flags.get d = .split → (e.segment d).level < maxLevel) :
    (e.pieces flags d).length = if flags.get d = .split then 2 else 1 := by
  unfold pieces
  by_cases hd : flags.get d = .split
  · rw [if_pos hd, if_pos hd]
    exact Segment.length_halves (h hd)
  · rw [if_neg hd, if_neg hd]
    rfl

theorem length_children (h : e.children flags = .ok l) :
    l.length = 2 ^ flags.splitAxes.card := by
  obtain ⟨hlevel, rfl⟩ := children_eq_ok h
  have hpieces : ∀ d, ((Vector.ofFn (e.pieces flags)).get d).length
      = if flags.get d = .split then 2 else 1 := by
    intro d
    rw [get_ofFn]
    exact length_pieces (hlevel d)
  rw [List.length_map, length_choices]
  simp only [hpieces]
  rw [Finset.prod_ite, Finset.prod_const, Finset.prod_const_one, Nat.mul_one]
  rfl

/-! ### What the children share with other elements -/

theorem pairwise_not_overlaps_children (h : e.children flags = .ok l) :
    l.Pairwise fun a b => ¬ a.Overlaps b := by
  refine List.Pairwise.imp_of_mem (fun {a b} ha hb hne hov => ?_) (ascending_children h).nodup
  obtain ⟨x, hax, hbx⟩ := overlaps_iff_exists_covers.1 hov
  exact hne (eq_of_mem_children_of_covers h ha hb hax hbx)

theorem overlaps_of_mem_children (h : e.children flags = .ok l) (hc : c ∈ l) : c.Overlaps e := by
  obtain ⟨x, hx⟩ := c.exists_covers
  exact overlaps_of_covers hx (covers_of_mem_children h hc hx)

/-- Whatever overlaps an element overlaps one of its children. -/
theorem overlaps_iff_exists_mem_children (h : e.children flags = .ok l) :
    c.Overlaps e ↔ ∃ k ∈ l, c.Overlaps k := by
  constructor
  · intro hov
    obtain ⟨x, hcx, hex⟩ := overlaps_iff_exists_covers.1 hov
    obtain ⟨k, hk, hkx⟩ := (covers_iff_exists_mem_children h).1 hex
    exact ⟨k, hk, overlaps_of_covers hcx hkx⟩
  · intro hov
    obtain ⟨k, hk, hov⟩ := hov
    obtain ⟨x, hcx, hkx⟩ := overlaps_iff_exists_covers.1 hov
    exact overlaps_of_covers hcx (covers_of_mem_children h hk hkx)

/-! ### The way back -/

theorem parent_of_mem_children (h : e.children flags = .ok l) (hc : c ∈ l)
    (hjoins : joins.Undoes flags) : c.parent joins = .ok e := by
  refine parent_eq_ok_iff.2 ⟨((mem_children h).1 hc).1.symm, fun d => ?_⟩
  have hs := segment_of_mem_children h hc d
  by_cases hd : flags.get d = .split
  · rw [if_pos hd] at hs
    rw [if_pos ((hjoins d).2 hd)]
    exact hs
  · rw [if_neg hd] at hs
    rw [if_neg fun hj => hd ((hjoins d).1 hj)]
    exact hs.symm

theorem siblings_of_mem_children (h : e.children flags = .ok l) (hc : c ∈ l)
    (hjoins : joins.Undoes flags) : c.siblings joins = .ok l := by
  obtain ⟨l', hsiblings, hl', -⟩ := siblings_of_parent (parent_of_mem_children h hc hjoins)
  have hsame : e.children joins.unjoin = e.children flags :=
    children_congr fun d => Decision.get_unjoin_eq_split_iff.trans (hjoins d)
  rw [hsame, h, Except.ok.injEq] at hl'
  rw [hsiblings, hl']

/-! ### When there are none -/

theorem children_fails_iff : (∃ fault, e.children flags = .error fault) ↔
    ∃ d, flags.get d = .split ∧ (e.segment d).level = maxLevel := by
  cases h : e.children flags with
  | ok l =>
      refine iff_of_false (by simp) fun hfinest => ?_
      obtain ⟨d, hd, hlevel⟩ := hfinest
      exact Nat.ne_of_lt ((children_eq_ok h).1 d hd) hlevel
  | error fault =>
      refine iff_of_true ⟨fault, rfl⟩ (Classical.byContradiction fun hno => ?_)
      have hlevel : ∀ d, flags.get d = .split → (e.segment d).level < maxLevel := by
        intro d hd
        exact Nat.lt_of_le_of_ne (e.segment d).level_le fun hmax => hno ⟨d, hd, hmax⟩
      obtain ⟨l, hl⟩ := exists_children hlevel
      rw [h] at hl
      contradiction

theorem parent_fails_iff : (∃ fault, e.parent flags = .error fault) ↔
    ∃ d, flags.get d = .join ∧ (e.segment d).level = 0 := by
  cases h : e.parent flags with
  | ok p =>
      refine iff_of_false (by simp) fun hroot => ?_
      obtain ⟨d, hd, hlevel⟩ := hroot
      have hl := level_of_parent h d
      rw [if_pos hd] at hl
      omega
  | error fault =>
      refine iff_of_true ⟨fault, rfl⟩ (Classical.byContradiction fun hno => ?_)
      have hlevel : ∀ d, flags.get d = .join → 0 < (e.segment d).level := by
        intro d hd
        exact Nat.pos_of_ne_zero fun hzero => hno ⟨d, hd, hzero⟩
      obtain ⟨p, hp⟩ := exists_parent hlevel
      rw [h] at hp
      contradiction

/-! ### Partitions -/

/-- The listed elements are the parts into which a decision splits an element. -/
structure PartedInto (e : Element D) (flags : Decision D) (l : List (Element D)) : Prop where
  /-- Each axis that splits doubles their number. -/
  length_eq : l.length = 2 ^ flags.splitAxes.card
  /-- They are listed in ascending order, each once. -/
  ascending : Ascending l
  /-- No two of them overlap. -/
  disjoint : l.Pairwise fun a b => ¬ a.Overlaps b
  /-- Each of them overlaps the element. -/
  overlaps : ∀ c ∈ l, c.Overlaps e
  /-- Whatever overlaps the element overlaps one of them. -/
  covers : ∀ c : Element D, c.Overlaps e ↔ ∃ k ∈ l, c.Overlaps k
  /-- Joining along the axes that split leads each of them back to the element. -/
  parent_eq : ∀ joins : Decision D, joins.Undoes flags → ∀ c ∈ l, c.parent joins = .ok e
  /-- They are each other's siblings, and there are no others. -/
  siblings_eq : ∀ joins : Decision D, joins.Undoes flags → ∀ c ∈ l, c.siblings joins = .ok l

/-- Children partition their element and determine it.  An element has children unless it is on the
finest grid along an axis that splits, and a parent unless it is unrefined along an axis that
joins. -/
theorem children_partition (e : Element D) (flags : Decision D) :
    (∀ l, e.children flags = .ok l → e.PartedInto flags l) ∧
    ((∃ fault, e.children flags = .error fault) ↔
      ∃ d, flags.get d = .split ∧ (e.segment d).level = maxLevel) ∧
    ((∃ fault, e.parent flags = .error fault) ↔
      ∃ d, flags.get d = .join ∧ (e.segment d).level = 0) := by
  refine ⟨fun l h => ?_, children_fails_iff, parent_fails_iff⟩
  exact {
    length_eq := length_children h
    ascending := ascending_children h
    disjoint := pairwise_not_overlaps_children h
    overlaps := fun c hc => overlaps_of_mem_children h hc
    covers := fun c => overlaps_iff_exists_mem_children h
    parent_eq := fun joins hjoins c hc => parent_of_mem_children h hc hjoins
    siblings_eq := fun joins hjoins c hc => siblings_of_mem_children h hc hjoins }

/-- An element at the upper end of its block, one level above the finest grid along the first axis
and unrefined along the second. -/
def sliver : Element 3 where
  block := 2
  segments := #v[⟨15, 32767, by decide, by decide⟩, .root, ⟨1, 1, by decide, by decide⟩]

/-- Split along the first and the last axis it has four children, on the finest grid.  These cannot
split once more, and the element itself cannot join along the second axis. -/
theorem children_partition_sliver :
    (∃ l, sliver.children #v[.split, .increaseResolution, .split] = .ok l ∧ l.length = 4 ∧
      sliver.PartedInto #v[.split, .increaseResolution, .split] l ∧
      ∀ c ∈ l, ∃ fault, c.children #v[.split, .join, .join] = .error fault) ∧
    ∃ fault, sliver.parent #v[.join, .join, .doNothing] = .error fault := by
  obtain ⟨hparted, -, -⟩ := sliver.children_partition #v[.split, .increaseResolution, .split]
  obtain ⟨l, hl⟩ : ∃ l, sliver.children #v[.split, .increaseResolution, .split] = .ok l :=
    exists_children (by decide)
  have hparts := hparted l hl
  refine ⟨⟨l, hl, hparts.length_eq.trans (by decide), hparts, fun c hc => ?_⟩, ?_⟩
  · refine (c.children_partition _).2.1.2 ⟨0, rfl, ?_⟩
    exact level_of_mem_children hl hc 0
  · exact (sliver.children_partition _).2.2.2 ⟨1, rfl, rfl⟩

end Element

end AdaptiveMesh
