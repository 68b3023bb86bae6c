/-
Families of elements.

The children of an element are what its halves are to a segment, along the axes that
split and along no others.  Three things are said of them: which elements they are,
that they cover the cells of the element each exactly once, and that they are listed
in ascending order.  Parents and siblings come back to children: an element is among
the children of its parent, and those children are its siblings.
-/
import Mathlib.Tactic.Choose
import AdaptiveMesh.Proofs.Cell

namespace AdaptiveMesh

namespace Decision

variable {D : Nat}

/-- The decision that undoes a join: to split along the axes that join. -/
def unjoin (flags : Decision D) : Decision D :=
  Vector.ofFn fun d => if flags.get d = .join then .split else .doNothing

theorem get_unjoin_eq_split_iff {flags : Decision D} {d : Fin D} :
    flags.unjoin.get d = .split ↔ flags.get d = .join := by
  unfold unjoin
  rw [get_ofFn]
  split <;> simp_all

theorem has_split_unjoin_iff {flags : Decision D} : flags.unjoin.Has .split ↔ flags.Has .join :=
  exists_congr fun _ => get_unjoin_eq_split_iff

end Decision

namespace Element

variable {D : Nat} {e c p : Element D} {flags : Decision D} {l : List (Element D)} {x : Cell D}

/-! ### Children

An axis that splits has two halves to pick from, and any other axis has the segment itself.  What is
said of the children is said of these pieces and carried through the pick. -/

theorem children_eq_ok (h : e.children flags = .ok l) :
    (∀ d, flags.get d = .split → (e.segment d).level < maxLevel) ∧
      l = (choices (Vector.ofFn (e.pieces flags))).map fun s => { e with segments := s } := by
  unfold children at h
  split at h
  · contradiction
  · next hnone =>
    refine ⟨fun d hd => ?_, (Except.ok.inj h).symm⟩
    have hne := firstAxis?_eq_none_iff.1 hnone d
    have hle := (e.segment d).level_le
    exact Nat.lt_of_le_of_ne hle fun heq => hne ⟨hd, heq⟩

theorem exists_children (h : ∀ d, flags.get d = .split → (e.segment d).level < maxLevel) :
    ∃ l, e.children flags = .ok l := by
  unfold children
  have hnone : (firstAxis? fun d => flags.get d = .split ∧ (e.segment d).level = maxLevel)
      = none :=
    firstAxis?_eq_none_iff.2 fun d hd => Nat.ne_of_lt (h d hd.1) hd.2
  rw [hnone]
  exact ⟨_, rfl⟩

/-- Only the axes that split matter. -/
theorem children_congr {flags' : Decision D}
    (h : ∀ d, flags.get d = .split ↔ flags'.get d = .split) :
    e.children flags = e.children flags' := by
  have hp : e.pieces flags = e.pieces flags' := by
    funext d
    simp only [pieces, h d]
  unfold children
  simp only [h, hp]

theorem mem_children (h : e.children flags = .ok l) :
    c ∈ l ↔ c.block = e.block ∧ ∀ d, c.segment d ∈ e.pieces flags d := by
  rw [(children_eq_ok h).2, List.mem_map]
  constructor
  · rintro ⟨v, hv, rfl⟩
    refine ⟨rfl, fun d => ?_⟩
    have := mem_choices.1 hv d
    rwa [get_ofFn] at this
  · rintro ⟨hb, hs⟩
    refine ⟨c.segments, mem_choices.2 fun d => ?_, ext_segment hb.symm fun _ => rfl⟩
    rw [get_ofFn]
    exact hs d

/-- Along each axis a child is a half where the element splits, and like it elsewhere. -/
theorem segment_of_mem_children (h : e.children flags = .ok l) (hc : c ∈ l) (d : Fin D) :
    if flags.get d = .split then (c.segment d).parent? = some (e.segment d)
    else c.segment d = e.segment d := by
  have hm := ((mem_children h).1 hc).2 d
  unfold pieces at hm
  by_cases hd : flags.get d = .split
  · rw [if_pos hd] at hm ⊢
    exact Segment.mem_halves_iff_parent?.1 hm
  · rw [if_neg hd] at hm ⊢
    exact List.mem_singleton.1 hm

theorem level_of_mem_children (h : e.children flags = .ok l) (hc : c ∈ l) (d : Fin D) :
    (c.segment d).level
      = if flags.get d = .split then (e.segment d).level + 1 else (e.segment d).level := by
  have hs := segment_of_mem_children h hc d
  by_cases hd : flags.get d = .split
  · rw [if_pos hd] at hs ⊢
    exact Segment.level_of_mem_halves (Segment.mem_halves_iff_parent?.2 hs)
  · rw [if_neg hd] at hs ⊢
    rw [hs]

theorem covers_of_mem_children (h : e.children flags = .ok l) (hc : c ∈ l) (hx : c.Covers x) :
    e.Covers x := by
  refine ⟨((mem_children h).1 hc).1.symm.trans hx.1, fun d => ?_⟩
  have hs := segment_of_mem_children h hc d
  split at hs
  · exact Segment.covers_of_parent? hs (hx.2 d)
  · rw [← hs]
    exact hx.2 d

/-- The children cover the cells of the element. -/
theorem covers_iff_exists_mem_children (h : e.children flags = .ok l) :
    e.Covers x ↔ ∃ c ∈ l, c.Covers x := by
  constructor
  · intro hx
    have hpiece : ∀ d, ∃ s ∈ e.pieces flags d, s.Covers (x.place d) := by
      intro d
      unfold pieces
      split
      · next hd =>
        exact (Segment.covers_iff_exists_mem_halves ((children_eq_ok h).1 d hd)).1 (hx.2 d)
      · exact ⟨_, List.mem_singleton.2 rfl, hx.2 d⟩
    choose s hs hcov using hpiece
    let c : Element D := { e with segments := Vector.ofFn s }
    have hseg : ∀ d, c.segment d = s d := fun d => get_ofFn s d
    refine ⟨c, (mem_children h).2 ⟨rfl, fun d => ?_⟩, hx.1, fun d => ?_⟩
    · rw [hseg]
      exact hs d
    · rw [hseg]
      exact hcov d
  · rintro ⟨c, hc, hx⟩
    exact covers_of_mem_children h hc hx

/-- No cell is covered by two children. -/
theorem eq_of_mem_children_of_covers {c' : Element D} (h : e.children flags = .ok l)
    (hc : c ∈ l) (hc' : c' ∈ l) (hx : c.Covers x) (hx' : c'.Covers x) : c = c' := by
  refine eq_of_covers (fun d => ?_) hx hx'
  rw [level_of_mem_children h hc, level_of_mem_children h hc']

theorem children_ne_nil (h : e.children flags = .ok l) : l ≠ [] := by
  obtain ⟨x, hx⟩ := e.exists_covers
  obtain ⟨c, hc, -⟩ := (covers_iff_exists_mem_children h).1 hx
  exact List.ne_nil_of_mem hc

/-- An element that splits is none of its children. -/
theorem not_mem_children (h : e.children flags = .ok l) (hs : flags.Has .split) : e ∉ l := by
  intro he
  obtain ⟨d, hd⟩ := hs
  have hl := level_of_mem_children h he d
  rw [if_pos hd] at hl
  omega

/-- A split makes several children. -/
theorem exists_ne_of_children (h : e.children flags = .ok l) (hs : flags.Has .split) :
    ∃ a ∈ l, ∃ b ∈ l, a ≠ b := by
  obtain ⟨d, hd⟩ := hs
  obtain ⟨c, hc⟩ := List.exists_mem_of_ne_nil l (children_ne_nil h)
  have hlt := (children_eq_ok h).1 d hd
  -- the child with the one half or the other along the axis
  have hmem : ∀ side, ({ c with segments := setAxis c.segments d ((e.segment d).half side hlt) } :
      Element D) ∈ l := by
    intro side
    refine (mem_children h).2 ⟨((mem_children h).1 hc).1, fun d' => ?_⟩
    simp only [segment, get_setAxis]
    split
    · next heq =>
      subst heq
      rw [pieces, if_pos hd]
      exact Segment.mem_halves.2 ⟨hlt, side, rfl⟩
    · exact ((mem_children h).1 hc).2 d'
  refine ⟨_, hmem .lower, _, hmem .upper, fun heq => ?_⟩
  have hsegment := congrArg (fun c => (c.segment d).index) heq
  simp [segment, get_setAxis, Segment.half] at hsegment

/-- Without a split an element is its only child. -/
theorem eq_of_mem_children (h : e.children flags = .ok l) (hs : ¬ flags.Has .split) (hc : c ∈ l) :
    c = e := by
  refine ext_segment ((mem_children h).1 hc).1 fun d => ?_
  have hseg := segment_of_mem_children h hc d
  rwa [if_neg fun hd => hs ⟨d, hd⟩] at hseg

/-! ### Parents and siblings

A parent is computed from a single child.  That all children of one split come to the same parent is
what makes siblings a family, whichever of them is asked. -/

theorem parent_eq_ok (h : e.parent flags = .ok p) :
    p.block = e.block ∧ ∀ d, if flags.get d = .join then
      (e.segment d).parent? = some (p.segment d) else p.segment d = e.segment d := by
  unfold parent at h
  split at h
  · contradiction
  · next hnone =>
    obtain rfl := Except.ok.inj h
    refine ⟨rfl, fun d => ?_⟩
    have hne := firstAxis?_eq_none_iff.1 hnone d
    simp only [segment, get_ofFn]
    split
    · next hd =>
      have hsome : (e.segments.get d).parent? ≠ none :=
        fun hno => hne ⟨hd, Segment.parent?_eq_none_iff.1 hno⟩
      obtain ⟨s, hs⟩ := Option.ne_none_iff_exists'.1 hsome
      rw [hs, Option.getD_some]
    · rfl

/-- A parent is known by its segments. -/
theorem parent_eq_ok_iff : e.parent flags = .ok p ↔
    p.block = e.block ∧ ∀ d, if flags.get d = .join then
      (e.segment d).parent? = some (p.segment d) else p.segment d = e.segment d := by
  refine ⟨parent_eq_ok, fun h => ?_⟩
  have hnone : (firstAxis? fun d => flags.get d = .join ∧ (e.segment d).level = 0) = none := by
    refine firstAxis?_eq_none_iff.2 fun d ⟨hd, hl⟩ => ?_
    have hs := h.2 d
    rw [if_pos hd, Segment.parent?_eq_none_iff.2 hl] at hs
    contradiction
  unfold parent
  rw [hnone]
  refine congrArg Except.ok (ext_segment h.1.symm fun d => ?_)
  have hs := h.2 d
  simp only [segment, get_ofFn] at hs ⊢
  split at hs
  · next hd => rw [if_pos hd, hs, Option.getD_some]
  · next hd => rw [if_neg hd, hs]

/-- Without a join an element takes its own place. -/
theorem eq_of_parent (h : e.parent flags = .ok p) (hj : ¬ flags.Has .join) : p = e := by
  refine ext_segment (parent_eq_ok h).1 fun d => ?_
  have hs := (parent_eq_ok h).2 d
  rwa [if_neg fun hd => hj ⟨d, hd⟩] at hs

theorem exists_parent (h : ∀ d, flags.get d = .join → 0 < (e.segment d).level) :
    ∃ p, e.parent flags = .ok p := by
  unfold parent
  have hnone : (firstAxis? fun d => flags.get d = .join ∧ (e.segment d).level = 0) = none :=
    firstAxis?_eq_none_iff.2 fun d hd => Nat.ne_of_gt (h d hd.1) hd.2
  rw [hnone]
  exact ⟨_, rfl⟩

theorem level_of_parent (h : e.parent flags = .ok p) (d : Fin D) :
    (e.segment d).level
      = if flags.get d = .join then (p.segment d).level + 1 else (p.segment d).level := by
  have hs := (parent_eq_ok h).2 d
  by_cases hd : flags.get d = .join
  · rw [if_pos hd] at hs ⊢
    exact Segment.level_of_mem_halves (Segment.mem_halves_iff_parent?.2 hs)
  · rw [if_neg hd] at hs ⊢
    rw [hs]

theorem covers_of_parent (h : e.parent flags = .ok p) (hx : e.Covers x) : p.Covers x := by
  refine ⟨(parent_eq_ok h).1.trans hx.1, fun d => ?_⟩
  have hs := (parent_eq_ok h).2 d
  split at hs
  · exact Segment.covers_of_parent? hs (hx.2 d)
  · rw [hs]
    exact hx.2 d

/-- The siblings of an element are the children of its parent, which it has whenever it has a
parent. -/
theorem siblings_of_parent (h : e.parent flags = .ok p) :
    ∃ l, e.siblings flags = .ok l ∧ p.children flags.unjoin = .ok l ∧ e ∈ l := by
  have hlt : ∀ d, flags.unjoin.get d = .split → (p.segment d).level < maxLevel := by
    intro d hd
    have hl := level_of_parent h d
    rw [if_pos (Decision.get_unjoin_eq_split_iff.1 hd)] at hl
    have := (e.segment d).level_le
    omega
  obtain ⟨l, hl⟩ := exists_children hlt
  refine ⟨l, ?_, hl, (mem_children hl).2 ⟨(parent_eq_ok h).1.symm, fun d => ?_⟩⟩
  · unfold siblings
    rw [h]
    exact hl
  · have hs := (parent_eq_ok h).2 d
    unfold pieces
    simp only [Decision.get_unjoin_eq_split_iff]
    split at hs
    · next hd =>
      rw [if_pos hd]
      exact Segment.mem_halves_iff_parent?.2 hs
    · next hd =>
      rw [if_neg hd, hs]
      exact List.mem_singleton.2 rfl

/-- Siblings are the children of a parent. -/
theorem siblings_eq_ok (h : e.siblings flags = .ok l) :
    ∃ p, e.parent flags = .ok p ∧ p.children flags.unjoin = .ok l := by
  cases hp : e.parent flags with
  | error fault =>
      unfold siblings at h
      rw [hp] at h
      contradiction
  | ok p =>
      obtain ⟨l', hl', hchildren, -⟩ := siblings_of_parent hp
      rw [h, Except.ok.injEq] at hl'
      exact ⟨p, rfl, hl' ▸ hchildren⟩

theorem mem_siblings_self (h : e.siblings flags = .ok l) : e ∈ l := by
  obtain ⟨p, hp, -⟩ := siblings_eq_ok h
  obtain ⟨l', hl', -, he⟩ := siblings_of_parent hp
  rw [h, Except.ok.injEq] at hl'
  exact hl' ▸ he

/-- All siblings have one parent. -/
theorem parent_of_mem_siblings (h : e.parent flags = .ok p) (hl : e.siblings flags = .ok l)
    (hc : c ∈ l) : c.parent flags = .ok p := by
  obtain ⟨p', hp', hchildren⟩ := siblings_eq_ok hl
  obtain rfl : p = p' := by rwa [h, Except.ok.injEq] at hp'
  refine parent_eq_ok_iff.2 ⟨((mem_children hchildren).1 hc).1.symm, fun d => ?_⟩
  have hs := segment_of_mem_children hchildren hc d
  simp only [Decision.get_unjoin_eq_split_iff] at hs
  split at hs
  · next hd => rwa [if_pos hd]
  · next hd => rw [if_neg hd, hs]

/-- Without a join an element has no siblings but itself. -/
theorem eq_of_mem_siblings (h : e.siblings flags = .ok l) (hj : ¬ flags.Has .join) (hc : c ∈ l) :
    c = e := by
  obtain ⟨p, hp, -⟩ := siblings_eq_ok h
  rw [← eq_of_parent (parent_of_mem_siblings hp h hc) hj, eq_of_parent hp hj]

/-- All siblings are on the same levels. -/
theorem level_of_mem_siblings (hl : e.siblings flags = .ok l) (hc : c ∈ l) (d : Fin D) :
    (c.segment d).level = (e.segment d).level := by
  obtain ⟨p, hp, -⟩ := siblings_eq_ok hl
  rw [level_of_parent hp, level_of_parent (parent_of_mem_siblings hp hl hc)]

/-- A sibling that joins into the same parent has the same siblings. -/
theorem siblings_eq_of_mem {flags' : Decision D} (h : e.parent flags = .ok p)
    (h' : c.parent flags' = .ok p) (hl : e.siblings flags = .ok l) (hc : c ∈ l) :
    c.siblings flags' = .ok l := by
  obtain ⟨m, hm, hchildren, -⟩ := siblings_of_parent h
  obtain ⟨m', hm', hchildren', -⟩ := siblings_of_parent h'
  rw [hl, Except.ok.injEq] at hm
  rw [← hm] at hchildren
  have hsame : p.children flags.unjoin = p.children flags'.unjoin := by
    refine children_congr fun d => ?_
    have hlevel := level_of_mem_children hchildren hc d
    rw [level_of_parent h' d] at hlevel
    simp only [Decision.get_unjoin_eq_split_iff] at hlevel ⊢
    by_cases hd : flags.get d = .join <;> by_cases hd' : flags'.get d = .join <;> simp_all
  rw [hchildren, hchildren', Except.ok.injEq] at hsame
  rw [hm', hsame]

end Element

end AdaptiveMesh
