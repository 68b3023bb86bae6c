/-
Elements as boxes of cells.

A cell is a place on the finest grid of a block.  An element covers the cells whose
places lie in its segments, and two elements overlap exactly when some cell is
covered by both.  From here on volume is a set of cells: a set of elements tiles a
block when every cell is covered by one of them, and an exchange of elements that
covers the same cells leaves the volume as it was.
-/
import Mathlib.Tactic.Choose
import AdaptiveMesh.Element.Family
import AdaptiveMesh.Proofs.Dyadic

namespace AdaptiveMesh

/-- A place on the finest grid of a block. -/
structure Cell (D : Nat) where
  /-- The number of the block. -/
  block : Nat
  /-- The place along each axis. -/
  place : Fin D → Nat
  /-- The place lies in the block. -/
  place_lt : ∀ d, place d < cellCount

namespace Element

variable {D : Nat} {e c : Element D} {x : Cell D}

theorem ext_segment (hb : e.block = c.block) (hs : ∀ d, e.segment d = c.segment d) : e = c := by
  have hv : e.segments = c.segments := ext_get hs
  cases e
  cases c
  simp_all

/-- A cell lies in the element. -/
def Covers (e : Element D) (x : Cell D) : Prop :=
  e.block = x.block ∧ ∀ d, (e.segment d).Covers (x.place d)

instance (e : Element D) (x : Cell D) : Decidable (e.Covers x) :=
  inferInstanceAs (Decidable (_ ∧ ∀ d, (e.segment d).Covers (x.place d)))

theorem overlaps_iff_exists_covers : e.Overlaps c ↔ ∃ x, e.Covers x ∧ c.Covers x := by
  constructor
  · rintro ⟨hb, hs⟩
    choose p hp using fun d => Segment.overlaps_iff_exists_covers.1 (hs d)
    exact ⟨⟨e.block, p, fun d => (hp d).1.lt⟩, ⟨rfl, fun d => (hp d).1⟩,
      hb.symm, fun d => (hp d).2⟩
  · rintro ⟨x, he, hc⟩
    exact ⟨he.1.trans hc.1.symm,
      fun d => Segment.overlaps_iff_exists_covers.2 ⟨x.place d, he.2 d, hc.2 d⟩⟩

theorem overlaps_of_covers (he : e.Covers x) (hc : c.Covers x) : e.Overlaps c :=
  overlaps_iff_exists_covers.2 ⟨x, he, hc⟩

theorem overlaps_comm : e.Overlaps c ↔ c.Overlaps e := by
  simp only [overlaps_iff_exists_covers, and_comm]

/-- Every element covers the cell at its lower corner. -/
theorem exists_covers (e : Element D) : ∃ x, e.Covers x :=
  ⟨⟨e.block, fun d => (e.segment d).start, fun d => (e.segment d).covers_start.lt⟩,
    rfl, fun d => (e.segment d).covers_start⟩

theorem overlaps_self (e : Element D) : e.Overlaps e :=
  let ⟨_, hx⟩ := e.exists_covers
  overlaps_of_covers hx hx

/-- An element that is nowhere finer than another and shares a cell with it covers all its cells. -/
theorem covers_of_level_le {y : Cell D} (hl : ∀ d, (e.segment d).level ≤ (c.segment d).level)
    (hx : e.Covers x) (hx' : c.Covers x) (hy : c.Covers y) : e.Covers y :=
  ⟨hx.1.trans (hx'.1.symm.trans hy.1), fun d =>
    Segment.covers_of_level_le (hl d) (hx.2 d) (hx'.2 d) (hy.2 d)⟩

/-- Elements of the same levels share no cells. -/
theorem eq_of_covers (hl : ∀ d, (e.segment d).level = (c.segment d).level)
    (he : e.Covers x) (hc : c.Covers x) : e = c :=
  ext_segment (he.1.trans hc.1.symm) fun d => Segment.eq_of_covers (hl d) (he.2 d) (hc.2 d)

/-! ### Elements of the finest grid

An element of the finest grid and the cell that it consists of stand for each other.  Statements
about elements use the one, so as not to mention cells, and their proofs go over to the other. -/

/-- The element is as fine as elements get, along every axis. -/
def IsFinest (e : Element D) : Prop := ∀ d, (e.segment d).level = maxLevel

instance (e : Element D) : Decidable e.IsFinest :=
  inferInstanceAs (Decidable (∀ d : Fin D, (e.segment d).level = maxLevel))

/-- The cell that a finest element consists of. -/
def cell (e : Element D) : Cell D where
  block := e.block
  place := fun d => (e.segment d).start
  place_lt := fun d => (e.segment d).covers_start.lt

/-- Along every axis the cells of the second element are among those of the first. -/
def Contains (e c : Element D) : Prop :=
  e.block = c.block ∧ ∀ d, (e.segment d).start ≤ (c.segment d).start ∧
    (c.segment d).stop ≤ (e.segment d).stop

/-- To contain a finest element is to cover its cell. -/
theorem IsFinest.contains_iff (hc : c.IsFinest) : e.Contains c ↔ e.Covers c.cell :=
  and_congr_right fun _ => forall_congr' fun d => Segment.contains_iff_covers (hc d)

/-- To overlap a finest element is to cover its cell. -/
theorem IsFinest.overlaps_iff (hc : c.IsFinest) : e.Overlaps c ↔ e.Covers c.cell := by
  constructor
  · intro h
    obtain ⟨x, he, hx⟩ := overlaps_iff_exists_covers.1 h
    refine ⟨he.1.trans hx.1.symm, fun d => ?_⟩
    have hplace : x.place d = (c.segment d).start := by
      have hs := (c.segment d).covers_start
      rw [Segment.covers_iff_of_level_eq_maxLevel (hc d)] at hs
      rw [hs]
      exact (Segment.covers_iff_of_level_eq_maxLevel (hc d)).1 (hx.2 d)
    show (e.segment d).Covers (c.segment d).start
    rw [← hplace]
    exact he.2 d
  · exact fun h => overlaps_of_covers h ⟨rfl, fun d => (c.segment d).covers_start⟩

end Element

end AdaptiveMesh
