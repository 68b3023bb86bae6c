/-
Dyadic segments of one axis.

A block's interval is bisected again and again.  After `level` bisections there are
`2 ^ level` segments, and `index` counts them from the lower end.  Refinement stops
at `maxLevel`, so every segment is a run of whole cells of the finest grid, which
has `2 ^ maxLevel` of them.  Comparing two segments of any levels is then comparing
the cells at which they start and stop.
-/
import AdaptiveMesh.Geometry.Face

namespace AdaptiveMesh

/-- The deepest refinement level in any axis. -/
def maxLevel : Nat := 16

/-- The number of segments of a level; each bisection doubles it. -/
def segmentCount (level : Nat) : Nat := Nat.pow 2 level

theorem segmentCount_succ (level : Nat) : segmentCount (level + 1) = 2 * segmentCount level :=
  Nat.mul_comm _ _

theorem segmentCount_pos (level : Nat) : 0 < segmentCount level :=
  Nat.pow_pos (by decide)

/-- A node of the bisection tree of one axis. -/
structure Segment where
  /-- The number of bisections that made the segment. -/
  level : Nat
  /-- Its place among the segments of that level. -/
  index : Nat
  /-- Refinement stops at the finest grid. -/
  level_le : level ≤ maxLevel := by decide
  /-- The level has such a place. -/
  index_lt : index < segmentCount level := by decide
deriving DecidableEq, Repr

namespace Segment

/-- Why a level and an index name no segment. -/
inductive Fault where
  /-- The level lies beyond the finest grid. -/
  | tooDeep (level : Nat)
  /-- The level has no such place. -/
  | outOfRange (level index : Nat)
deriving DecidableEq, Repr

/-- What a rejected level and index are told. -/
def Fault.message : Fault → String
  | tooDeep level => s!"refinement level {level} exceeds maximum {maxLevel}"
  | outOfRange level index => s!"segment index {index} out of range for level {level}"

/-- The segment with a level and an index; the level is looked at first. -/
def ofLevelIndex (level index : Nat) : Except Fault Segment :=
  if hl : level ≤ maxLevel then
    if hi : index < segmentCount level then .ok ⟨level, index, hl, hi⟩
    else .error (.outOfRange level index)
  else .error (.tooDeep level)

instance : ToString Segment where
  toString s := s!"(L{s.level}I{s.index})"

/-- The whole interval of a block. -/
def root : Segment where
  level := 0
  index := 0

/-- The number of segments of this segment's level. -/
def count (s : Segment) : Nat := segmentCount s.level

/-- All segments of one level, from the lower end. -/
def ofLevel (level : Nat) (h : level ≤ maxLevel) : List Segment :=
  (List.finRange (segmentCount level)).map fun i => ⟨level, i.val, h, i.isLt⟩

/-! ### Family

The whole interval has no parent and no other half, and a segment of the finest grid has no halves.
There is no segment that stands for what is missing. -/

/-- The segment whose half this one is. -/
def parent? (s : Segment) : Option Segment :=
  if h : 0 < s.level then
    some ⟨s.level - 1, s.index / 2, Nat.le_trans (Nat.sub_le _ _) s.level_le, by
      have hp := segmentCount_succ (s.level - 1)
      rw [Nat.sub_add_cancel h] at hp
      have := s.index_lt
      omega⟩
  else none

/-- The half of a segment on one side, above the finest grid. -/
def half (s : Segment) (side : Side) (h : s.level < maxLevel) : Segment :=
  ⟨s.level + 1, 2 * s.index + (if side = .lower then 0 else 1), h, by
    have := s.index_lt
    rw [segmentCount_succ]
    split <;> omega⟩

/-- The half of a segment on one side, or nothing on the finest grid. -/
def child? (s : Segment) (side : Side) : Option Segment :=
  if h : s.level < maxLevel then some (s.half side h) else none

/-- Both halves, the lower one first; nothing on the finest grid. -/
def halves (s : Segment) : List Segment :=
  if h : s.level < maxLevel then [s.half .lower h, s.half .upper h] else []

/-- The side of its parent on which the segment lies. -/
def sideInParent? (s : Segment) : Option Side :=
  if 0 < s.level then some (if s.index % 2 = 0 then .lower else .upper) else none

/-- The other half of the parent. -/
def sibling? (s : Segment) : Option Segment :=
  if h : 0 < s.level then
    some ⟨s.level, if s.index % 2 = 0 then s.index + 1 else s.index - 1, s.level_le, by
      have hp := segmentCount_succ (s.level - 1)
      rw [Nat.sub_add_cancel h] at hp
      have := s.index_lt
      split <;> omega⟩
  else none

/-- The segment seen along the axis run backwards. -/
def flipped (s : Segment) : Segment :=
  ⟨s.level, s.count - 1 - s.index, s.level_le, by
    have := s.index_lt
    simp only [count]
    omega⟩

/-! ### Place on the finest grid -/

/-- The number of cells of the finest grid that the segment covers. -/
def width (s : Segment) : Nat := segmentCount (maxLevel - s.level)

/-- The cell of the finest grid at which the segment starts. -/
def start (s : Segment) : Nat := s.index * s.width

/-- The cell of the finest grid just past the segment. -/
def stop (s : Segment) : Nat := s.start + s.width

/-- Two segments overlap when they share a cell of the finest grid. -/
def Overlaps (s t : Segment) : Prop := s.start < t.stop ∧ t.start < s.stop

instance (s t : Segment) : Decidable (s.Overlaps t) :=
  inferInstanceAs (Decidable (_ ∧ _))

/-- The other segment begins exactly where this one ends on the given side. -/
def Abuts (s : Segment) (side : Side) (t : Segment) : Prop :=
  match side with
  | .upper => s.stop = t.start
  | .lower => t.stop = s.start

instance (s : Segment) (side : Side) (t : Segment) : Decidable (s.Abuts side t) := by
  cases side <;> exact inferInstanceAs (Decidable (_ = _))

/-- The segment reaches the end of the block's interval on the given side. -/
def Touches (s : Segment) (side : Side) : Prop :=
  match side with
  | .lower => s.index = 0
  | .upper => s.index + 1 = s.count

instance (s : Segment) (side : Side) : Decidable (s.Touches side) := by
  cases side <;> exact inferInstanceAs (Decidable (_ = _))

/-! ### Order -/

/-- Segments compare by level, then by index. -/
def key (s : Segment) : List Nat := [s.level, s.index]

theorem key_injective {s t : Segment} (h : s.key = t.key) : s = t := by
  obtain ⟨sl, si, _, _⟩ := s
  obtain ⟨tl, ti, _, _⟩ := t
  simp only [key, List.cons.injEq, and_true] at h
  simp [h]

instance : Ord Segment where
  compare := compareOn key

end Segment

end AdaptiveMesh
