/-
Elements.

An element is a block and one segment of it per axis.  Elements are values: they
name a place, and whatever is known about the place is stored elsewhere under that
name.  They are ordered by block, then by their segments from the first axis on,
which is the order in which sets of elements are listed.
-/
import AdaptiveMesh.Flag.Decision
import AdaptiveMesh.Geometry.Orientation
import Std.Data.ExtTreeMap

namespace AdaptiveMesh

/-- A node of the bisection tree of a block. -/
structure Element (D : Nat) where
  /-- The number of the block. -/
  block : Nat
  /-- The segment along each axis. -/
  segments : Vector Segment D
  /-- An element extends along at least one axis. -/
  dimension_pos : 0 < D := by decide
deriving DecidableEq

namespace Element

variable {D : Nat}

/-- The element that is a whole block. -/
def root (block : Nat) (h : 0 < D) : Element D := ⟨block, Vector.replicate D .root, h⟩

/-- The segment along an axis. -/
def segment (e : Element D) (d : Fin D) : Segment := e.segments.get d

/-- The refinement level along each axis. -/
def levels (e : Element D) : Vector Nat D := Vector.ofFn fun d => (e.segment d).level

/-- Two elements overlap when they share a cell of the finest grid. -/
def Overlaps (e c : Element D) : Prop :=
  e.block = c.block ∧ ∀ d : Fin D, (e.segment d).Overlaps (c.segment d)

instance (e c : Element D) : Decidable (e.Overlaps c) :=
  inferInstanceAs (Decidable (_ ∧ ∀ d : Fin D, (e.segment d).Overlaps (c.segment d)))

/-- The element reaches the boundary of its block across the face. -/
def Touches (e : Element D) (f : Face D) : Prop := (e.segment f.axis).Touches f.side

instance (e : Element D) (f : Face D) : Decidable (e.Touches f) :=
  inferInstanceAs (Decidable ((e.segment f.axis).Touches f.side))

/-- The element across the face could have the same parent: this one is the half that lies on
the other side. -/
def HasPotentialSibling (e : Element D) (f : Face D) : Prop :=
  (e.segment f.axis).sideInParent? = some f.side.opposite

instance (e : Element D) (f : Face D) : Decidable (e.HasPotentialSibling f) :=
  inferInstanceAs (Decidable (_ = _))

instance : ToString (Element D) where
  toString e := s!"[B{e.block}" ++ String.join (e.segments.toList.map fun s => s!",{s}") ++ "]"

/-! ### Order

Elements compare as lists of numbers: the block, then level and index of one segment after another.
Each segment takes up two numbers, so the list can be taken apart again, and elements with one key
are one element. -/

/-- The numbers by which elements are ordered. -/
def key (e : Element D) : List Nat := e.block :: e.segments.toList.flatMap Segment.key

theorem flatMap_key_injective {l m : List Segment}
    (h : l.flatMap Segment.key = m.flatMap Segment.key) : l = m := by
  induction l generalizing m with
  | nil =>
    cases m with
    | nil => rfl
    | cons t m => simp [Segment.key] at h
  | cons s l ih =>
    cases m with
    | nil => simp [Segment.key] at h
    | cons t m =>
      simp only [List.flatMap_cons, Segment.key, List.cons_append, List.nil_append,
        List.cons.injEq] at h
      have hst : s = t := Segment.key_injective (by simp [Segment.key, h.1, h.2.1])
      rw [hst, ih h.2.2]

theorem key_injective {e c : Element D} (h : e.key = c.key) : e = c := by
  obtain ⟨b, s, _⟩ := e
  obtain ⟨b', s', _⟩ := c
  simp only [key, List.cons.injEq] at h
  have hs : s = s' := Vector.toList_inj.1 (flatMap_key_injective h.2)
  simp [h.1, hs]

instance : Ord (Element D) where
  compare := compareOn key

instance : Std.TransOrd (Element D) :=
  inferInstanceAs (Std.TransCmp (compareOn key))

instance : Std.LawfulEqOrd (Element D) where
  eq_of_compare h := key_injective (Std.LawfulEqOrd.eq_of_compare h)

end Element

/-- A set of elements, listed in ascending order. -/
abbrev ElementSet (D : Nat) := Std.ExtTreeSet (Element D)

end AdaptiveMesh
