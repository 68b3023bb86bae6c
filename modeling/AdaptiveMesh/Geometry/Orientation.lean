/-
How the axes of two neighbours correspond.

Two elements on either side of a glued block face may have their axes permuted and
reversed against each other.  An `Orientation` is a signed permutation: it sends
each upper face of this side to a face of the other side, no axis twice.  Because
the axes are finite in number, hitting none twice means hitting all of them, and
that is what makes the inverse total.
-/
import AdaptiveMesh.Geometry.Axis
import AdaptiveMesh.Geometry.Segment
import AdaptiveMesh.Text.Bracketed

namespace AdaptiveMesh

/-- A signed permutation of the axes, given by the images of the upper faces. -/
structure Orientation (D : Nat) where
  /-- The face of the other side that each upper face of this side corresponds to. -/
  images : Vector (Face D) D
  /-- No axis of the other side is taken twice. -/
  axis_injective : ∀ i j : Fin D, (images.get i).axis = (images.get j).axis → i = j
deriving DecidableEq

namespace Orientation

variable {D : Nat}

/-- Why a list of directions is no orientation. -/
inductive Fault where
  /-- A direction names an axis that does not exist. -/
  | axisOutOfRange (axis dimension : Nat)
  /-- Two directions name the same axis. -/
  | axisMappedTwice (axis : Nat)
deriving DecidableEq, Repr

/-- What a rejected list of directions is told. -/
def Fault.message : Fault → String
  | axisOutOfRange axis dimension => s!"axis {axis} out of range for dimension {dimension}"
  | axisMappedTwice axis => s!"axis {axis} mapped twice"

/-- The fault of entry `i`, given that the entries before it have none. -/
def faultAt? (directions : Vector Direction D) (i : Fin D) : Option Fault :=
  if (directions.get i).axis < D then
    if ∃ j : Fin D, j < i ∧ (directions.get j).axis = (directions.get i).axis then
      some (.axisMappedTwice (directions.get i).axis)
    else none
  else some (.axisOutOfRange (directions.get i).axis D)

theorem axis_lt_of_faultAt?_eq_none {directions : Vector Direction D} {i : Fin D}
    (h : faultAt? directions i = none) : (directions.get i).axis < D := by
  unfold faultAt? at h
  split at h
  · assumption
  · contradiction

theorem axis_ne_of_faultAt?_eq_none {directions : Vector Direction D} {i j : Fin D}
    (h : faultAt? directions i = none) (hj : j < i) :
    (directions.get j).axis ≠ (directions.get i).axis := by
  unfold faultAt? at h
  intro heq
  split at h
  · split at h
    · contradiction
    · next hno => exact hno ⟨j, hj, heq⟩
  · contradiction

/-- The orientation that sends the upper face of axis `i` to direction `i`. -/
def ofDirections (directions : Vector Direction D) : Except Fault (Orientation D) :=
  match h : firstFound? (faultAt? directions) with
  | some fault => .error fault
  | none =>
    have ok := firstFound?_eq_none_iff.1 h
    .ok {
      images := Vector.ofFn fun i =>
        ⟨⟨(directions.get i).axis, axis_lt_of_faultAt?_eq_none (ok i)⟩, (directions.get i).side⟩
      axis_injective := fun i j hij => by
        simp only [get_ofFn, Fin.mk.injEq] at hij
        rcases Nat.lt_trichotomy i.val j.val with hlt | heq | hgt
        · exact absurd hij (axis_ne_of_faultAt?_eq_none (ok j) hlt)
        · exact Fin.ext heq
        · exact absurd hij.symm (axis_ne_of_faultAt?_eq_none (ok i) hgt) }

/-- The axes correspond one to one, in the same sense. -/
def aligned : Orientation D where
  images := Vector.ofFn fun i => ⟨i, .upper⟩
  axis_injective := fun i j h => by simpa using h

/-- The axis of the other side that corresponds to an axis of this side. -/
def axis (o : Orientation D) (i : Fin D) : Fin D := (o.images.get i).axis

/-- Whether the corresponding axis runs the other way. -/
def Reverses (o : Orientation D) (i : Fin D) : Prop := (o.images.get i).side = .lower

instance (o : Orientation D) (i : Fin D) : Decidable (o.Reverses i) :=
  inferInstanceAs (Decidable (_ = _))

/-- The face of the other side that corresponds to a face of this side. -/
def mapFace (o : Orientation D) (f : Face D) : Face D :=
  match f.side with
  | .upper => o.images.get f.axis
  | .lower => (o.images.get f.axis).opposite

/-- The axis and segment of the other side that correspond to a segment of this side. -/
def mapSegment (o : Orientation D) (i : Fin D) (s : Segment) : Fin D × Segment :=
  (o.axis i, if o.Reverses i then s.flipped else s)

/-- Every axis of the other side corresponds to some axis, since no two correspond to the same one
and there are as many on either side. -/
theorem exists_axis_eq (o : Orientation D) (t : Fin D) : ∃ i, o.axis i = t := by
  refine Classical.byContradiction fun hno => ?_
  have hnodup : (t :: (List.finRange D).map o.axis).Nodup := by
    refine List.nodup_cons.2 ⟨fun hmem => ?_, ?_⟩
    · obtain ⟨i, -, hi⟩ := List.mem_map.1 hmem
      exact hno ⟨i, hi⟩
    · exact List.pairwise_map.2 ((List.nodup_finRange D).imp
        fun hne heq => hne (o.axis_injective _ _ heq))
  have hle := hnodup.length_le_of_subset fun c _ => List.mem_finRange c
  rw [List.length_cons, List.length_map, List.length_finRange] at hle
  exact Nat.not_succ_le_self D hle

theorem isSome_firstAxis?_axis (o : Orientation D) (t : Fin D) :
    (firstAxis? fun i => o.axis i = t).isSome := by
  obtain ⟨i, hi⟩ := o.exists_axis_eq t
  rw [Option.isSome_iff_ne_none]
  exact fun h => firstAxis?_eq_none_iff.1 h i hi

/-- The axis of this side that corresponds to an axis of the other side. -/
def source (o : Orientation D) (t : Fin D) : Fin D :=
  (firstAxis? fun i => o.axis i = t).get (o.isSome_firstAxis?_axis t)

@[simp] theorem axis_source (o : Orientation D) (t : Fin D) : o.axis (o.source t) = t :=
  (firstAxis?_eq_some_iff.1 (Option.some_get (o.isSome_firstAxis?_axis t)).symm).1

@[simp] theorem source_axis (o : Orientation D) (i : Fin D) : o.source (o.axis i) = i :=
  o.axis_injective _ _ (o.axis_source (o.axis i))

/-- The correspondence read from the other side. -/
def inverse (o : Orientation D) : Orientation D where
  images := Vector.ofFn fun t => ⟨o.source t, (o.images.get (o.source t)).side⟩
  axis_injective := fun t u h => by
    simp only [get_ofFn] at h
    have := congrArg o.axis h
    simpa using this

/-- First `p`, then `o`. -/
def compose (o p : Orientation D) : Orientation D where
  images := Vector.ofFn fun i => o.mapFace (p.images.get i)
  axis_injective := fun i j h => by
    have axis_mapFace : ∀ f : Face D, (o.mapFace f).axis = o.axis f.axis := fun f => by
      unfold mapFace axis
      split <;> rfl
    simp only [get_ofFn, axis_mapFace] at h
    exact p.axis_injective i j (o.axis_injective _ _ h)

/-- One value per axis of this side, arranged by the axes of the other side. -/
def toNeighbor {α : Type} (o : Orientation D) (v : Vector α D) : Vector α D :=
  Vector.ofFn fun t => v.get (o.source t)

/-- One value per axis of the other side, arranged by the axes of this side. -/
def fromNeighbor {α : Type} (o : Orientation D) (v : Vector α D) : Vector α D :=
  Vector.ofFn fun i => v.get (o.axis i)

/-- The images of the upper faces, between brackets. -/
instance : ToString (Orientation D) where
  toString o := "OrientationMap(" ++ bracketed o.images.toList ++ ")"

end Orientation

end AdaptiveMesh
