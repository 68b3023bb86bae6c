/-
What can go wrong.

Every operation that can fail says why with a `Fault`.  A fault holds the values it
is about, so a caller can tell causes apart; the wording is in `Fault.message` alone.
Faults of the set-up are found before a run, faults about one element during it.
-/
import AdaptiveMesh.Element.Family
import AdaptiveMesh.Grid.Mesh

namespace AdaptiveMesh

/-- The kinds of refinement criteria. -/
inductive CriterionKind where
  | increaseResolution
  | driveToTarget
deriving DecidableEq, Repr

/-- The name of a kind of criterion. -/
def CriterionKind.name : CriterionKind → String
  | increaseResolution => "IncreaseResolution"
  | driveToTarget => "DriveToTarget"

/-- The settings that hold one value per axis. -/
inductive Setting where
  | targetExtents
  | targetLevels
  | flagsAtTarget
  | minLevel
  | maxLevel
  | minExtent
  | maxExtent
deriving DecidableEq, Repr

/-- What a setting is called when its length is wrong. -/
def Setting.name : Setting → String
  | targetExtents => "DriveToTarget target_extents"
  | targetLevels => "DriveToTarget target_levels"
  | flagsAtTarget => "DriveToTarget flags_at_target"
  | minLevel => "min_level"
  | maxLevel => "max_level"
  | minExtent => "min_extent"
  | maxExtent => "max_extent"

/-- Why a set-up is inconsistent. -/
inductive SetupFault (D : Nat) where
  /-- The basis does not support the quadrature. -/
  | quadratureUnsupported (basis : Basis) (quadrature : Quadrature)
  /-- A block would start beyond the finest grid. -/
  | initialLevelTooDeep (level block : Nat)
  /-- A block has no face in that direction. -/
  | directionOutOfRange (direction : Direction)
  /-- The face is glued to another block already, or differently. -/
  | faceTaken (face : Face D) (block other : Nat)
  /-- The block across the face does not see the gluing the same way. -/
  | gluingOneSided (face : Face D) (block : Nat)
  /-- A criterion is to look at an axis that does not exist. -/
  | scopeOutOfRange (axis : Nat)
  /-- A criterion is to look at no axis. -/
  | scopeEmpty
  /-- Two proposals cannot be reconciled along an axis. -/
  | proposalsClash (first second : Flag) (axis : Fin D)
  /-- Two criteria may ask for opposite things along an axis. -/
  | criteriaClash (first : Nat) (firstKind : CriterionKind) (second : Nat)
      (secondKind : CriterionKind) (axis : Fin D)
  /-- A criterion of an isotropic run looks at some axes only. -/
  | scopePartial (criterion : Nat) (kind : CriterionKind)
  /-- The target levels of an isotropic run differ. -/
  | targetLevelsDiffer (criterion : Nat) (levels : Vector Nat D)
  /-- An isotropic run would split and join at its target. -/
  | targetSplitsAndJoins (criterion : Nat)
  /-- A target has no grid points along an axis. -/
  | targetExtentZero (axis : Fin D)
  /-- A target lies beyond the finest grid along an axis. -/
  | targetLevelTooDeep (axis : Fin D)
  /-- What to do at the target is left open along an axis. -/
  | targetFlagUndefined (axis : Fin D)
  /-- The level bounds are out of order along an axis. -/
  | levelBoundsInverted (min max : Nat) (axis : Fin D)
  /-- The upper level bound lies beyond the finest grid. -/
  | levelBoundTooDeep (max : Nat) (axis : Fin D)
  /-- The extent bounds are out of order along an axis. -/
  | extentBoundsInverted (min max : Nat) (axis : Fin D)
  /-- The lower extent bound admits no grid points at all. -/
  | extentBoundZero (axis : Fin D)
  /-- The extent bounds leave nothing for the basis and quadrature. -/
  | noValidExtent (min max : Nat) (axis : Fin D) (basis : Basis) (quadrature : Quadrature)
  /-- A list of values per axis has the wrong length. -/
  | wrongLength (setting : Setting) (entries : Nat)
deriving DecidableEq

/-- What an inconsistent set-up is told. -/
def SetupFault.message {D : Nat} : SetupFault D → String
  | quadratureUnsupported b q => s!"{q.name} quadrature is not defined for the {b.name} basis"
  | initialLevelTooDeep level block =>
    s!"initial refinement level {level} of block {block} exceeds {AdaptiveMesh.maxLevel}"
  | directionOutOfRange direction => s!"direction {direction} out of range for dimension {D}"
  | faceTaken face block other =>
    s!"face {face} of block {block} is already connected to block {other}"
  | gluingOneSided face block => s!"connection of block {block} through {face} is not symmetric"
  | scopeOutOfRange axis => s!"criterion dimension {axis} out of range for dimension {D}"
  | scopeEmpty => "criterion must opine on at least one dimension"
  | proposalsClash first second axis =>
    s!"criteria proposed {first.name} and {second.name} in dimension {axis.val}"
  | criteriaClash i k j l axis =>
    s!"criteria #{i} ({k.name}) and #{j} ({l.name}) may request opposite refinement in "
      ++ s!"dimension {axis.val}"
  | scopePartial i k =>
    s!"criterion #{i} ({k.name}) opines on a subset of dimensions under isotropic refinement"
  | targetLevelsDiffer i levels =>
    s!"criterion #{i} (DriveToTarget) has anisotropic target levels {bracketed levels.toList} "
      ++ "under isotropic refinement"
  | targetSplitsAndJoins i =>
    s!"criterion #{i} (DriveToTarget) splits and joins at its target under isotropic refinement"
  | targetExtentZero axis =>
    s!"DriveToTarget target extent in dimension {axis.val} must be positive"
  | targetLevelTooDeep axis =>
    s!"DriveToTarget target level in dimension {axis.val} exceeds {AdaptiveMesh.maxLevel}"
  | targetFlagUndefined axis =>
    s!"DriveToTarget flag at target in dimension {axis.val} must be defined"
  | levelBoundsInverted min max axis =>
    s!"minimum refinement level {min} exceeds maximum {max} in dimension {axis.val}"
  | levelBoundTooDeep max axis =>
    s!"maximum refinement level {max} in dimension {axis.val} exceeds {AdaptiveMesh.maxLevel}"
  | extentBoundsInverted min max axis =>
    s!"minimum resolution {min} exceeds maximum {max} in dimension {axis.val}"
  | extentBoundZero axis => s!"minimum resolution in dimension {axis.val} must be positive"
  | noValidExtent min max axis b q =>
    s!"resolution limits [{min}, {max}] in dimension {axis.val} admit no valid extent for "
      ++ s!"{b.name}/{q.name} (valid range [{q.minimumExtent}, {b.maximumExtent}])"
  | wrongLength setting entries => s!"{setting.name} has {entries} entries, expected {D}"

/-- Why something names no element, or none that fits. -/
inductive ElementFault (D : Nat) where
  /-- A segment does not exist. -/
  | segment (cause : Segment.Fault)
  /-- Elements extend along at least one axis. -/
  | noAxes
  /-- The element has no such children or parent. -/
  | family (cause : Element.FamilyFault D)
  /-- A split lists no children. -/
  | noChildren (element : Element D)
  /-- A split lists other elements than the children. -/
  | notTheChildren (given : List (Element D)) (element : Element D)
  /-- A join would create an element that is there already. -/
  | alreadyPresent (element : Element D)
  /-- Two elements of a forest share volume. -/
  | overlap (first second : Element D)
deriving DecidableEq

/-- What is said of such an element. -/
def ElementFault.message {D : Nat} : ElementFault D → String
  | segment cause => cause.message
  | noAxes => "elements need at least one dimension"
  | family cause => cause.message
  | noChildren e => s!"split of {e} without children"
  | notTheChildren given e => s!"{bracketed given} are not the children of {e}"
  | alreadyPresent e => s!"{e} already exists"
  | overlap e c => s!"{e} overlaps {c}"

/-- Why an orientation is not one, or is not the one recorded elsewhere. -/
inductive OrientationFault (D : Nat) where
  /-- The directions are no signed permutation. -/
  | directions (cause : Orientation.Fault)
  /-- A neighbour does not list the element that lists it. -/
  | notListed (neighbor element : Element D) (face : Face D)
  /-- Two neighbours do not see each other through inverse orientations. -/
  | notInverse (element neighbor : Element D)
deriving DecidableEq

/-- What is said of such an orientation. -/
def OrientationFault.message {D : Nat} : OrientationFault D → String
  | directions cause => cause.message
  | notListed n e f => s!"{n} does not list {e} as a neighbor through {f}"
  | notInverse e n => s!"orientation between {e} and {n} is not mutually inverse"

/-- The bounds that a refinement request can cross. -/
inductive Bound where
  | minLevel
  | maxLevel
  | minExtent
  | maxExtent
deriving DecidableEq, Repr

/-- What a bound is called. -/
def Bound.name : Bound → String
  | minLevel => "minimum refinement level"
  | maxLevel => "maximum refinement level"
  | minExtent => "minimum resolution"
  | maxExtent => "maximum resolution"

/-- Why a split or join cannot produce valid elements. -/
inductive TopologyFault where
  /-- Only resolution changes are allowed. -/
  | resolutionOnly
  /-- An unrefined element has nothing to join with. -/
  | joinAtRoot
  /-- The new elements would have too few grid points. -/
  | extentBelowMinimum (extent minimum : Nat)
  /-- Some sibling does not take part in a join. -/
  | incompleteSiblings
deriving DecidableEq, Repr

/-- What is said of such a split or join. -/
def TopologyFault.message : TopologyFault → String
  | resolutionOnly => "requested h-refinement but only p-refinement is supported"
  | joinAtRoot => "cannot join an element at level 0"
  | extentBelowMinimum extent minimum =>
    s!"extent {extent} is below the minimum of {minimum} for the basis and quadrature"
  | incompleteSiblings => "not every sibling takes part in the join"

/-- Why an operation failed. -/
inductive Fault (D : Nat) where
  /-- The set-up is inconsistent. -/
  | setup (cause : SetupFault D)
  /-- A flag would push a level or an extent past a bound. -/
  | limitCrossed (element : Element D) (axis : Fin D) (bound : Bound) (requested allowed : Nat)
  /-- A split or join would produce invalid elements. -/
  | topology (element : Element D) (axis : Fin D) (cause : TopologyFault)
  /-- An isotropic element is to split along one axis and join along another. -/
  | isotropyConflict (element : Element D) (first second : Fin D)
  /-- A mesh has too few grid points. -/
  | invalidExtent (axis : Fin D) (extent minimum : Nat)
  /-- Something names no element, or none that fits. -/
  | invalidElement (cause : ElementFault D)
  /-- Something is no orientation, or not the right one. -/
  | invalidOrientation (cause : OrientationFault D)
  /-- Nothing is stored for the element. -/
  | unknownElement (element : Element D)
  /-- One element is not a neighbour of the other. -/
  | notANeighbor (other element : Element D)
  /-- A neighbour is listed in a direction in which the element has no face.  The comparison with it
  breaks off, and nobody is told. -/
  | brokenOff (neighbor element : Element D)
  /-- The layout has no such block. -/
  | unknownBlock (block : Nat)
  /-- Neighbours kept changing each other's decisions. -/
  | unsettled (passes : Nat)
deriving DecidableEq

namespace Fault

variable {D : Nat}

/-- What the caller is told. -/
def message : Fault D → String
  | setup cause => "Invalid AMR configuration: " ++ cause.message
  | limitCrossed e d bound requested allowed =>
    s!"Tried refining beyond the AMR limits in element {e}, dimension {d.val}: "
      ++ s!"requested {bound.name} {requested}, allowed bound {allowed}"
  | topology e d cause =>
    s!"Invalid h-refinement in element {e}, dimension {d.val}: " ++ cause.message
  | isotropyConflict e first second =>
    s!"Isotropic refinement of element {e} requested opposite directions in "
      ++ s!"dimensions {first.val} and {second.val}"
  | invalidExtent d extent minimum =>
    s!"Invalid extent {extent} in dimension {d.val}: minimum is {minimum}"
  | invalidElement cause => "Invalid element id: " ++ cause.message
  | invalidOrientation cause => "Invalid orientation map: " ++ cause.message
  | unknownElement e => s!"Unknown element {e}"
  | notANeighbor c e => s!"Unknown element {c} is not a neighbor of {e}"
  | brokenOff c e => s!"{c} is listed where {e} has no face"
  | unknownBlock block => s!"Unknown block {block}"
  | unsettled passes => s!"Refinement decisions did not settle after {passes} balancing passes"

/-- The element that a fault is about, as text. -/
def subject? : Fault D → Option String
  | limitCrossed e .. | topology e .. | isotropyConflict e .. | unknownElement e =>
    some (toString e)
  | notANeighbor c e => some s!"{c} is not a neighbor of {e}"
  | _ => none

/-- The axis that a fault is about; of two, the first. -/
def axis? : Fault D → Option (Fin D)
  | limitCrossed _ d .. | topology _ d _ | invalidExtent d .. | isotropyConflict _ d _ => some d
  | _ => none

/-- A mesh at fault, as a fault of the set-up or of one extent. -/
def ofMesh : Mesh.Fault D → Fault D
  | .unsupported b q => setup (.quadratureUnsupported b q)
  | .tooFewPoints d extent minimum => invalidExtent d extent minimum

/-- Missing relatives, as a fault of the element. -/
def ofFamily (cause : Element.FamilyFault D) : Fault D := invalidElement (.family cause)

end Fault

end AdaptiveMesh
