/-
Putting the proposals of several criteria together.

Along one axis a split or join overrides a change of resolution, and that overrides
staying; having no opinion gives way to everything.  Requests of the same strength
that pull in opposite ways cannot be combined.  Whether that can ever happen is
decidable from the criteria alone, and such sets of criteria are refused up front.
-/
import AdaptiveMesh.Criterion.Basic

namespace AdaptiveMesh

/-- Whether all axes of an element must do the same. -/
inductive Isotropy where
  /-- All axes do the same. -/
  | isotropic
  /-- Every axis goes its own way. -/
  | anisotropic
deriving DecidableEq, Repr

namespace Flag

/-- Two flags for the same axis as one, or nothing if they pull in opposite ways. -/
def combine? (a b : Flag) : Option Flag :=
  if a = .undefined then some b
  else if b = .undefined then some a
  else if a = b then some a
  else if a.IsTopological ∧ b.IsTopological then none
  else if a.IsTopological then some a
  else if b.IsTopological then some b
  else if a = .doNothing then some b
  else if b = .doNothing then some a
  else none

end Flag

namespace Decision

variable {D : Nat}

/-- The axis and flags that keep two decisions from being combined. -/
def clash? (a b : Decision D) : Option (SetupFault D) :=
  firstFound? fun d =>
    match (a.get d).combine? (b.get d) with
    | some _ => none
    | none => some (.proposalsClash (a.get d) (b.get d) d)

/-- Two decisions as one. -/
def combine (a b : Decision D) : Except (SetupFault D) (Decision D) :=
  match a.clash? b with
  | some fault => .error fault
  | none => .ok (Vector.ofFn fun d => ((a.get d).combine? (b.get d)).getD (a.get d))

/-- Several decisions as one, put together from the first to the last. -/
def combineAll (proposals : List (Decision D)) : Except (SetupFault D) (Decision D) :=
  proposals.foldlM combine .undecided

end Decision

namespace Criterion

variable {D : Nat}

/-- The first pair of criteria, with the first axis, that may ask for opposite things. -/
def opposed? (criteria : List (Criterion D)) : Option (SetupFault D) :=
  criteria.zipIdx.findSome? fun (a, i) =>
    (criteria.zipIdx.drop (i + 1)).findSome? fun (b, j) =>
      firstFound? fun d =>
        if FlagSet.Conflicts (a.possible d) (b.possible d) then
          some (.criteriaClash i a.kind j b.kind d)
        else none

/-- What makes a target unfit for an isotropic run: levels that differ, or splitting along one axis
and joining along another once it is reached. -/
def unevenTarget? (i : Nat) (t : Target D) : Option (SetupFault D) :=
  if ∃ c d : Fin D, t.levels.get c ≠ t.levels.get d then some (.targetLevelsDiffer i t.levels)
  else if t.flags.Has .split ∧ t.flags.Has .join then some (.targetSplitsAndJoins i)
  else none

/-- The first criterion that is unfit for an isotropic run. -/
def anisotropic? (criteria : List (Criterion D)) : Option (SetupFault D) :=
  criteria.zipIdx.findSome? fun (c, i) =>
    if c.scope.IsAll then
      match c with
      | increaseResolution _ => none
      | driveToTarget t => unevenTarget? i t
    else some (.scopePartial i c.kind)

/-- Why criteria cannot work together. -/
def clash? (criteria : List (Criterion D)) (isotropy : Isotropy) : Option (SetupFault D) :=
  (opposed? criteria).or
    (match isotropy with
      | .isotropic => anisotropic? criteria
      | .anisotropic => none)

end Criterion

end AdaptiveMesh
