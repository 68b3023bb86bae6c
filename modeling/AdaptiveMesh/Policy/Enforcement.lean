/-
Policies and how they are enforced.

Criteria propose freely; policies say what is allowed.  Enforcement closes open
decisions, makes all axes agree if the run is isotropic, refuses splits and joins
that cannot produce valid elements, holds every axis within the limits, and in the
end drops the joins of an element that splits.  A flag that crosses a limit is a
fault in a strict run; in a lenient one the axis stays as it is instead.
-/
import AdaptiveMesh.Criterion.Combination

namespace AdaptiveMesh

/-- The kinds of refinement that a run may carry out. -/
inductive RefinementMode where
  /-- Only changes of resolution. -/
  | resolutionOnly
  /-- Changes of resolution, splits and joins. -/
  | full
deriving DecidableEq, Repr

/-- What may be done to elements, and what new ones are built with. -/
structure Rules where
  /-- The kinds of refinement. -/
  mode : RefinementMode
  /-- The basis of new elements. -/
  basis : Basis
  /-- The quadrature of new elements. -/
  quadrature : Quadrature
deriving DecidableEq

/-- What is allowed throughout a run. -/
structure Policies (D : Nat) where
  /-- Whether all axes of an element do the same. -/
  isotropy : Isotropy := .anisotropic
  /-- The bounds on levels and extents. -/
  limits : Limits D := .loosest
  /-- Whether crossing a limit is a fault. -/
  strict : Bool := false
  /-- Whether neighbours are balanced along the axis normal to their shared face too. -/
  balanceNormal : Bool := true
deriving DecidableEq

/-! ### Isotropy -/

namespace Decision

variable {D : Nat}

/-- The strongest flag along every axis; a split and a join cannot be reconciled. -/
def unify (flags : Decision D) (e : Element D) : Except (Fault D) (Decision D) :=
  match flags.firstAxis? .split, flags.firstAxis? .join with
  | some s, some j =>
    if s ≤ j then .error (.isotropyConflict e s j) else .error (.isotropyConflict e j s)
  | _, _ => .ok (.uniform flags.strongest)

end Decision

/-! ### Topology -/

namespace Rules

variable {D : Nat}

/-- Why an element cannot split or join along an axis that says so. -/
def topologyFaultAt? (r : Rules) (e : Element D) (m : Mesh D) (flags : Decision D) (d : Fin D) :
    Option TopologyFault :=
  if ¬ (flags.get d).IsTopological then none
  else if r.mode = .resolutionOnly then some .resolutionOnly
  else if flags.get d = .join ∧ (e.segment d).level = 0 then some .joinAtRoot
  else if m.extents.get d < r.quadrature.minimumExtent then
    some (.extentBelowMinimum (m.extents.get d) r.quadrature.minimumExtent)
  else none

/-- The first axis along which an element cannot split or join as it says. -/
def topologyFault? (r : Rules) (e : Element D) (m : Mesh D) (flags : Decision D) :
    Option (Fault D) :=
  firstFound? fun d => (r.topologyFaultAt? e m flags d).map (.topology e d)

end Rules

/-! ### Limits

A step is allowed if there is room for it, and to say so without subtracting, one is added to the
level, the extent or the bound.  Levels are small enough for that.  An extent or its bound may be
the largest number there is, so how extents are counted up is a parameter, and a run counts them as
machine words do. -/

/-- A request that goes past a bound. -/
structure Crossing where
  /-- The bound. -/
  bound : Bound
  /-- What was requested. -/
  requested : Nat
  /-- What the bound allows. -/
  allowed : Nat
deriving DecidableEq, Repr

namespace Limits

variable {D : Nat}

/-- The bound that a flag crosses along an axis, with extents counted up by `next`.  The basis and
quadrature of the mesh bound its extent as well. -/
def crossingBy? (next : Nat → Nat) (l : Limits D) (e : Element D) (m : Mesh D) (d : Fin D) :
    Flag → Option Crossing
  | .split =>
    if l.maxLevel.get d < (e.segment d).level + 1 then
      some ⟨.maxLevel, (e.segment d).level + 1, l.maxLevel.get d⟩
    else none
  | .join =>
    if (e.segment d).level < l.minLevel.get d + 1 then
      some ⟨.minLevel, (e.segment d).level - 1, l.minLevel.get d⟩
    else none
  | .increaseResolution =>
    let allowed := min (l.maxExtent.get d) (m.maximumExtent d)
    if allowed < next (m.extents.get d) then some ⟨.maxExtent, next (m.extents.get d), allowed⟩
    else none
  | .decreaseResolution =>
    let allowed := max (l.minExtent.get d) (m.minimumExtent d)
    if m.extents.get d < next allowed then some ⟨.minExtent, m.extents.get d - 1, allowed⟩ else none
  | .doNothing | .undefined => none

/-- The bound that a run finds a flag to cross.  The run counts as machine words do, so from a
smallest extent after which there is no other it takes any step down to be allowed. -/
def crossing? (l : Limits D) (e : Element D) (m : Mesh D) (d : Fin D) (flag : Flag) :
    Option Crossing :=
  l.crossingBy? nextExtent e m d flag

end Limits

namespace Policies

variable {D : Nat}

/-- The decision held within the limits.  A crossing is a fault in a strict run; otherwise the axis
that crosses stays, and with it every axis if the run is isotropic. -/
def hold (p : Policies D) (e : Element D) (m : Mesh D) (flags : Decision D) :
    Except (Fault D) (Decision D) :=
  match firstFound? fun d => (p.limits.crossing? e m d (flags.get d)).map (d, ·) with
  | none => .ok flags
  | some (d, c) =>
    if p.strict then .error (.limitCrossed e d c.bound c.requested c.allowed)
    else match p.isotropy with
      | .isotropic => .ok (.uniform .doNothing)
      | .anisotropic => .ok (Vector.ofFn fun a =>
          if (p.limits.crossing? e m a (flags.get a)).isSome then .doNothing else flags.get a)

/-- The decision that policies and rules leave of a proposal. -/
def enforce (p : Policies D) (r : Rules) (e : Element D) (m : Mesh D) (flags : Decision D) :
    Except (Fault D) (Decision D) := do
  let agreed ← match p.isotropy with
    | .isotropic => flags.resolve.unify e
    | .anisotropic => pure flags.resolve
  match r.topologyFault? e m agreed with
  | some fault => throw fault
  | none => return (← p.hold e m agreed).dropJoinsBesideSplit

end Policies

end AdaptiveMesh
