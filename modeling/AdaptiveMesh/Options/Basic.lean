/-
Options.

Options say how a run is to be configured before anyone has checked them, and before
the dimension is known: what holds one value per axis is a list of any length here.
`Options.config` checks them for a dimension and yields the configuration that runs
work with.  Of several things that are wrong, the criteria are told first, then the
limits, then what does not fit together.
-/
import AdaptiveMesh.Policy.Config

namespace AdaptiveMesh

/-- The values given for a setting, one for each axis. -/
def vectorOf {α : Type} {D : Nat} (setting : Setting) (values : List α) :
    Except (SetupFault D) (Vector α D) :=
  if h : values.length = D then .ok ⟨values.toArray, by simpa using h⟩
  else .error (.wrongLength setting values.length)

/-- A value given once for all axes, or once for each. -/
inductive PerAxis (α : Type) where
  /-- The same value for every axis. -/
  | uniform (value : α)
  /-- One value for each axis. -/
  | each (values : List α)
deriving DecidableEq

/-- The values for all axes. -/
def PerAxis.spread {α β : Type} {D : Nat} (p : PerAxis α) (setting : Setting) (f : α → β) :
    Except (SetupFault D) (Vector β D) :=
  match p with
  | uniform value => .ok (Vector.replicate D (f value))
  | each values => vectorOf setting (values.map f)

/-- A criterion to be built; without axes it looks at all of them. -/
inductive CriterionOptions where
  /-- Adds grid points along these axes. -/
  | increaseResolution (axes : Option (List UInt64))
  /-- Steers towards these extents and levels; without flags everything stays at the target. -/
  | driveToTarget (extents : List UInt64) (levels : List UInt8) (flags : Option (List Flag))
      (axes : Option (List UInt64))
deriving DecidableEq

namespace CriterionOptions

variable {D : Nat}

/-- The scope with the given axes. -/
def scope (axes : Option (List UInt64)) : Except (SetupFault D) (Scope D) :=
  match axes with
  | none => .ok .all
  | some axes => Scope.only (axes.map UInt64.toNat)

/-- The criterion, for a dimension. -/
def criterion : CriterionOptions → Except (SetupFault D) (Criterion D)
  | increaseResolution axes => do return .increaseResolution (← scope axes)
  | driveToTarget extents levels flags axes => do
    let extents ← vectorOf .targetExtents (extents.map UInt64.toNat)
    let levels ← vectorOf .targetLevels (levels.map UInt8.toNat)
    let flags ← match flags with
      | none => pure (Decision.uniform .doNothing)
      | some flags => vectorOf .flagsAtTarget flags
    let scope ← scope axes
    return .driveToTarget (← Target.ofValues extents levels flags scope)

end CriterionOptions

/-- Limits to be built. -/
structure LimitsOptions where
  /-- The lowest level. -/
  minLevel : PerAxis UInt8 := .uniform 0
  /-- The highest level. -/
  maxLevel : PerAxis UInt8 := .uniform 16
  /-- The smallest extent. -/
  minExtent : PerAxis UInt64 := .uniform 1
  /-- The largest extent; without it only the basis bounds extents from above. -/
  maxExtent : Option (PerAxis UInt64) := none
deriving DecidableEq

/-- The limits, for a dimension. -/
def LimitsOptions.limits {D : Nat} (o : LimitsOptions) : Except (SetupFault D) (Limits D) := do
  let maxExtent ← match o.maxExtent with
    | none => pure (Vector.replicate D unbounded)
    | some extent => extent.spread .maxExtent UInt64.toNat
  let minLevel ← o.minLevel.spread .minLevel UInt8.toNat
  let maxLevel ← o.maxLevel.spread .maxLevel UInt8.toNat
  let minExtent ← o.minExtent.spread .minExtent UInt64.toNat
  Limits.ofBounds minLevel maxLevel minExtent maxExtent

/-- Policies to be built. -/
structure PolicyOptions where
  /-- Whether all axes of an element do the same. -/
  isotropy : Isotropy := .anisotropic
  /-- The bounds on levels and extents. -/
  limits : LimitsOptions := {}
  /-- Whether crossing a limit is a fault. -/
  strict : Bool := false
  /-- Whether neighbours are balanced along the axis normal to their shared face too. -/
  balanceNormal : Bool := true
deriving DecidableEq

/-- The policies, for a dimension. -/
def PolicyOptions.policies {D : Nat} (o : PolicyOptions) :
    Except (SetupFault D) (Policies D) := do
  return {
    isotropy := o.isotropy
    limits := ← o.limits.limits
    strict := o.strict
    balanceNormal := o.balanceNormal }

/-- Everything that configures a run. -/
structure Options where
  /-- The criteria, in the order in which they are asked. -/
  criteria : List CriterionOptions
  /-- What is allowed. -/
  policies : PolicyOptions := {}
  /-- The kinds of refinement. -/
  mode : RefinementMode := .full
  /-- The basis of new elements. -/
  basis : Basis := .legendre
  /-- The quadrature of new elements. -/
  quadrature : Quadrature := .gaussLobatto
deriving DecidableEq

namespace Options

variable {D : Nat}

/-- What may be done to elements. -/
def rules (o : Options) : Rules := ⟨o.mode, o.basis, o.quadrature⟩

/-- The configuration, for a dimension. -/
def config (o : Options) : Except (SetupFault D) (Config D) := do
  let criteria ← o.criteria.mapM CriterionOptions.criterion
  Config.ofParts criteria (← o.policies.policies) o.rules

end Options

end AdaptiveMesh
