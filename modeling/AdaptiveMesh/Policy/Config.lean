/-
A validated configuration.

A run reads one configuration and never checks it again: the type carries that the
basis supports the quadrature, that the extent bounds leave a valid extent, and that
no two criteria can contradict each other.
-/
import AdaptiveMesh.Policy.Enforcement

namespace AdaptiveMesh

/-- What a run is configured with. -/
structure Config (D : Nat) where
  /-- The criteria, in the order in which they are asked. -/
  criteria : List (Criterion D)
  /-- What is allowed. -/
  policies : Policies D
  /-- What may be done to elements. -/
  rules : Rules
  /-- New elements can be built. -/
  supported : rules.basis.Supports rules.quadrature
  /-- The extent bounds leave a valid extent along every axis. -/
  fits : policies.limits.misfit? rules.basis rules.quadrature = none
  /-- The criteria cannot contradict each other. -/
  agree : Criterion.clash? criteria policies.isotropy = none
deriving DecidableEq

namespace Config

variable {D : Nat}

/-- The configuration with the given parts.  Basis and quadrature are looked at first, then the
limits, then the criteria. -/
def ofParts (criteria : List (Criterion D)) (policies : Policies D) (rules : Rules) :
    Except (SetupFault D) (Config D) :=
  if supported : rules.basis.Supports rules.quadrature then
    match fits : policies.limits.misfit? rules.basis rules.quadrature with
    | some fault => .error fault
    | none =>
      match agree : Criterion.clash? criteria policies.isotropy with
      | some fault => .error fault
      | none => .ok { criteria, policies, rules, supported, fits, agree }
  else .error (.quadratureUnsupported rules.basis rules.quadrature)

/-- What the criteria propose together for an element. -/
def propose (c : Config D) (e : Element D) (m : Mesh D) : Except (Fault D) (Decision D) :=
  (Decision.combineAll (c.criteria.map fun k => k.propose c.policies.limits e m)).mapError .setup

/-- What the policies leave of a proposal for an element. -/
def enforce (c : Config D) (e : Element D) (m : Mesh D) (flags : Decision D) :
    Except (Fault D) (Decision D) :=
  c.policies.enforce c.rules e m flags

/-- Some criterion looks at the neighbours of an element. -/
def needsNeighbors (c : Config D) : Bool := c.criteria.any Criterion.needsNeighbors

end Config

end AdaptiveMesh
