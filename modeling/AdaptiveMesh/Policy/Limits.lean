/-
Bounds on levels and extents.

Limits hold, for each axis, the levels between which elements may refine and the
extents between which their meshes may grow and shrink.  The type carries that the
bounds are in order and that they leave at least one level and one extent.
-/
import AdaptiveMesh.Fault

namespace AdaptiveMesh

/-- Bounds on the refinement levels and extents along each axis. -/
structure Limits (D : Nat) where
  /-- The lowest level. -/
  minLevel : Vector Nat D
  /-- The highest level. -/
  maxLevel : Vector Nat D
  /-- The smallest extent. -/
  minExtent : Vector Nat D
  /-- The largest extent. -/
  maxExtent : Vector Nat D
  /-- The level bounds are in order. -/
  minLevel_le : ∀ d : Fin D, minLevel.get d ≤ maxLevel.get d
  /-- No level lies beyond the finest grid. -/
  maxLevel_le : ∀ d : Fin D, maxLevel.get d ≤ AdaptiveMesh.maxLevel
  /-- The extent bounds are in order. -/
  minExtent_le : ∀ d : Fin D, minExtent.get d ≤ maxExtent.get d
  /-- An extent has at least one grid point. -/
  minExtent_pos : ∀ d : Fin D, 0 < minExtent.get d

namespace Limits

variable {D : Nat}

instance : DecidableEq (Limits D) := fun l k =>
  decidable_of_iff (l.minLevel = k.minLevel ∧ l.maxLevel = k.maxLevel ∧
      l.minExtent = k.minExtent ∧ l.maxExtent = k.maxExtent) (by
    cases l
    cases k
    simp only [mk.injEq])

/-- The fault of the bounds along one axis; the level bounds are looked at first. -/
def faultAt? (minLevel maxLevel minExtent maxExtent : Vector Nat D) (d : Fin D) :
    Option (SetupFault D) :=
  if maxLevel.get d < minLevel.get d then
    some (.levelBoundsInverted (minLevel.get d) (maxLevel.get d) d)
  else if AdaptiveMesh.maxLevel < maxLevel.get d then
    some (.levelBoundTooDeep (maxLevel.get d) d)
  else if maxExtent.get d < minExtent.get d then
    some (.extentBoundsInverted (minExtent.get d) (maxExtent.get d) d)
  else if minExtent.get d = 0 then some (.extentBoundZero d)
  else none

theorem bounds_of_faultAt?_eq_none {minLevel maxLevel minExtent maxExtent : Vector Nat D}
    {d : Fin D} (h : faultAt? minLevel maxLevel minExtent maxExtent d = none) :
    minLevel.get d ≤ maxLevel.get d ∧ maxLevel.get d ≤ AdaptiveMesh.maxLevel ∧
      minExtent.get d ≤ maxExtent.get d ∧ 0 < minExtent.get d := by
  unfold faultAt? at h
  repeat' split at h
  all_goals first | contradiction | omega

/-- The limits with the given bounds; the first axis at fault is reported. -/
def ofBounds (minLevel maxLevel minExtent maxExtent : Vector Nat D) :
    Except (SetupFault D) (Limits D) :=
  match h : firstFound? (faultAt? minLevel maxLevel minExtent maxExtent) with
  | some fault => .error fault
  | none =>
    have ok := fun d => bounds_of_faultAt?_eq_none (firstFound?_eq_none_iff.1 h d)
    .ok {
      minLevel, maxLevel, minExtent, maxExtent
      minLevel_le := fun d => (ok d).1
      maxLevel_le := fun d => (ok d).2.1
      minExtent_le := fun d => (ok d).2.2.1
      minExtent_pos := fun d => (ok d).2.2.2 }

/-- The limits with the same bounds along every axis. -/
def uniform (minLevel maxLevel minExtent maxExtent : Nat) : Except (SetupFault D) (Limits D) :=
  ofBounds (Vector.replicate D minLevel) (Vector.replicate D maxLevel)
    (Vector.replicate D minExtent) (Vector.replicate D maxExtent)

/-- The limits that only the finest grid and the basis set. -/
def loosest : Limits D where
  minLevel := Vector.replicate D 0
  maxLevel := Vector.replicate D AdaptiveMesh.maxLevel
  minExtent := Vector.replicate D 1
  maxExtent := Vector.replicate D unbounded
  minLevel_le := by simp
  maxLevel_le := by simp
  minExtent_le := by simp [unbounded]
  minExtent_pos := by simp

/-- The extent bounds along an axis that leave no valid extent for a basis and quadrature. -/
def misfit? (l : Limits D) (basis : Basis) (quadrature : Quadrature) : Option (SetupFault D) :=
  firstFound? fun d =>
    if l.maxExtent.get d < quadrature.minimumExtent ∨ basis.maximumExtent < l.minExtent.get d then
      some (.noValidExtent (l.minExtent.get d) (l.maxExtent.get d) d basis quadrature)
    else none

end Limits

end AdaptiveMesh
