/-
Meshes.

A mesh says how many grid points an element has along each axis and how they are
distributed.  The type carries what makes a mesh meaningful: along every axis the
basis supports the quadrature, and there are enough points for it.
-/
import AdaptiveMesh.Geometry.Orientation
import AdaptiveMesh.Grid.Basis
import AdaptiveMesh.Text.Bracketed

namespace AdaptiveMesh

/-- The grid points of an element. -/
structure Mesh (D : Nat) where
  /-- The number of points along each axis. -/
  extents : Vector Nat D
  /-- The basis along each axis. -/
  basis : Vector Basis D
  /-- The quadrature along each axis. -/
  quadrature : Vector Quadrature D
  /-- Every basis supports its quadrature. -/
  supported : ∀ d : Fin D, (basis.get d).Supports (quadrature.get d)
  /-- There are enough points for every quadrature. -/
  minimum_le : ∀ d : Fin D, (quadrature.get d).minimumExtent ≤ extents.get d
deriving DecidableEq

namespace Mesh

variable {D : Nat}

/-- Why extents, bases and quadratures make no mesh. -/
inductive Fault (D : Nat) where
  /-- The basis does not support the quadrature. -/
  | unsupported (basis : Basis) (quadrature : Quadrature)
  /-- The quadrature needs more points. -/
  | tooFewPoints (axis : Fin D) (extent minimum : Nat)
deriving DecidableEq, Repr

/-- The fault along one axis. -/
def faultAt? (extents : Vector Nat D) (basis : Vector Basis D) (quadrature : Vector Quadrature D)
    (d : Fin D) : Option (Fault D) :=
  if (basis.get d).Supports (quadrature.get d) then
    if (quadrature.get d).minimumExtent ≤ extents.get d then none
    else some (.tooFewPoints d (extents.get d) (quadrature.get d).minimumExtent)
  else some (.unsupported (basis.get d) (quadrature.get d))

theorem faultAt?_eq_none_iff {extents : Vector Nat D} {basis : Vector Basis D}
    {quadrature : Vector Quadrature D} {d : Fin D} :
    faultAt? extents basis quadrature d = none ↔
      (basis.get d).Supports (quadrature.get d) ∧
        (quadrature.get d).minimumExtent ≤ extents.get d := by
  unfold faultAt?
  split
  · next h => split <;> simp_all
  · next h => exact iff_of_false (by simp) fun hc => h hc.1

/-- The mesh with the given extents, bases and quadratures; the first axis at fault is reported. -/
def ofExtents (extents : Vector Nat D) (basis : Vector Basis D)
    (quadrature : Vector Quadrature D) : Except (Fault D) (Mesh D) :=
  match h : firstFound? (faultAt? extents basis quadrature) with
  | some fault => .error fault
  | none =>
    have ok := firstFound?_eq_none_iff.1 h
    .ok {
      extents, basis, quadrature
      supported := fun d => (faultAt?_eq_none_iff.1 (ok d)).1
      minimum_le := fun d => (faultAt?_eq_none_iff.1 (ok d)).2 }

/-- The mesh with one basis and one quadrature along every axis. -/
def uniform (extents : Vector Nat D) (basis : Basis) (quadrature : Quadrature) :
    Except (Fault D) (Mesh D) :=
  ofExtents extents (Vector.replicate D basis) (Vector.replicate D quadrature)

/-- The same mesh with other extents. -/
def withExtents (m : Mesh D) (extents : Vector Nat D) : Except (Fault D) (Mesh D) :=
  ofExtents extents m.basis m.quadrature

/-- The number of grid points. -/
def points (m : Mesh D) : Nat := m.extents.toList.foldl (· * ·) 1

/-- The smallest extent along an axis. -/
def minimumExtent (m : Mesh D) (d : Fin D) : Nat := (m.quadrature.get d).minimumExtent

/-- The largest extent along an axis. -/
def maximumExtent (m : Mesh D) (d : Fin D) : Nat := (m.basis.get d).maximumExtent

/-- The mesh as a neighbour sees it, its axes arranged as the neighbour's. -/
def oriented (m : Mesh D) (o : Orientation D) : Mesh D where
  extents := o.toNeighbor m.extents
  basis := o.toNeighbor m.basis
  quadrature := o.toNeighbor m.quadrature
  supported := fun t => by
    simpa [Orientation.toNeighbor] using m.supported (o.source t)
  minimum_le := fun t => by
    simpa [Orientation.toNeighbor] using m.minimum_le (o.source t)

end Mesh

instance {D : Nat} : ToString (Mesh D) where
  toString m := "Mesh" ++ bracketed m.extents.toList

end AdaptiveMesh
