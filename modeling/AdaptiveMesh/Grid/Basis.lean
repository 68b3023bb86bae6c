/-
Bases and quadratures.

A basis says what functions live on an element along one axis, a quadrature where
the grid points sit.  Together they bound the extent, which is the number of points:
from below by what the point distribution needs, from above by what the basis can
carry.  An extent with no upper bound is bounded by the largest countable one.
-/

namespace AdaptiveMesh

/-- The largest extent that can be counted, which stands for no bound at all. -/
def unbounded : Nat := 18446744073709551615

/-- The next extent, as machine words count: after the largest one comes zero. -/
def nextExtent (extent : Nat) : Nat := if unbounded ≤ extent then 0 else extent + 1

theorem nextExtent_of_lt {extent : Nat} (h : extent < unbounded) :
    nextExtent extent = extent + 1 :=
  if_neg (Nat.not_le.2 h)

theorem nextExtent_of_le {extent : Nat} (h : unbounded ≤ extent) : nextExtent extent = 0 :=
  if_pos h

/-- A family of functions along one axis. -/
inductive Basis where
  | legendre
  | chebyshev
  | finiteDifference
deriving DecidableEq, Repr

/-- A distribution of grid points along one axis. -/
inductive Quadrature where
  | gauss
  | gaussLobatto
  | cellCentered
  | faceCentered
deriving DecidableEq, Repr

namespace Basis

/-- The basis' name. -/
def name : Basis → String
  | legendre => "Legendre"
  | chebyshev => "Chebyshev"
  | finiteDifference => "FiniteDifference"

/-- All bases. -/
def all : List Basis := [legendre, chebyshev, finiteDifference]

@[simp] theorem mem_all (b : Basis) : b ∈ all := by
  cases b <;> simp [all]

/-- The basis with a name. -/
def ofName? (s : String) : Option Basis := all.find? fun b => b.name = s

/-- Spectral bases live on Gauss points, finite differences on cells. -/
def Supports : Basis → Quadrature → Prop
  | legendre, q | chebyshev, q => q = .gauss ∨ q = .gaussLobatto
  | finiteDifference, q => q = .cellCentered ∨ q = .faceCentered

instance (b : Basis) (q : Quadrature) : Decidable (b.Supports q) := by
  cases b <;> exact inferInstanceAs (Decidable (_ ∨ _))

/-- The largest extent of a spectral basis; finite differences have none. -/
def maximumPoints? : Basis → Option Nat
  | legendre | chebyshev => some 20
  | finiteDifference => none

/-- The largest extent of the basis. -/
def maximumExtent (b : Basis) : Nat := b.maximumPoints?.getD unbounded

end Basis

namespace Quadrature

/-- The quadrature's name. -/
def name : Quadrature → String
  | gauss => "Gauss"
  | gaussLobatto => "GaussLobatto"
  | cellCentered => "CellCentered"
  | faceCentered => "FaceCentered"

/-- All quadratures. -/
def all : List Quadrature := [gauss, gaussLobatto, cellCentered, faceCentered]

@[simp] theorem mem_all (q : Quadrature) : q ∈ all := by
  cases q <;> simp [all]

/-- The quadrature with a name. -/
def ofName? (s : String) : Option Quadrature := all.find? fun q => q.name = s

/-- The smallest extent: distributions with points at both ends need two. -/
def minimumExtent : Quadrature → Nat
  | gauss | cellCentered => 1
  | gaussLobatto | faceCentered => 2

theorem minimumExtent_pos (q : Quadrature) : 0 < q.minimumExtent := by
  cases q <;> simp [minimumExtent]

theorem minimumExtent_lt_unbounded (q : Quadrature) : q.minimumExtent < unbounded := by
  cases q <;> simp [minimumExtent, unbounded]

end Quadrature

end AdaptiveMesh
