/-
Refinement flags.

A flag is what one element is to do along one axis: split or join, which changes its
place in the bisection tree, or gain or lose a grid point, which does not.  Flags are
ranked by how strongly they refine, and the strongest of several flags is the one an
isotropic element follows.
-/
import Std.Data.ExtTreeSet

namespace AdaptiveMesh

/-- What an element is to do along one axis. -/
inductive Flag where
  /-- Nothing has been decided. -/
  | undefined
  /-- Merge with the other half of the parent. -/
  | join
  /-- Drop one grid point. -/
  | decreaseResolution
  /-- Stay as it is. -/
  | doNothing
  /-- Add one grid point. -/
  | increaseResolution
  /-- Bisect. -/
  | split
deriving DecidableEq, Repr

/-- Whether a flag refines, coarsens or keeps an element. -/
inductive Tendency where
  | refine
  | coarsen
  | neutral
deriving DecidableEq, Repr

namespace Flag

/-- The place of a flag among the others, the strongest refinement last. -/
def rank : Flag → Nat
  | undefined => 0
  | join => 1
  | decreaseResolution => 2
  | doNothing => 3
  | increaseResolution => 4
  | split => 5

theorem rank_injective {a b : Flag} (h : a.rank = b.rank) : a = b := by
  cases a <;> cases b <;> first | rfl | contradiction

instance : Ord Flag where
  compare := compareOn rank

instance : Std.TransOrd Flag :=
  inferInstanceAs (Std.TransCmp (compareOn rank))

instance : Std.LawfulEqOrd Flag where
  eq_of_compare h := rank_injective (Std.LawfulEqOrd.eq_of_compare h)

instance : LE Flag where
  le a b := a.rank ≤ b.rank

instance (a b : Flag) : Decidable (a ≤ b) :=
  inferInstanceAs (Decidable (a.rank ≤ b.rank))

instance : Max Flag where
  max a b := if a ≤ b then b else a

/-- Splits and joins change the place in the bisection tree. -/
def IsTopological (f : Flag) : Prop := f = split ∨ f = join

instance (f : Flag) : Decidable f.IsTopological :=
  inferInstanceAs (Decidable (_ ∨ _))

/-- The other requests change the number of grid points. -/
def IsResolution (f : Flag) : Prop := f = increaseResolution ∨ f = decreaseResolution

instance (f : Flag) : Decidable f.IsResolution :=
  inferInstanceAs (Decidable (_ ∨ _))

/-- Whether the flag refines, coarsens or keeps an element. -/
def tendency : Flag → Tendency
  | split | increaseResolution => .refine
  | join | decreaseResolution => .coarsen
  | doNothing | undefined => .neutral

/-- The flag with an open decision closed in favour of staying. -/
def resolve : Flag → Flag
  | undefined => doNothing
  | f => f

/-- The request of the same kind that undoes this one. -/
def opposite : Flag → Flag
  | split => join
  | join => split
  | increaseResolution => decreaseResolution
  | decreaseResolution => increaseResolution
  | f => f

/-- The flag's name. -/
def name : Flag → String
  | undefined => "Undefined"
  | join => "Join"
  | decreaseResolution => "DecreaseResolution"
  | doNothing => "DoNothing"
  | increaseResolution => "IncreaseResolution"
  | split => "Split"

/-- All flags in ascending rank. -/
def all : List Flag :=
  [undefined, join, decreaseResolution, doNothing, increaseResolution, split]

@[simp] theorem mem_all (f : Flag) : f ∈ all := by
  cases f <;> simp [all]

/-- The flag with a name. -/
def ofName? (s : String) : Option Flag :=
  all.find? fun f => f.name = s

end Flag

/-! ### Sets of flags -/

/-- A set of flags, listed in ascending rank. -/
abbrev FlagSet := Std.ExtTreeSet Flag

namespace FlagSet

/-- The set of the listed flags. -/
def ofList (flags : List Flag) : FlagSet := Std.ExtTreeSet.ofList flags

/-- Two sets conflict when one asks for what would undo something the other asks for. -/
def Conflicts (a b : FlagSet) : Prop :=
  ∃ f ∈ a.toList, f.tendency ≠ .neutral ∧ f.opposite ∈ b

instance (a b : FlagSet) : Decidable (Conflicts a b) :=
  inferInstanceAs (Decidable (∃ f ∈ a.toList, _))

end FlagSet

end AdaptiveMesh
