/-
Refinement criteria.

A criterion looks at one element, its mesh and the limits of the run, and proposes a
decision.  Outside its scope it has no opinion.  There are two kinds: one adds grid
points until it meets the ceiling, the other steers towards fixed levels and extents
and has its own answer once it is there.
-/
import AdaptiveMesh.Policy.Limits

namespace AdaptiveMesh

/-- The axes at which a criterion looks. -/
structure Scope (D : Nat) where
  /-- Whether an axis is looked at. -/
  mask : Vector Bool D
deriving DecidableEq

namespace Scope

variable {D : Nat}

instance : Membership (Fin D) (Scope D) where
  mem s d := s.mask.get d = true

instance (d : Fin D) (s : Scope D) : Decidable (d ∈ s) :=
  inferInstanceAs (Decidable (_ = _))

/-- Every axis. -/
def all : Scope D := ⟨Vector.replicate D true⟩

/-- The axes with the given numbers, of which there must be one. -/
def only (axes : List Nat) : Except (SetupFault D) (Scope D) :=
  match axes.find? fun a => D ≤ a with
  | some a => .error (.scopeOutOfRange a)
  | none =>
    if axes.isEmpty then .error .scopeEmpty
    else .ok ⟨Vector.ofFn fun d => axes.contains d.val⟩

/-- The scope looks at every axis. -/
def IsAll (s : Scope D) : Prop := ∀ d, d ∈ s

instance (s : Scope D) : Decidable s.IsAll :=
  inferInstanceAs (Decidable (∀ d, d ∈ s))

/-- The axes of a scope in ascending order. -/
def axes (s : Scope D) : List (Fin D) := (List.finRange D).filter fun d => d ∈ s

end Scope

/-- Levels and extents to steer towards. -/
structure Target (D : Nat) where
  /-- The extents to reach. -/
  extents : Vector Nat D
  /-- The levels to reach. -/
  levels : Vector Nat D
  /-- What to propose once everything is reached. -/
  flags : Decision D := .uniform .doNothing
  /-- The axes that count. -/
  scope : Scope D := .all
  /-- Every target extent has a grid point. -/
  extents_pos : ∀ d : Fin D, 0 < extents.get d
  /-- No target level lies beyond the finest grid. -/
  levels_le : ∀ d : Fin D, levels.get d ≤ maxLevel
  /-- The proposal at the target is decided along every axis. -/
  flags_ne : ∀ d : Fin D, flags.get d ≠ .undefined

namespace Target

variable {D : Nat}

instance : DecidableEq (Target D) := fun t u =>
  decidable_of_iff (t.extents = u.extents ∧ t.levels = u.levels ∧ t.flags = u.flags ∧
      t.scope = u.scope) (by
    cases t
    cases u
    simp only [mk.injEq])

/-- The target with the given values.  Extents are looked at first, then levels, then flags. -/
def ofValues (extents levels : Vector Nat D) (flags : Decision D) (scope : Scope D) :
    Except (SetupFault D) (Target D) :=
  match he : firstAxis? fun d : Fin D => extents.get d = 0 with
  | some d => .error (.targetExtentZero d)
  | none =>
    match hl : firstAxis? fun d : Fin D => maxLevel < levels.get d with
    | some d => .error (.targetLevelTooDeep d)
    | none =>
      match hf : firstAxis? fun d : Fin D => flags.get d = .undefined with
      | some d => .error (.targetFlagUndefined d)
      | none => .ok {
          extents, levels, flags, scope
          extents_pos := fun d => Nat.pos_of_ne_zero (firstAxis?_eq_none_iff.1 he d)
          levels_le := fun d => Nat.le_of_not_lt (firstAxis?_eq_none_iff.1 hl d)
          flags_ne := firstAxis?_eq_none_iff.1 hf }

/-- The next step along one axis: the level is set right before the extent. -/
def step (t : Target D) (e : Element D) (m : Mesh D) (d : Fin D) : Flag :=
  if (e.segment d).level < t.levels.get d then .split
  else if t.levels.get d < (e.segment d).level then .join
  else if m.extents.get d < t.extents.get d then .increaseResolution
  else if t.extents.get d < m.extents.get d then .decreaseResolution
  else .doNothing

/-- No axis that counts has a step left. -/
def Reached (t : Target D) (e : Element D) (m : Mesh D) : Prop :=
  ∀ d, d ∈ t.scope → t.step e m d = .doNothing

instance (t : Target D) (e : Element D) (m : Mesh D) : Decidable (t.Reached e m) :=
  inferInstanceAs (Decidable (∀ d, d ∈ t.scope → t.step e m d = .doNothing))

end Target

/-- A rule that proposes decisions. -/
inductive Criterion (D : Nat) where
  /-- Add grid points along the axes of the scope, up to the ceiling. -/
  | increaseResolution (scope : Scope D)
  /-- Steer towards a target. -/
  | driveToTarget (target : Target D)
deriving DecidableEq

namespace Criterion

variable {D : Nat}

/-- The kind of a criterion. -/
def kind : Criterion D → CriterionKind
  | increaseResolution _ => .increaseResolution
  | driveToTarget _ => .driveToTarget

/-- The axes at which a criterion looks. -/
def scope : Criterion D → Scope D
  | increaseResolution s => s
  | driveToTarget t => t.scope

/-- No kind of criterion looks at the neighbours of an element. -/
def needsNeighbors : Criterion D → Bool
  | increaseResolution _ | driveToTarget _ => false

/-- The decision that a criterion proposes; undefined outside its scope. -/
def propose (c : Criterion D) (limits : Limits D) (e : Element D) (m : Mesh D) : Decision D :=
  match c with
  | increaseResolution s => Vector.ofFn fun d =>
    if d ∈ s then
      if min (limits.maxExtent.get d) (m.maximumExtent d) ≤ m.extents.get d then .doNothing
      else .increaseResolution
    else .undefined
  | driveToTarget t => Vector.ofFn fun d =>
    if d ∈ t.scope then
      if t.Reached e m then t.flags.get d else t.step e m d
    else .undefined

/-- The flags that a criterion can propose along an axis, whatever the element. -/
def possible (c : Criterion D) (d : Fin D) : FlagSet :=
  match c with
  | increaseResolution s =>
    if d ∈ s then FlagSet.ofList [.increaseResolution, .doNothing] else ∅
  | driveToTarget t =>
    if d ∈ t.scope then
      FlagSet.ofList
        [.split, .join, .increaseResolution, .decreaseResolution, .doNothing, t.flags.get d]
    else ∅

end Criterion

end AdaptiveMesh
