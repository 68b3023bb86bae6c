/-
One flag per axis.

A `Decision` is what one element is to do along all of its axes.  Criteria propose
decisions, policies correct them, neighbours raise them, and the element finally
acts on one.  An element that splits along any axis must not join along another.
-/
import AdaptiveMesh.Flag.Basic
import AdaptiveMesh.Geometry.Axis

namespace AdaptiveMesh

/-- What one element is to do, axis by axis. -/
abbrev Decision (D : Nat) := Vector Flag D

namespace Decision

variable {D : Nat}

/-- The same flag along every axis. -/
def uniform (f : Flag) : Decision D := Vector.replicate D f

/-- The decision that is still open along every axis. -/
def undecided : Decision D := uniform .undefined

/-- Some axis carries the flag. -/
def Has (flags : Decision D) (f : Flag) : Prop := ∃ d : Fin D, flags.get d = f

instance (flags : Decision D) (f : Flag) : Decidable (flags.Has f) :=
  inferInstanceAs (Decidable (∃ d : Fin D, flags.get d = f))

/-- The first axis that carries the flag. -/
def firstAxis? (flags : Decision D) (f : Flag) : Option (Fin D) :=
  AdaptiveMesh.firstAxis? fun d => flags.get d = f

/-- Open decisions closed in favour of staying. -/
def resolve (flags : Decision D) : Decision D :=
  Vector.ofFn fun d => (flags.get d).resolve

/-- The strongest flag of any axis, and staying if there is none. -/
def strongest (flags : Decision D) : Flag :=
  (flags.toList.foldl max .undefined).resolve

/-- The decision without joins if it splits along some axis. -/
def dropJoinsBesideSplit (flags : Decision D) : Decision D :=
  if flags.Has .split then
    Vector.ofFn fun d => if flags.get d = .join then .doNothing else flags.get d
  else flags

end Decision

end AdaptiveMesh
