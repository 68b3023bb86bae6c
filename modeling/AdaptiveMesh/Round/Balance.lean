/-
Balancing an element against its neighbours.

Face neighbours must stay within one refinement level of each other, and an element
must not join with a neighbour that does not join the same way.  Both are settled by
comparing the levels that an element and its neighbour will have once their decisions
are carried out, in the element's own axes.

A comparison only ever moves a decision towards more refinement: a join may become
nothing or a split, and anything else may become a split.  So comparing again and
again comes to an end.
-/
import AdaptiveMesh.Flag.Decision
import AdaptiveMesh.Layout.Adjacency

namespace AdaptiveMesh

/-! ### One comparison

What a neighbour asks for depends on how far it will be ahead.  Neighbours that start within one
level of each other come to be three levels apart at most, when one of them splits and the other one
joins, so nothing is asked over a larger lead. -/

namespace Flag

/-- What a flag, with the level it leads to, is raised to when a neighbour will be at level
`theirs`.  Nothing changes while the neighbour stays within one level. -/
def raised? (flag : Flag) (mine theirs : Nat) : Option (Flag × Nat) :=
  match flag with
  | .split => none
  | .join =>
    if theirs = mine + 3 then some (.split, mine + 2)
    else if theirs = mine + 2 then some (.doNothing, mine + 1)
    else none
  | _ => if theirs = mine + 2 then some (.split, mine + 1) else none

end Flag

/-- A decision while it is compared with the decisions of neighbours. -/
structure Standing (D : Nat) where
  /-- The decision so far. -/
  flags : Decision D
  /-- The levels it leads to. -/
  levels : Vector Nat D
  /-- Whether a comparison has changed it. -/
  changed : Bool := false
deriving DecidableEq

namespace Standing

variable {D : Nat}

/-- What a neighbour across a face asks for along one axis.  Without `normal`, nothing is asked
along the axis of the face. -/
def asked? (s : Standing D) (face : Face D) (theirs : Vector Nat D) (normal : Bool) (d : Fin D) :
    Option (Flag × Nat) :=
  if d = face.axis ∧ normal = false then none
  else (s.flags.get d).raised? (s.levels.get d) (theirs.get d)

/-- Comes within one level of a neighbour across a face. -/
def raise (s : Standing D) (face : Face D) (theirs : Vector Nat D) (normal : Bool) :
    Standing D where
  flags := Vector.ofFn fun d =>
    ((s.asked? face theirs normal d).map (·.1)).getD (s.flags.get d)
  levels := Vector.ofFn fun d =>
    ((s.asked? face theirs normal d).map (·.2)).getD (s.levels.get d)
  changed := s.changed || decide (∃ d : Fin D, (s.asked? face theirs normal d).isSome)

/-- Gives up the join towards a potential sibling that will not be at the same levels. -/
def leaveSibling (s : Standing D) (e : Element D) (face : Face D) (theirs : Vector Nat D) :
    Standing D :=
  if e.HasPotentialSibling face ∧ s.flags.get face.axis = .join ∧ s.levels ≠ theirs then
    { flags := setAxis s.flags face.axis .doNothing
      levels := setAxis s.levels face.axis (s.levels.get face.axis + 1)
      changed := true }
  else s

/-- Compares with one neighbour across one face. -/
def compare (s : Standing D) (e : Element D) (face : Face D) (theirs : Vector Nat D)
    (normal : Bool) : Standing D :=
  (s.raise face theirs normal).leaveSibling e face theirs

end Standing

/-- The levels that a neighbour will be at, arranged by this element's axes. -/
def Element.desiredLevelsThrough {D : Nat} (c : Element D) (flags : Decision D)
    (o : Orientation D) : Vector Nat D :=
  o.fromNeighbor (c.desiredLevels flags)

/-! ### All comparisons

The neighbours are met one after another, each with the decision as the ones before have left it.
None is met a second time, so a neighbour that was met early has not seen what a later one changed.
-/

/-- A decision after it was compared with others. -/
structure Revision (D : Nat) where
  /-- The decision. -/
  flags : Decision D
  /-- Whether it was changed. -/
  changed : Bool
deriving DecidableEq

/-- The decisions that neighbours have published; nothing for those that have not. -/
abbrev Feed (D : Nat) := Element D → Option (Decision D)

/-- What comes of balancing an element. -/
inductive Balance (D : Nat) where
  /-- The decision was compared with those of all neighbours. -/
  | balanced (revision : Revision D)
  /-- These neighbours have not published a decision. -/
  | missing (elements : List (Element D))
deriving DecidableEq

namespace Site

variable {D : Nat}

/-- One comparison with a neighbour, across a face that lists it. -/
def meet (s : Site D) (normal : Bool) (c : Element D) (theirs : Decision D)
    (standing : Standing D) (contact : Face D × Contact D) : Standing D :=
  standing.compare s.element contact.1
    (c.desiredLevelsThrough theirs contact.2.orientation) normal

/-- Compares a decision with that of one neighbour, across every face that lists it.  A periodic
domain can list the same neighbour across several faces.  Where the element has no face the
comparison breaks off. -/
def revise (s : Site D) (normal : Bool) (flags : Decision D) (c : Element D)
    (theirs : Decision D) : Except (Fault D) (Revision D) :=
  if c ∈ s.beyond then .error (.brokenOff c s.element)
  else if c ∈ s.neighbors then
    let start : Standing D := { flags, levels := s.element.desiredLevels flags }
    let final := (s.neighborhood.contactsWith c).foldl (s.meet normal c theirs) start
    let kept := final.flags.dropJoinsBesideSplit
    .ok { flags := kept, changed := final.changed || decide (kept ≠ final.flags) }
  else .error (.notANeighbor c s.element)

/-- A decision that was compared with others is compared with one more neighbour. -/
def reviseAgain (s : Site D) (normal : Bool) (revision : Revision D)
    (neighbor : Element D × Decision D) : Except (Fault D) (Revision D) := do
  let next ← s.revise normal revision.flags neighbor.1 neighbor.2
  return { next with changed := revision.changed || next.changed }

/-- The neighbours with the decisions they have published, in ascending order. -/
def published (s : Site D) (feed : Feed D) : List (Element D × Decision D) :=
  s.neighbors.toList.filterMap fun c => (feed c).map (c, ·)

/-- The neighbours that have published nothing, in ascending order. -/
def missing (s : Site D) (feed : Feed D) : List (Element D) :=
  s.neighbors.toList.filter fun c => (feed c).isNone

/-- Compares a decision with those of all neighbours, one after another. -/
def balance (s : Site D) (normal : Bool) (flags : Decision D) (feed : Feed D) :
    Except (Fault D) (Balance D) :=
  if s.missing feed = [] then do
    let start : Revision D := ⟨flags, false⟩
    return .balanced (← (s.published feed).foldlM (s.reviseAgain normal) start)
  else .ok (.missing (s.missing feed))

end Site

end AdaptiveMesh
