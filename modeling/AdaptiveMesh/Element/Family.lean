/-
Parents, children and siblings.

A decision turns one element into others: a split bisects it along every axis that
says so, a join replaces it by the parent along every axis that says so.  The
elements that must join together are the children of that parent.
-/
import AdaptiveMesh.Element.Basic
import AdaptiveMesh.Geometry.Product

namespace AdaptiveMesh

namespace Element

variable {D : Nat}

/-- Why an element has no such relatives. -/
inductive FamilyFault (D : Nat) where
  /-- The element is on the finest grid along an axis that splits. -/
  | cannotSplit (element : Element D) (axis : Fin D)
  /-- The element is unrefined along an axis that joins. -/
  | noParent (element : Element D) (axis : Fin D)
deriving DecidableEq

/-- What is said of an element without such relatives. -/
def FamilyFault.message : FamilyFault D → String
  | cannotSplit e d => s!"{e} cannot split beyond the maximum level in dimension {d.val}"
  | noParent e d => s!"{e} has no parent in dimension {d.val}"

/-- The segments of the children along one axis. -/
def pieces (e : Element D) (flags : Decision D) (d : Fin D) : List Segment :=
  if flags.get d = .split then (e.segment d).halves else [e.segment d]

/-- The elements that a decision splits this one into, in ascending order. -/
def children (e : Element D) (flags : Decision D) :
    Except (FamilyFault D) (List (Element D)) :=
  match firstAxis? fun d => flags.get d = .split ∧ (e.segment d).level = maxLevel with
  | some d => .error (.cannotSplit e d)
  | none => .ok ((choices (Vector.ofFn (e.pieces flags))).map fun s => { e with segments := s })

/-- The element that a decision merges this one into. -/
def parent (e : Element D) (flags : Decision D) : Except (FamilyFault D) (Element D) :=
  match firstAxis? fun d => flags.get d = .join ∧ (e.segment d).level = 0 with
  | some d => .error (.noParent e d)
  | none => .ok { e with
      segments := Vector.ofFn fun d =>
        if flags.get d = .join then (e.segment d).parent?.getD (e.segment d) else e.segment d }

/-- The elements that must join together under a decision, this one among them. -/
def siblings (e : Element D) (flags : Decision D) : Except (FamilyFault D) (List (Element D)) := do
  let p ← e.parent flags
  p.children (Vector.ofFn fun d => if flags.get d = .join then .split else .doNothing)

/-- The refinement levels once the decision is carried out. -/
def desiredLevels (e : Element D) (flags : Decision D) : Vector Nat D :=
  Vector.ofFn fun d =>
    match flags.get d with
    | .split => (e.segment d).level + 1
    | .join => (e.segment d).level - 1
    | _ => (e.segment d).level

end Element

end AdaptiveMesh
