/-
Checking that a forest is sound.

In a sound forest every element lies in a block of the layout, neighbours list each
other through inverse orientations, and no two elements share volume.
-/
import AdaptiveMesh.Forest.Basic

namespace AdaptiveMesh

namespace Forest

variable {D : Nat}

/-- What is wrong with one neighbour that an element lists across a face. -/
def linkFault? (f : Forest D) (e : Element D) (face : Face D) (contact : Contact D)
    (neighbor : Element D) : Option (Fault D) :=
  let back := Layout.backFace contact.orientation face
  match f.records[neighbor]? with
  | none => some (.unknownElement neighbor)
  | some r =>
    match r.neighborhood[back] with
    | none => some (.invalidOrientation (.notListed neighbor e back))
    | some theirs =>
      if e ∉ theirs.elements then some (.invalidOrientation (.notListed neighbor e back))
      else if theirs.orientation ≠ contact.orientation.inverse then
        some (.invalidOrientation (.notInverse e neighbor))
      else none

/-- What is wrong with the record of one element. -/
def recordFault? (f : Forest D) (e : Element D) (r : Record D) : Option (Fault D) :=
  if f.layout.blocks.length ≤ e.block then some (.unknownBlock e.block)
  else r.neighborhood.contacts.findSome? fun (face, contact) =>
    contact.elements.toList.findSome? (f.linkFault? e face contact)

/-- The first two of some elements that share volume. -/
def overlap? : List (Element D) → Option (Fault D)
  | [] => none
  | e :: rest =>
    ((rest.find? fun c => e.Overlaps c).map fun c => .invalidElement (.overlap e c)).or
      (overlap? rest)

/-- What is wrong with a forest; records are looked at first. -/
def fault? (f : Forest D) : Option (Fault D) :=
  (f.records.toList.findSome? fun (e, r) => f.recordFault? e r).or (overlap? f.elements)

/-- Succeeds if nothing is wrong with the forest. -/
def audit (f : Forest D) : Except (Fault D) Unit :=
  match f.fault? with
  | some fault => .error fault
  | none => .ok ()

end Forest

end AdaptiveMesh
