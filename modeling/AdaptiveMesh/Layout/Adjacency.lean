/-
Which elements lie next to each other.

Two elements are neighbours when they touch across a face.  Inside a block that
means their segments abut along the axis normal to the face and overlap along every
other axis.  Across a gluing both must lie on the glued block face, and the other
axes are compared after the segments have been carried through the gluing.

`Layout.touching?` is this relation together with the orientation through which the
neighbour is seen.  A `Neighborhood` collects, face by face, who touches an element.

A `Site` is an element with the neighbours it is told to have, which need not come from
a layout.  Whoever lists them names directions, and some may be none of the element's.
-/
import AdaptiveMesh.Layout.Basic

namespace AdaptiveMesh

/-! ### Touching

Whether two elements touch inside a block does not depend on the layout.  Only at the end of a block
it has to be asked for a gluing, and only then the block has to be there. -/

namespace Element

variable {D : Nat}

/-- In one block, the other element begins where this one ends across the face. -/
def Adjoins (e : Element D) (f : Face D) (c : Element D) : Prop :=
  c.block = e.block ∧ (e.segment f.axis).Abuts f.side (c.segment f.axis) ∧
    ∀ d : Fin D, d ≠ f.axis → (e.segment d).Overlaps (c.segment d)

instance (e : Element D) (f : Face D) (c : Element D) : Decidable (e.Adjoins f c) :=
  inferInstanceAs (Decidable (_ ∧ _ ∧
    ∀ d : Fin D, d ≠ f.axis → (e.segment d).Overlaps (c.segment d)))

/-- The other element lies on the corresponding block face, and opposite to this one. -/
def MeetsThrough (o : Orientation D) (e : Element D) (f : Face D) (c : Element D) : Prop :=
  c.Touches (Layout.backFace o f) ∧
    ∀ d : Fin D, d ≠ f.axis →
      (o.mapSegment d (e.segment d)).2.Overlaps (c.segment (o.axis d))

instance (o : Orientation D) (e : Element D) (f : Face D) (c : Element D) :
    Decidable (MeetsThrough o e f c) :=
  inferInstanceAs (Decidable (_ ∧ ∀ d : Fin D, d ≠ f.axis →
    (o.mapSegment d (e.segment d)).2.Overlaps (c.segment (o.axis d))))

end Element

namespace Layout

variable {D : Nat}

/-- What lies across a face of a block; nothing if there is no such block. -/
def across? (L : Layout D) (number : Nat) (face : Face D) : Option (Gluing D) :=
  L.blocks[number]?.bind fun b => b.gluings[face]

/-- The orientation through which element `c` touches element `e` across a face of `e`. -/
def touching? (L : Layout D) (e : Element D) (f : Face D) (c : Element D) :
    Option (Orientation D) :=
  if e.Adjoins f c then some .aligned
  else if e.Touches f then
    match L.across? e.block f with
    | none => none
    | some g =>
      if g.block = c.block ∧ e.MeetsThrough g.orientation f c then some g.orientation else none
  else none

/-- Comparing the two elements needs the block of `e`, and the layout lacks it. -/
def Lacks (L : Layout D) (e : Element D) (f : Face D) (c : Element D) : Prop :=
  L.blocks.length ≤ e.block ∧ e.Touches f ∧ ¬ e.Adjoins f c

instance (L : Layout D) (e : Element D) (f : Face D) (c : Element D) : Decidable (L.Lacks e f c) :=
  inferInstanceAs (Decidable (_ ∧ _ ∧ _))

/-- The orientation of a contact, if the layout knows enough to tell. -/
def contactOrientation (L : Layout D) (e : Element D) (f : Face D) (c : Element D) :
    Except (Fault D) (Option (Orientation D)) :=
  if L.Lacks e f c then .error (.unknownBlock e.block) else .ok (L.touching? e f c)

end Layout

/-! ### Neighbourhoods

A face has one orientation on record for all elements across it.  Nothing here makes sure that all
of them are seen through the same one; that they are is a fact about touching. -/

/-- The elements across one face, all seen through one orientation. -/
structure Contact (D : Nat) where
  /-- The elements across the face. -/
  elements : ElementSet D
  /-- How this element's axes correspond to theirs. -/
  orientation : Orientation D
deriving DecidableEq

/-- What lies across each face of an element; nothing across a domain boundary. -/
abbrev Neighborhood (D : Nat) := FaceTable D (Option (Contact D))

namespace Neighborhood

variable {D : Nat}

/-- Nothing across any face. -/
def empty : Neighborhood D := FaceTable.ofFn fun _ => none

/-- The faces that have a contact, in ascending order, with it. -/
def contacts (n : Neighborhood D) : List (Face D × Contact D) :=
  (Face.all D).filterMap fun f => n[f].map (f, ·)

/-- The number of neighbours, counted once for each face. -/
def count (n : Neighborhood D) : Nat :=
  n.contacts.foldl (fun total (_, c) => total + c.elements.size) 0

/-- The neighbours over all faces. -/
def elements (n : Neighborhood D) : ElementSet D :=
  Std.ExtTreeSet.ofList (n.contacts.flatMap fun (_, c) => c.elements.toList)

/-- The faces with nothing across them. -/
def boundary (n : Neighborhood D) : List (Face D) :=
  (Face.all D).filter fun f => n[f].isNone

/-- The contacts that list an element, in ascending order of their faces. -/
def contactsWith (n : Neighborhood D) (c : Element D) : List (Face D × Contact D) :=
  n.contacts.filter fun (_, contact) => c ∈ contact.elements

end Neighborhood

/-- An element together with its neighbours. -/
structure Site (D : Nat) where
  /-- The element. -/
  element : Element D
  /-- What lies across its faces. -/
  neighborhood : Neighborhood D := .empty
  /-- Neighbours that are listed in directions in which the element has no face.  The element waits
  for their decisions like for all others, but cannot be compared with them. -/
  beyond : ElementSet D := ∅
deriving DecidableEq

namespace Site

variable {D : Nat}

/-- All neighbours of the element. -/
def neighbors (s : Site D) : ElementSet D := s.neighborhood.elements ∪ s.beyond

/-- The contact that is listed in a direction; of several, the last one. -/
def listed? (contacts : List (Direction × Contact D)) (direction : Direction) :
    Option (Contact D) :=
  (contacts.reverse.find? fun entry => entry.1 = direction).map (·.2)

/-- The element with the listed contacts. -/
def ofContacts (e : Element D) (contacts : List (Direction × Contact D)) : Site D where
  element := e
  neighborhood := FaceTable.ofFn fun f => listed? contacts f.toDirection
  beyond :=
    let outside := contacts.filterMap fun (direction, _) =>
      if direction.axis < D then none else listed? contacts direction
    Std.ExtTreeSet.ofList (outside.flatMap fun c => c.elements.toList)

end Site

namespace Layout

variable {D : Nat}

/-- Those among the candidates that touch an element across a face.  If several do, the last one
gives the orientation. -/
def contactAmong? (L : Layout D) (e : Element D) (candidates : List (Element D)) (f : Face D) :
    Option (Contact D) :=
  let touching := candidates.filterMap fun c => (L.touching? e f c).map (c, ·)
  touching.getLast?.map fun (_, o) => ⟨Std.ExtTreeSet.ofList (touching.map (·.1)), o⟩

/-- The neighbourhood of an element among some candidates. -/
def neighborhoodAmong (L : Layout D) (e : Element D) (candidates : List (Element D)) :
    Neighborhood D :=
  FaceTable.ofFn (L.contactAmong? e candidates)

/-- The neighbourhood of an element among some candidates, if the layout knows enough to tell. -/
def neighborhood (L : Layout D) (e : Element D) (candidates : List (Element D)) :
    Except (Fault D) (Neighborhood D) :=
  if ∃ f ∈ Face.all D, ∃ c ∈ candidates, L.Lacks e f c then .error (.unknownBlock e.block)
  else .ok (L.neighborhoodAmong e candidates)

end Layout

end AdaptiveMesh
