/-
Exchanging elements.

A split exchanges an element for its children, a join exchanges all elements inside
a parent for the parent.  Either way the elements beside the exchanged ones see
something new across their faces; everyone else sees what they saw before.  So only
the old neighbours of the elements that go have to look again, and whom they find is
among their remaining neighbours and the elements that came.

Everything is looked up before anything is exchanged.  An exchange that fails has
therefore no effect.
-/
import AdaptiveMesh.Forest.Basic

namespace AdaptiveMesh

/-- What a remaining element sees across one face after an exchange, if it changed. -/
structure Change (D : Nat) where
  /-- The element that remains. -/
  element : Element D
  /-- The face of that element. -/
  face : Face D
  /-- What was across the face. -/
  previous : Option (Contact D)
  /-- What is across the face now. -/
  current : Option (Contact D)
deriving DecidableEq

/-- The faces of an element across which two neighbourhoods differ, in ascending order. -/
def Neighborhood.changes {D : Nat} (previous current : Neighborhood D) (e : Element D) :
    List (Change D) :=
  (Face.all D).filterMap fun f =>
    if previous[f] = current[f] then none else some ⟨e, f, previous[f], current[f]⟩

/-- A forest after an exchange, with what changed for the elements that remain. -/
structure Edit (D : Nat) where
  /-- The forest. -/
  forest : Forest D
  /-- What changed, by element and then by face. -/
  changes : List (Change D)
deriving DecidableEq

/-- A remaining element that looks for its neighbours again. -/
structure Refreshed (D : Nat) where
  /-- The element. -/
  element : Element D
  /-- Its record so far. -/
  record : Record D
  /-- The neighbours it finds. -/
  neighborhood : Neighborhood D
deriving DecidableEq

namespace Forest

variable {D : Nat}

/-! ### The exchange

Elements that come get new records.  Elements beside those that go keep their meshes and look for
their neighbours again, each among those that it had and those that come. -/

/-- The elements beside those that go, without the ones that go themselves. -/
def beside (f : Forest D) (removed : List (Element D)) : Except (Fault D) (ElementSet D) := do
  let records ← removed.mapM f.record
  return Std.ExtTreeSet.ofList
    ((records.flatMap fun r => r.neighborhood.elements.toList).filter fun c => c ∉ removed)

/-- The records of the elements that come. -/
def newRecords (f : Forest D) (candidates added : List (Element D)) (mesh : Mesh D) :
    Except (Fault D) (List (Element D × Record D)) :=
  added.mapM fun e => do
    let neighborhood ← f.layout.neighborhood e candidates
    return (e, { neighborhood, mesh })

/-- Looks for the neighbours of an element again.  They are among its remaining neighbours and the
elements that came. -/
def refresh (f : Forest D) (removed added : List (Element D)) (e : Element D) :
    Except (Fault D) (Refreshed D) := do
  let record ← f.record e
  let remaining := record.neighborhood.elements.toList.filter fun c => c ∉ removed
  let neighborhood ← f.layout.neighborhood e (remaining ++ added)
  return { element := e, record, neighborhood }

/-- The forest with some elements exchanged for others, which all start from one mesh. -/
def replace (f : Forest D) (removed added : List (Element D)) (mesh : Mesh D) :
    Except (Fault D) (Edit D) := do
  let beside ← f.beside removed
  let new ← f.newRecords (beside.toList ++ added) added mesh
  let refreshed ← beside.toList.mapM (f.refresh removed added)
  let old := refreshed.map fun r => (r.element, { r.record with neighborhood := r.neighborhood })
  return {
    forest := { f with
      records := ((f.records.filter fun e _ => e ∉ removed).insertMany new).insertMany old }
    changes := refreshed.flatMap fun r =>
      r.record.neighborhood.changes r.neighborhood r.element }

/-! ### Splits and joins -/

/-- The decision that leads from an element to a child: to split along the axes along which the
child is finer. -/
def splitTowards (e child : Element D) : Decision D :=
  Vector.ofFn fun d =>
    if (e.segment d).level < (child.segment d).level then .split else .doNothing

/-- The listed elements are the children of an element under a decision that splits it, each listed
once. -/
def IsSplit (flags : Decision D) (expected given : List (Element D)) : Prop :=
  flags.Has .split ∧ (Std.ExtTreeSet.ofList expected : ElementSet D) = Std.ExtTreeSet.ofList given ∧
    (Std.ExtTreeSet.ofList given : ElementSet D).size = given.length

instance (flags : Decision D) (expected given : List (Element D)) :
    Decidable (IsSplit flags expected given) :=
  inferInstanceAs (Decidable (_ ∧ _ ∧ _))

/-- The forest with an element exchanged for its children. -/
def split (f : Forest D) (e : Element D) (children : List (Element D)) (mesh : Mesh D) :
    Except (Fault D) (Edit D) :=
  match children with
  | [] => .error (.invalidElement (.noChildren e))
  | first :: _ => do
    let flags := splitTowards e first
    let expected ← (e.children flags).mapError Fault.ofFamily
    if IsSplit flags expected children then f.replace [e] children mesh
    else throw (.invalidElement (.notTheChildren children e))

/-- The elements that share volume with an element, in ascending order. -/
def inside (f : Forest D) (e : Element D) : List (Element D) :=
  f.elements.filter fun c => c.Overlaps e

/-- The decision under which an element splits towards one that lies inside it, or the first axis
along which that one is neither as fine as the element nor one level finer. -/
def splitBack (e child : Element D) : Except (Fin D) (Decision D) :=
  match firstAxis? fun d : Fin D =>
      (child.segment d).level ≠ (e.segment d).level + 1 ∧
        (child.segment d).level ≠ (e.segment d).level with
  | some d => .error d
  | none => .ok (splitTowards e child)

/-- The forest with all elements inside a parent exchanged for the parent. -/
def join (f : Forest D) (parent : Element D) (mesh : Mesh D) : Except (Fault D) (Edit D) :=
  if parent ∈ f then .error (.invalidElement (.alreadyPresent parent))
  else
    let inside := f.inside parent
    let incomplete : Fault D := .topology parent ⟨0, parent.dimension_pos⟩ .incompleteSiblings
    match inside with
    | [] => .error incomplete
    | first :: _ =>
      match splitBack parent first with
      | .error d => .error (.topology first d .incompleteSiblings)
      | .ok flags => do
        let expected ← (parent.children flags).mapError Fault.ofFamily
        if expected = inside then f.replace inside [parent] mesh else throw incomplete

end Forest

end AdaptiveMesh
