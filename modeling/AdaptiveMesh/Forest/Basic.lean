/-
The elements of a domain and what is known about them.

A `Forest` keeps one record for each of its elements, under the element itself: its
mesh, and who lies across its faces.  Elements name their neighbours, so the records
never point at each other and can be exchanged one by one.  A forest starts with the
first elements of every block of its layout.
-/
import AdaptiveMesh.Round.Cycle
import Std.Data.ExtTreeMap

namespace AdaptiveMesh

/-- What is known about an element. -/
structure Record (D : Nat) where
  /-- What lies across its faces. -/
  neighborhood : Neighborhood D
  /-- Its grid points. -/
  mesh : Mesh D
deriving DecidableEq

/-- The element that the record is about, with its neighbours. -/
def Record.site {D : Nat} (r : Record D) (e : Element D) : Site D where
  element := e
  neighborhood := r.neighborhood

/-- The elements of a domain with their records. -/
structure Forest (D : Nat) where
  /-- The blocks that the elements refine. -/
  layout : Layout D
  /-- The record of each element, in ascending order of the elements. -/
  records : Std.ExtTreeMap (Element D) (Record D)
deriving DecidableEq

namespace Forest

variable {D : Nat}

/-- The number of elements. -/
def size (f : Forest D) : Nat := f.records.size

/-- The elements in ascending order. -/
def elements (f : Forest D) : List (Element D) := f.records.keys

instance : Membership (Element D) (Forest D) where
  mem f e := e ∈ f.records

instance (e : Element D) (f : Forest D) : Decidable (e ∈ f) :=
  inferInstanceAs (Decidable (e ∈ f.records))

/-- The record of an element. -/
def record (f : Forest D) (e : Element D) : Except (Fault D) (Record D) :=
  match f.records[e]? with
  | some r => .ok r
  | none => .error (.unknownElement e)

/-- The records of the first elements of a layout, which list each other as neighbours. -/
def firstRecords (L : Layout D) (basis : Basis) (quadrature : Quadrature)
    (elements : List (Element D)) : Except (Fault D) (List (Element D × Record D)) :=
  elements.mapM fun e => do
    let mesh ← L.mesh e.block basis quadrature .aligned
    let neighborhood ← L.neighborhood e elements
    return (e, { neighborhood, mesh })

/-- The first elements of every block, with the meshes that their blocks start with. -/
def ofLayout (L : Layout D) (basis : Basis) (quadrature : Quadrature) :
    Except (Fault D) (Forest D) := do
  L.validate
  let records ← firstRecords L basis quadrature (← L.elements)
  return { layout := L, records := Std.ExtTreeMap.ofList records }

/-! ### Single elements -/

/-- The decision that an element publishes. -/
def proposal (f : Forest D) (config : Config D) (e : Element D) :
    Except (Fault D) (Decision D) := do
  config.proposal e (← f.record e).mesh

/-- What one cycle makes of an element, given what its neighbours publish.  A neighbour whose
proposal fails has published nothing. -/
def cycle (f : Forest D) (config : Config D) (e : Element D) : Except (Fault D) (Status D) := do
  let r ← f.record e
  config.cycle (r.site e) r.mesh fun c => (f.proposal config c).toOption

end Forest

end AdaptiveMesh
