/-
A round of refinement over a whole forest.

Every element publishes a decision.  Then all elements balance their decisions
against those of the pass before, over and over, until a pass changes nothing; only
then is anything done to the forest.  Changes of resolution come first, then splits,
then joins.  A join takes place if all siblings agreed on it; otherwise the elements
keep only what happens to their meshes.

The passes are counted, and a round that needs too many gives up.  A pass that goes on
has changed some flag of some element, which happens at most three times for each
element and axis.
-/
import AdaptiveMesh.Forest.Edit

namespace AdaptiveMesh

/-- The decisions of elements. -/
abbrev Decisions (D : Nat) := Std.ExtTreeMap (Element D) (Decision D)

/-- What a round did. -/
structure Summary where
  /-- The passes until no decision changed. -/
  passes : Nat := 0
  /-- The elements that remained with another mesh. -/
  refined : Nat := 0
  /-- The elements that were split. -/
  splits : Nat := 0
  /-- The parents that replaced their children. -/
  joins : Nat := 0
  /-- The joins on which not all siblings agreed. -/
  abandonedJoins : Nat := 0
  /-- The elements that lacked a neighbour's decision in the last pass. -/
  deferred : Nat := 0
  /-- The changes that remaining elements saw across their faces. -/
  changes : Nat := 0
deriving DecidableEq, Repr

/-- Decisions that a pass left as they were. -/
structure Settlement (D : Nat) where
  /-- The passes it took. -/
  passes : Nat
  /-- What each element does, in ascending order. -/
  outcomes : List (Outcome D)
  /-- The elements that lacked a neighbour's decision. -/
  deferred : Nat
deriving DecidableEq

namespace Status

variable {D : Nat}

/-- What the element does, if its decision is final. -/
def outcome? : Status D → Option (Outcome D)
  | completed outcome => some outcome
  | deferred _ => none

end Status

namespace Forest

variable {D : Nat}

/-! ### Deciding

A pass reads the decisions of the pass before, and its own are adopted only when it is through with
all elements.  So in which order it goes through them is of no consequence for what they decide. -/

/-- The decisions that elements publish, asked one after another. -/
def proposals (f : Forest D) (config : Config D) (order : List (Element D)) :
    Except (Fault D) (Decisions D) :=
  order.foldlM (fun decisions e => return decisions.insert e (← f.proposal config e)) ∅

/-- Balances the decision of one element. -/
def rebalance (f : Forest D) (config : Config D) (decisions : Decisions D) (e : Element D) :
    Except (Fault D) (Status D) := do
  let r ← f.record e
  match decisions[e]? with
  | none => throw (.unknownElement e)
  | some current => config.rebalance (r.site e) r.mesh current fun c => decisions[c]?

/-- Balances the decision of every element against the given decisions. -/
def pass (f : Forest D) (config : Config D) (decisions : Decisions D) :
    Except (Fault D) (List (Status D)) :=
  f.elements.mapM (f.rebalance config decisions)

/-- The decisions after a pass. -/
def adopt (decisions : Decisions D) (outcomes : List (Outcome D)) : Decisions D :=
  decisions.insertMany (outcomes.map fun o => (o.element, o.flags))

/-- The number of passes after which a round gives up. -/
def passBudget (f : Forest D) : Nat := 3 * D * f.size + 2

/-- Passes until no decision changes, or until none are left. -/
def settle (f : Forest D) (config : Config D) :
    (remaining passes : Nat) → Decisions D → Except (Fault D) (Settlement D)
  | 0, passes, _ => .error (.unsettled passes)
  | remaining + 1, passes, decisions => do
    let statuses ← f.pass config decisions
    let outcomes := statuses.filterMap Status.outcome?
    if ∀ o ∈ outcomes, decisions[o.element]? = some o.flags then
      return ⟨passes + 1, outcomes, statuses.length - outcomes.length⟩
    else f.settle config remaining (passes + 1) (adopt decisions outcomes)

/-- What every element does in a round, with the proposals asked for in the given order. -/
def settlement (f : Forest D) (config : Config D) (order : List (Element D)) :
    Except (Fault D) (Settlement D) := do
  f.settle config f.passBudget 0 (← f.proposals config order)

/-! ### Acting

The steps are listed ahead, from the outcomes alone.  What a step needs to know of the forest is
looked up when its turn comes, in the forest that the steps before it have left. -/

/-- One step in which a round changes a forest. -/
inductive Step (D : Nat) where
  /-- An element remains, with the mesh of its outcome. -/
  | remain (outcome : Outcome D)
  /-- An element is split into children that start from the mesh. -/
  | split (element : Element D) (children : List (Element D)) (mesh : Mesh D)
  /-- The elements with these outcomes want to join into the parent. -/
  | join (parent : Element D) (first : Outcome D) (others : List (Outcome D))
deriving DecidableEq

/-- The elements that want to join into a parent. -/
def joining (outcomes : List (Outcome D)) (parent : Element D) : List (Outcome D) :=
  outcomes.filter fun o => o.replacement = some (.join parent)

/-- The parents into which some element wants to join. -/
def parents (outcomes : List (Outcome D)) : ElementSet D :=
  Std.ExtTreeSet.ofList (outcomes.filterMap fun o =>
    match o.replacement with
    | some (.join parent) => some parent
    | _ => none)

/-- The steps that carry out what the elements decided. -/
def steps (outcomes : List (Outcome D)) : List (Step D) :=
  (outcomes.filterMap fun o => if o.replacement = none then some (.remain o) else none)
    ++ (outcomes.filterMap fun o =>
      match o.replacement with
      | some (.split children) => some (.split o.element children o.mesh)
      | _ => none)
    ++ ((parents outcomes).toList.filterMap fun parent =>
      match joining outcomes parent with
      | [] => none
      | first :: others => some (.join parent first others))

/-- The forest with another mesh for an element. -/
def setMesh (f : Forest D) (e : Element D) (mesh : Mesh D) : Forest D :=
  { f with records := f.records.modify e fun r => { r with mesh } }

/-- The mesh of an element, if it is in the forest. -/
def mesh? (f : Forest D) (e : Element D) : Option (Mesh D) := f.records[e]?.map (·.mesh)

/-- For each axis the largest extent of several outcomes. -/
def largestExtents (first : Outcome D) (others : List (Outcome D)) : Vector Nat D :=
  Vector.ofFn fun d =>
    others.foldl (fun n o => max n (o.mesh.extents.get d)) (first.mesh.extents.get d)

/-- Joins elements into their parent, or gives the join up if a sibling is missing. -/
def performJoin (f : Forest D) (s : Summary) (parent : Element D) (first : Outcome D)
    (others : List (Outcome D)) : Except (Fault D) (Forest D × Summary) := do
  let group := first :: others
  let siblings ← (first.element.siblings first.flags).mapError Fault.ofFamily
  if (Std.ExtTreeSet.ofList siblings : ElementSet D)
      = Std.ExtTreeSet.ofList (group.map (·.element)) then
    let mesh ← (first.mesh.withExtents (largestExtents first others)).mapError Fault.ofMesh
    let edit ← f.join parent mesh
    return (edit.forest, { s with
      joins := s.joins + 1
      changes := s.changes + edit.changes.length })
  else
    return (group.foldl (fun f o => f.setMesh o.element o.mesh) f,
      { s with abandonedJoins := s.abandonedJoins + 1 })

/-- Carries out one step and counts it. -/
def perform (f : Forest D) (s : Summary) : Step D → Except (Fault D) (Forest D × Summary)
  | .remain o =>
    if f.mesh? o.element = none ∨ f.mesh? o.element = some o.mesh then .ok (f, s)
    else .ok (f.setMesh o.element o.mesh, { s with refined := s.refined + 1 })
  | .split e children mesh => do
    let edit ← f.split e children mesh
    return (edit.forest, { s with
      splits := s.splits + 1
      changes := s.changes + edit.changes.length })
  | .join parent first others => f.performJoin s parent first others

/-- Carries out steps one after another, up to the first that fails.  What was carried out before
stays. -/
def carryOut (f : Forest D) (s : Summary) : List (Step D) → Except (Fault D) Summary × Forest D
  | [] => (.ok s, f)
  | step :: rest =>
    match f.perform s step with
    | .error fault => (.error fault, f)
    | .ok (next, counted) => next.carryOut counted rest

/-! ### The round -/

/-- One round in which the proposals are asked for in the given order.  The forest is returned
whether or not the round fails. -/
def refineInOrder (f : Forest D) (config : Config D) (order : List (Element D)) :
    Except (Fault D) Summary × Forest D :=
  match f.settlement config order with
  | .error fault => (.error fault, f)
  | .ok s => f.carryOut { passes := s.passes, deferred := s.deferred } (steps s.outcomes)

/-- One round over the whole forest. -/
def refine (f : Forest D) (config : Config D) : Except (Fault D) Summary × Forest D :=
  f.refineInOrder config f.elements

end Forest

end AdaptiveMesh
