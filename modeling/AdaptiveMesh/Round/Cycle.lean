/-
The refinement cycle of one element.

A cycle evaluates the criteria, enforces the policies, balances the decision against
the neighbours and turns it into a new mesh and, if the element splits or joins, into
other elements.  It works on values, so a cycle that fails leaves nothing behind.

Where a cycle stands is its phase.  `Cycle` keeps the phase and every phase that was
entered before it; `Phase.CanFollow` says which phase may come after which, and
whatever happens in a cycle, it ends where it began, ready for the next one.
-/
import AdaptiveMesh.Policy.Config
import AdaptiveMesh.Round.Balance

namespace AdaptiveMesh

/-! ### Phases -/

/-- Where a cycle stands. -/
inductive Phase where
  | idle
  | evaluating
  | enforcing
  | applying
  | fatal
deriving DecidableEq, Repr

namespace Phase

/-- The phase's name. -/
def name : Phase → String
  | idle => "Idle"
  | evaluating => "Evaluating"
  | enforcing => "Enforcing"
  | applying => "Applying"
  | fatal => "Fatal"

/-- All phases. -/
def all : List Phase := [idle, evaluating, enforcing, applying, fatal]

/-- The phase with a name. -/
def ofName? (s : String) : Option Phase := all.find? fun p => p.name = s

/-- The phases that may follow a phase.  A cycle that waits for its neighbours goes from enforcing
straight back to idle. -/
def followers : Phase → List Phase
  | idle => [evaluating]
  | evaluating => [enforcing, fatal]
  | enforcing => [applying, fatal, idle]
  | applying => [idle, fatal]
  | fatal => [idle]

/-- The second phase may follow the first. -/
def CanFollow (next p : Phase) : Prop := next ∈ p.followers

instance (next p : Phase) : Decidable (next.CanFollow p) :=
  inferInstanceAs (Decidable (_ ∈ p.followers))

end Phase

/-! ### Outcomes -/

/-- How an element is replaced by others. -/
inductive Replacement (D : Nat) where
  /-- By its children. -/
  | split (children : List (Element D))
  /-- Together with its siblings, by their parent. -/
  | join (parent : Element D)
deriving DecidableEq

/-- What an element does once its decision is final. -/
structure Outcome (D : Nat) where
  /-- The element. -/
  element : Element D
  /-- The decision. -/
  flags : Decision D
  /-- The mesh after any change of resolution; new elements start from it. -/
  mesh : Mesh D
  /-- The elements that take its place, if any. -/
  replacement : Option (Replacement D)
deriving DecidableEq

namespace Outcome

variable {D : Nat}

/-- Neither the element nor its mesh changes. -/
def Unchanged (o : Outcome D) (before : Mesh D) : Prop :=
  o.replacement = none ∧ o.mesh = before

instance (o : Outcome D) (before : Mesh D) : Decidable (o.Unchanged before) :=
  inferInstanceAs (Decidable (_ ∧ _))

end Outcome

/-- How a cycle ends, faults apart. -/
inductive Status (D : Nat) where
  /-- The decision is final. -/
  | completed (outcome : Outcome D)
  /-- These neighbours have not published a decision yet. -/
  | deferred (missing : List (Element D))
deriving DecidableEq

/-! ### Acting on a decision

The extents come before the family.  A decision that can be had in neither way is refused over its
extents, and by then nothing has been replaced. -/

/-- The extent that a flag leaves of an extent. -/
def Flag.newExtent (f : Flag) (extent : Nat) : Nat :=
  match f with
  | .increaseResolution => extent + 1
  | .decreaseResolution => extent - 1
  | _ => extent

namespace Decision

variable {D : Nat}

/-- The first axis whose extent cannot be counted up any further. -/
def uncountable? (flags : Decision D) (m : Mesh D) : Option (Fault D) :=
  firstFound? fun d =>
    if flags.get d = .increaseResolution ∧ unbounded ≤ m.extents.get d then
      some (.invalidExtent d (m.extents.get d) (m.minimumExtent d))
    else none

/-- The elements that take an element's place under a decision. -/
def replacement (flags : Decision D) (e : Element D) :
    Except (Element.FamilyFault D) (Option (Replacement D)) :=
  if flags.Has .split then do return some (.split (← e.children flags))
  else if flags.Has .join then do return some (.join (← e.parent flags))
  else .ok none

/-- What an element does under a decision that is final. -/
def apply (flags : Decision D) (e : Element D) (m : Mesh D) : Except (Fault D) (Outcome D) :=
  match flags.uncountable? m with
  | some fault => .error fault
  | none => do
    let extents := Vector.ofFn fun d : Fin D => (flags.get d).newExtent (m.extents.get d)
    let mesh ← (m.withExtents extents).mapError Fault.ofMesh
    let replacement ← (flags.replacement e).mapError Fault.ofFamily
    return { element := e, flags, mesh, replacement }

end Decision

/-! ### The cycle

`propose` and `settle` are the two halves of a cycle.  A round over a forest goes through the first
half once for each element, and through the second half in every pass, with whatever the proposals
have become. -/

/-- The progress of one element's cycles. -/
structure Cycle where
  /-- Where the cycle stands. -/
  phase : Phase := .idle
  /-- Where it stood before, the latest phase first. -/
  past : List Phase := []
deriving DecidableEq, Repr

namespace Cycle

variable {D : Nat}

/-- The cycle of an element before its first round. -/
def fresh : Cycle := {}

/-- The cycle in another phase. -/
def enter (c : Cycle) (next : Phase) : Cycle := ⟨next, c.phase :: c.past⟩

/-- The cycle after a fault: back to idle by way of the fatal phase. -/
def abort (c : Cycle) : Cycle := (c.enter .fatal).enter .idle

/-- Each change of phase so far: the phase entered, and the one it was entered from. -/
def changes (c : Cycle) : List (Phase × Phase) := (c.phase :: c.past).zip c.past

/-- Every phase that was entered may follow the one it was entered from. -/
def Legal (c : Cycle) : Prop := ∀ change ∈ c.changes, change.1.CanFollow change.2

instance (c : Cycle) : Decidable c.Legal :=
  inferInstanceAs (Decidable (∀ change ∈ c.changes, change.1.CanFollow change.2))

/-- Evaluates the criteria and enforces the policies, which leaves the cycle enforcing. -/
def propose (c : Cycle) (config : Config D) (e : Element D) (m : Mesh D) :
    Except (Fault D) (Decision D) × Cycle :=
  let evaluating := c.enter .evaluating
  match config.propose e m with
  | .error fault => (.error fault, evaluating.abort)
  | .ok proposal =>
    let enforcing := evaluating.enter .enforcing
    match config.enforce e m proposal with
    | .error fault => (.error fault, enforcing.abort)
    | .ok flags => (.ok flags, enforcing)

/-- Acts on a decision that is final. -/
def finish (c : Cycle) (e : Element D) (m : Mesh D) (flags : Decision D) :
    Except (Fault D) (Status D) × Cycle :=
  let applying := c.enter .applying
  match flags.apply e m with
  | .error fault => (.error fault, applying.abort)
  | .ok outcome => (.ok (.completed outcome), applying.enter .idle)

/-- Balances an enforced decision, enforces it again if that changed it, and acts on it.  A run that
changes resolutions only has nothing to balance, and neither has an element without neighbours.

The cycle is that of an element `e`, which is the one at the site unless said otherwise.  Only
balancing looks at the site. -/
def settle (c : Cycle) (config : Config D) (s : Site D) (m : Mesh D) (flags : Decision D)
    (feed : Feed D) (e : Element D := s.element) : Except (Fault D) (Status D) × Cycle :=
  if config.rules.mode = .full ∧ s.neighbors ≠ ∅ then
    match s.balance config.policies.balanceNormal flags feed with
    | .error fault => (.error fault, c.abort)
    | .ok (.missing elements) => (.ok (.deferred elements), c.enter .idle)
    | .ok (.balanced revision) =>
      if revision.changed then
        match config.enforce e m revision.flags with
        | .error fault => (.error fault, c.abort)
        | .ok enforced => c.finish e m enforced
      else c.finish e m revision.flags
  else c.finish e m flags

/-- Runs a whole cycle of an element. -/
def run (c : Cycle) (config : Config D) (s : Site D) (m : Mesh D) (feed : Feed D)
    (e : Element D := s.element) : Except (Fault D) (Status D) × Cycle :=
  match c.propose config e m with
  | (.error fault, c) => (.error fault, c)
  | (.ok flags, c) => c.settle config s m flags feed e

/-- Balances and acts on a decision that was enforced before, without asking the criteria again. -/
def rebalance (c : Cycle) (config : Config D) (s : Site D) (m : Mesh D) (current : Decision D)
    (feed : Feed D) (e : Element D := s.element) : Except (Fault D) (Status D) × Cycle :=
  ((c.enter .evaluating).enter .enforcing).settle config s m current feed e

end Cycle

namespace Config

variable {D : Nat}

/-- The enforced decision of an element before any balancing, which it publishes. -/
def proposal (config : Config D) (e : Element D) (m : Mesh D) : Except (Fault D) (Decision D) :=
  (Cycle.fresh.propose config e m).1

/-- What one cycle makes of an element. -/
def cycle (config : Config D) (s : Site D) (m : Mesh D) (feed : Feed D) :
    Except (Fault D) (Status D) :=
  (Cycle.fresh.run config s m feed).1

/-- What one cycle makes of an element whose decision was enforced before. -/
def rebalance (config : Config D) (s : Site D) (m : Mesh D) (current : Decision D)
    (feed : Feed D) : Except (Fault D) (Status D) :=
  (Cycle.fresh.rebalance config s m current feed).1

end Config

end AdaptiveMesh
