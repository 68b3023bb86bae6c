/-
The phases that a cycle goes through.

Every call on the cycle of an element sets out from idle and takes one of five ways.  It can fail
while the criteria are evaluated, while the policies are enforced or while the decision is acted on,
it can be put off, and it can complete.  On each of these ways every phase may follow the one before
it, and each of them ends at idle, from where the next call sets out again.  So no sequence of calls
ever enters a phase that may not follow, whatever the calls are given and however they end.

A call is given a site of its own.  It need not be that of the element whose cycle is called.
-/
import Mathlib.Data.List.Chain
import AdaptiveMesh.Round.Cycle

namespace AdaptiveMesh

variable {D : Nat} {c : Cycle} {e : Element D} {result : Except (Fault D) (Status D)}
  {phases : List Phase}

/-! ### Entering phases -/

namespace Cycle

/-- The cycle after it has entered several phases, one after another. -/
def through (c : Cycle) (phases : List Phase) : Cycle := phases.foldl enter c

theorem changes_enter (next : Phase) :
    (c.enter next).changes = (next, c.phase) :: c.changes :=
  rfl

theorem legal_enter_iff {next : Phase} :
    (c.enter next).Legal ↔ next.CanFollow c.phase ∧ c.Legal := by
  unfold Legal
  rw [changes_enter, List.forall_mem_cons]

/-- A cycle stays legal along phases each of which may follow the one before it. -/
theorem legal_through (h : List.IsChain (fun p next => next.CanFollow p) (c.phase :: phases))
    (hlegal : c.Legal) : (c.through phases).Legal := by
  induction phases generalizing c with
  | nil => exact hlegal
  | cons next phases ih =>
      obtain ⟨hfollow, hrest⟩ := List.isChain_cons_cons.1 h
      exact ih (c := c.enter next) hrest (legal_enter_iff.2 ⟨hfollow, hlegal⟩)

theorem phase_through : (c.through phases).phase = phases.getLastD c.phase := by
  induction phases generalizing c with
  | nil => rfl
  | cons next phases ih =>
      rw [List.getLastD_cons]
      exact ih (c := c.enter next)

end Cycle

/-! ### One call

A journey is a list of phases in which nothing is left of what the call was given.  To assign a
journey to every call takes all the case distinctions; that its phases may follow each other is then
checked on five lists. -/

/-- A call on the cycle of an element, with all that it is given. -/
inductive Call (D : Nat) where
  /-- Run a whole cycle. -/
  | run (config : Config D) (s : Site D) (m : Mesh D) (feed : Feed D)
  /-- Balance a decision and act on it. -/
  | rebalance (config : Config D) (s : Site D) (m : Mesh D) (current : Decision D) (feed : Feed D)

/-- What the cycle of an element answers to a call, and the cycle afterwards. -/
def Cycle.answer (c : Cycle) (e : Element D) : Call D → Except (Fault D) (Status D) × Cycle
  | .run config s m feed => c.run config s m feed e
  | .rebalance config s m current feed => c.rebalance config s m current feed e

/-- How a call can end, each with the phases that it enters on the way. -/
inductive Journey : Except (Fault D) (Status D) → List Phase → Prop where
  /-- The criteria have no common proposal. -/
  | rejected (fault : Fault D) : Journey (.error fault) [.evaluating, .fatal, .idle]
  /-- A decision is refused, or balancing fails. -/
  | refused (fault : Fault D) : Journey (.error fault) [.evaluating, .enforcing, .fatal, .idle]
  /-- The decision cannot be acted on. -/
  | failed (fault : Fault D) :
    Journey (.error fault) [.evaluating, .enforcing, .applying, .fatal, .idle]
  /-- Some neighbours have not published a decision. -/
  | deferred (missing : List (Element D)) :
    Journey (.ok (.deferred missing)) [.evaluating, .enforcing, .idle]
  /-- The decision is final. -/
  | completed (o : Outcome D) :
    Journey (.ok (.completed o)) [.evaluating, .enforcing, .applying, .idle]

namespace Journey

/-- Whichever way a call takes from idle, each phase may follow the one before it. -/
theorem isChain (h : Journey result phases) :
    List.IsChain (fun p next => next.CanFollow p) (.idle :: phases) := by
  cases h <;> decide

/-- It ends at idle. -/
theorem getLastD_eq (h : Journey result phases) (p : Phase) : phases.getLastD p = .idle := by
  cases h <;> rfl

end Journey

namespace Cycle

/-- A call answers a result and leaves the cycle where a journey to that result ends. -/
def Travels (c : Cycle) (answer : Except (Fault D) (Status D) × Cycle) : Prop :=
  ∃ phases, Journey answer.1 phases ∧ answer.2 = c.through phases

/-- The cycle once a call has come to enforcing. -/
def enforcing (c : Cycle) : Cycle := (c.enter .evaluating).enter .enforcing

variable {config : Config D} {s : Site D} {m : Mesh D} {flags : Decision D} {feed : Feed D}

theorem travels_finish : c.Travels (c.enforcing.finish e m flags) := by
  unfold finish
  cases flags.apply e m with
  | error fault => exact ⟨_, .failed fault, rfl⟩
  | ok outcome => exact ⟨_, .completed outcome, rfl⟩

theorem travels_settle : c.Travels (c.enforcing.settle config s m flags feed e) := by
  unfold settle
  split
  · split
    · next fault _ => exact ⟨_, .refused fault, rfl⟩
    · next missing _ => exact ⟨_, .deferred missing, rfl⟩
    · split
      · split
        · next fault _ => exact ⟨_, .refused fault, rfl⟩
        · exact travels_finish
      · exact travels_finish
  · exact travels_finish

theorem travels_run : c.Travels (c.run config s m feed e) := by
  unfold run propose
  cases config.propose e m with
  | error fault => exact ⟨_, .rejected fault, rfl⟩
  | ok proposal =>
      dsimp only
      cases config.enforce e m proposal with
      | error fault => exact ⟨_, .refused fault, rfl⟩
      | ok flags => exact travels_settle

/-- Every call takes one of the ways. -/
theorem travels_answer (c : Cycle) (e : Element D) (call : Call D) :
    c.Travels (c.answer e call) := by
  cases call with
  | run config s m feed => exact travels_run
  | rebalance config s m current feed => exact travels_settle

/-! ### Call after call -/

/-- The cycle of an element after several calls. -/
def after (c : Cycle) (e : Element D) (calls : List (Call D)) : Cycle :=
  calls.foldl (fun c call => (c.answer e call).2) c

/-- A cycle between two calls: it is idle and has never entered a phase that may not follow. -/
structure Ready (c : Cycle) : Prop where
  /-- No call is under way. -/
  idle : c.phase = .idle
  /-- Every phase could follow the one before it. -/
  legal : c.Legal

theorem ready_fresh : fresh.Ready := ⟨rfl, by decide⟩

/-- A call leaves a cycle as ready as it was. -/
theorem Ready.answer (h : c.Ready) (e : Element D) (call : Call D) :
    (c.answer e call).2.Ready := by
  obtain ⟨phases, hjourney, heq⟩ := travels_answer c e call
  rw [heq]
  exact {
    idle := phase_through.trans (hjourney.getLastD_eq _)
    legal := legal_through (h.idle ▸ hjourney.isChain) h.legal }

theorem Ready.after (h : c.Ready) (e : Element D) (calls : List (Call D)) :
    (c.after e calls).Ready := by
  induction calls generalizing c with
  | nil => exact h
  | cons call calls ih => exact ih (h.answer e call)

/-- After any calls the cycle of an element is idle, and every phase that it has entered could
follow the one before it.  The next call takes one of the five ways to its result. -/
theorem after_legal (e : Element D) (calls : List (Call D)) :
    (fresh.after e calls).phase = .idle ∧ (fresh.after e calls).Legal ∧
      ∀ call, (fresh.after e calls).Travels ((fresh.after e calls).answer e call) := by
  have hready := ready_fresh.after e calls
  exact ⟨hready.idle, hready.legal, fun call => travels_answer _ e call⟩

/-- Not every cycle is legal: nothing is applied before it was enforced. -/
example : ¬ (fresh.through [.evaluating, .applying]).Legal := by decide

end Cycle

end AdaptiveMesh
