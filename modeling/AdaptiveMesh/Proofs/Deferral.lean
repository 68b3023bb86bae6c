/-
Waiting for neighbours.

What neighbours have published enters a cycle in one place: the balancing asks for the decision of
each neighbour, and of nobody else.  So a cycle cannot tell two feeds apart that say the same of all
neighbours, and where nothing is balanced it cannot tell any two feeds apart.

If some neighbour has published nothing, the cycle is put off.  That comes after the proposal, so a
proposal that fails is not waited for, and before everything else, so nothing that fails later has
been tried.
-/
import AdaptiveMesh.Proofs.Legality

namespace AdaptiveMesh

variable {D : Nat} {config : Config D} {s : Site D} {m : Mesh D} {flags : Decision D}
  {feed feed' : Feed D}

/-! ### What an element hears

`nearby` is what is left of a feed if all is forgotten that is not about a neighbour.  A cycle that
is given the rest in place of the feed goes the same way, and feeds that say the same of all
neighbours leave the same rest. -/

/-- Two feeds say the same of all neighbours of an element. -/
def Site.HearsSame (s : Site D) (feed feed' : Feed D) : Prop :=
  ∀ c ∈ s.neighbors, feed c = feed' c

/-- What the neighbours of an element have published, and nobody else. -/
def Site.nearby (s : Site D) (feed : Feed D) : Feed D := fun c =>
  if c ∈ s.neighbors then feed c else none

namespace Site

theorem hearsSame_nearby (s : Site D) (feed : Feed D) : s.HearsSame (s.nearby feed) feed :=
  fun _ hc => if_pos hc

theorem missing_congr (h : s.HearsSame feed feed') : s.missing feed = s.missing feed' := by
  unfold missing
  refine List.filter_congr fun c hc => ?_
  rw [h c (Std.ExtTreeSet.mem_toList.1 hc)]

theorem published_congr (h : s.HearsSame feed feed') : s.published feed = s.published feed' := by
  unfold published
  refine List.filterMap_congr fun c hc => ?_
  rw [h c (Std.ExtTreeSet.mem_toList.1 hc)]

theorem balance_congr (h : s.HearsSame feed feed') (normal : Bool) (flags : Decision D) :
    s.balance normal flags feed = s.balance normal flags feed' := by
  unfold balance
  rw [missing_congr h, published_congr h]

/-- The neighbours that are waited for are listed in ascending order, none of them twice. -/
theorem ascending_missing (s : Site D) (feed : Feed D) : Ascending (s.missing feed) :=
  Ascending.filter Std.ExtTreeSet.ordered_toList _

theorem missing_ne_nil_iff : s.missing feed ≠ [] ↔ ∃ c ∈ s.neighbors, feed c = none := by
  rw [ne_eq, List.eq_nil_iff_forall_not_mem, not_forall_not]
  exact exists_congr fun c => mem_missing

end Site

/-! ### What a cycle makes of it -/

namespace Config

/-- Balancing is all that listens. -/
theorem rebalance_congr (h : s.HearsSame feed feed') (m : Mesh D) (flags : Decision D) :
    config.rebalance s m flags feed = config.rebalance s m flags feed' := by
  unfold rebalance Cycle.rebalance Cycle.settle
  rw [Site.balance_congr h]

/-- A cycle hears no more than the rebalancing of its proposal. -/
theorem cycle_eq_cycle
    (h : ∀ flags, config.rebalance s m flags feed = config.rebalance s m flags feed') :
    config.cycle s m feed = config.cycle s m feed' := by
  rw [cycle_eq, cycle_eq]
  exact congrArg _ (funext h)

theorem cycle_congr (h : s.HearsSame feed feed') (m : Mesh D) :
    config.cycle s m feed = config.cycle s m feed' :=
  cycle_eq_cycle fun flags => rebalance_congr h m flags

/-- Where nothing is balanced nobody listens. -/
theorem cycle_eq_of_not_balancing (h : ¬ (config.rules.mode = .full ∧ s.neighbors ≠ ∅)) :
    config.cycle s m feed = config.cycle s m feed' := by
  refine cycle_eq_cycle fun flags => ?_
  rw [rebalance_of_not_balancing h, rebalance_of_not_balancing h]

theorem cycle_of_proposal_eq_error {fault : Fault D}
    (h : config.proposal s.element m = .error fault) (feed : Feed D) :
    config.cycle s m feed = .error fault := by
  rw [cycle_eq, h]
  rfl

/-- A cycle is put off for the neighbours that have published nothing, once there is a proposal. -/
theorem cycle_eq_deferred_iff {missing : List (Element D)} :
    config.cycle s m feed = .ok (.deferred missing) ↔
      config.rules.mode = .full ∧ (∃ flags, config.proposal s.element m = .ok flags) ∧
        missing = s.missing feed ∧ s.missing feed ≠ [] := by
  rw [cycle_eq, bind_eq_ok]
  simp only [rebalance_eq_deferred_iff]
  constructor
  · rintro ⟨flags, hflags, hmode, hmissing⟩
    exact ⟨hmode, ⟨flags, hflags⟩, hmissing⟩
  · rintro ⟨hmode, ⟨flags, hflags⟩, hmissing⟩
    exact ⟨flags, hflags, hmode, hmissing⟩

/-- When a cycle waits, and what it hears.  It is put off exactly if the run splits and joins, the
element has a proposal, and some neighbour has published nothing; then it lists these neighbours in
ascending order.  A proposal that fails is the fault of the cycle whatever was published.  Feeds
that say the same of all neighbours are the same to the cycle, and if the run changes resolutions
only or the element has no neighbours, all feeds are. -/
theorem cycle_defers (config : Config D) (s : Site D) (m : Mesh D) :
    (∀ feed, (∃ missing, config.cycle s m feed = .ok (.deferred missing)) ↔
      config.rules.mode = .full ∧ (∃ flags, config.proposal s.element m = .ok flags) ∧
        ∃ c ∈ s.neighbors, feed c = none) ∧
    (∀ feed missing, config.cycle s m feed = .ok (.deferred missing) →
      Ascending missing ∧ missing.Nodup ∧ ∀ c, c ∈ missing ↔ c ∈ s.neighbors ∧ feed c = none) ∧
    (∀ fault, config.proposal s.element m = .error fault →
      ∀ feed, config.cycle s m feed = .error fault) ∧
    (∀ feed feed', s.HearsSame feed feed' → config.cycle s m feed = config.cycle s m feed') ∧
    (config.rules.mode = .resolutionOnly ∨ s.neighbors = ∅ →
      ∀ feed feed', config.cycle s m feed = config.cycle s m feed') := by
  refine ⟨fun feed => ?defers, fun feed missing h => ?lists,
    fun fault h feed => cycle_of_proposal_eq_error h feed,
    fun feed feed' h => cycle_congr h m,
    fun hnothing feed feed' => cycle_eq_of_not_balancing ?nothing⟩
  case defers =>
    rw [← Site.missing_ne_nil_iff]
    simp only [cycle_eq_deferred_iff]
    constructor
    · rintro ⟨missing, hmode, hproposal, -, hne⟩
      exact ⟨hmode, hproposal, hne⟩
    · rintro ⟨hmode, hproposal, hne⟩
      exact ⟨_, hmode, hproposal, rfl, hne⟩
  case lists =>
    obtain ⟨-, -, rfl, -⟩ := cycle_eq_deferred_iff.1 h
    have hascending := s.ascending_missing feed
    exact ⟨hascending, hascending.nodup, fun c => Site.mem_missing⟩
  case nothing =>
    rintro ⟨hmode, hne⟩
    rcases hnothing with hresolution | hempty
    · rw [hmode] at hresolution
      contradiction
    · exact hne hempty

end Config

section Ring

open Forest

/-- The smaller elements of the split ring have published their decisions, the larger one has not.
-/
def smallFeed : Feed 2 := fun c =>
  if c = square (1, 1) (0, 0) then none else some (.uniform .doNothing)

/-- The larger element is listed across two faces and is waited for.  A proposal that fails does not
wait for it, and what elements further away have published makes no difference. -/
theorem cycle_defers_splitRing :
    (∃ missing, turning.cycle smallSite smallRecord.mesh smallFeed = .ok (.deferred missing) ∧
      square (1, 1) (0, 0) ∈ missing) ∧
    (∃ fault, strictConfig.proposal smallSite.element smallRecord.mesh = .error fault ∧
      strictConfig.cycle smallSite smallRecord.mesh smallFeed = .error fault) ∧
    turning.cycle smallSite smallRecord.mesh (smallSite.nearby idleFeed)
      = turning.cycle smallSite smallRecord.mesh idleFeed := by
  have hlarge : square (1, 1) (0, 0) ∈ smallSite.neighbors := by decide +kernel
  have hsilent : smallFeed (square (1, 1) (0, 0)) = none := if_pos rfl
  obtain ⟨hdefers, hlists, -, hsame, -⟩ := turning.cycle_defers smallSite smallRecord.mesh
  refine ⟨?_, ?_, hsame _ _ (smallSite.hearsSame_nearby idleFeed)⟩
  · have hsplit : (turning.proposal smallSite.element smallRecord.mesh).toOption.map (·.get 0)
        = some .split := by decide +kernel
    obtain ⟨flags, hflags, -⟩ := exists_eq_ok_of_toOption hsplit
    obtain ⟨missing, h⟩ := (hdefers smallFeed).2
      ⟨by decide +kernel, ⟨flags, hflags⟩, _, hlarge, hsilent⟩
    exact ⟨missing, h, ((hlists _ _ h).2.2 _).2 ⟨hlarge, hsilent⟩⟩
  · have hfail : (strictConfig.proposal smallSite.element smallRecord.mesh).toOption = none := by
      decide +kernel
    obtain ⟨fault, h⟩ := exists_eq_error_of_toOption hfail
    exact ⟨fault, h, (strictConfig.cycle_defers _ _).2.2.1 fault h smallFeed⟩

end Ring

end AdaptiveMesh
