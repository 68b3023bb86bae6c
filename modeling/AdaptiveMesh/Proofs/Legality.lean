/-
What one cycle of an element comes to.

A cycle goes through the criteria, the policies, the balancing and the policies once more, and
then acts on the decision.  If it completes, the decision that the element acted on was enforced,
on whichever way it came about: it was the proposal itself, or balancing left it as it was, or it
was enforced again.  Enforcing leaves such a decision alone, and everything that is said of the
outcome follows from that and from how acting on a decision is defined.

A cycle is meant to fail in one way only: the policies refuse a decision.  The criteria were
checked up front, balancing compares with neighbours only, and an element can act on a decision
that was enforced as long as there is room for every step it takes.  Two things come between.
Balancing breaks off at a neighbour that is listed where the element has no face, and a step down
can get past the limits unseen.  A cycle keeps to the law exactly if it meets neither.
-/
import AdaptiveMesh.Proofs.Faults
import AdaptiveMesh.Proofs.Reachable

namespace AdaptiveMesh

variable {D : Nat} {config : Config D} {s : Site D} {e : Element D} {m : Mesh D}
  {flags given : Decision D} {feed : Feed D} {o : Outcome D} {fault : Fault D}

/-! ### Lawful outcomes

The law looks at an element, its mesh and an outcome, and not at the way that led from the one to
the other.  An outcome of a decision that was enforced obeys all of it but one part: that an extent
which goes down stays within the limits is lost if the step is overlooked. -/

/-- What an outcome has to be like, given the element and the mesh that the cycle started from. -/
structure Outcome.Lawful (config : Config D) (e : Element D) (m : Mesh D) (o : Outcome D) :
    Prop where
  /-- It is an outcome of the element. -/
  element_eq : o.element = e
  /-- The policies leave the decision as it is. -/
  enforced : config.enforce e m o.flags = .ok o.flags
  /-- No axis is left open. -/
  closed : ∀ d, o.flags.get d ≠ .undefined
  /-- The element does not split along one axis and join along another. -/
  not_both : ¬ (o.flags.Has .split ∧ o.flags.Has .join)
  /-- A run that changes resolutions only neither splits nor joins. -/
  mode : config.rules.mode = .resolutionOnly → ¬ o.flags.Has .split ∧ ¬ o.flags.Has .join
  /-- If the run is isotropic, all axes do the same. -/
  isotropy : config.policies.isotropy = .isotropic → ∀ c d, o.flags.get c = o.flags.get d
  /-- The mesh keeps its basis and its quadrature. -/
  alike : o.mesh.basis = m.basis ∧ o.mesh.quadrature = m.quadrature
  /-- An extent goes up by one, down by one or stays, as flagged. -/
  extents : ∀ d, (o.flags.get d = .increaseResolution →
      o.mesh.extents.get d = m.extents.get d + 1) ∧
    (o.flags.get d = .decreaseResolution → o.mesh.extents.get d + 1 = m.extents.get d) ∧
    (¬ (o.flags.get d).IsResolution → o.mesh.extents.get d = m.extents.get d)
  /-- A split does not lead above the highest level. -/
  split_le : ∀ d, o.flags.get d = .split →
    (e.segment d).level + 1 ≤ config.policies.limits.maxLevel.get d
  /-- A join does not lead below the lowest level. -/
  le_join : ∀ d, o.flags.get d = .join →
    config.policies.limits.minLevel.get d + 1 ≤ (e.segment d).level
  /-- An extent that goes up stays within what the limits and the basis allow. -/
  increase_le : ∀ d, o.flags.get d = .increaseResolution →
    o.mesh.extents.get d ≤ min (config.policies.limits.maxExtent.get d) (m.maximumExtent d)
  /-- An extent that goes down stays within what the limits and the quadrature allow. -/
  le_decrease : ∀ d, o.flags.get d = .decreaseResolution →
    max (config.policies.limits.minExtent.get d) (m.minimumExtent d) ≤ o.mesh.extents.get d
  /-- An element that splits is replaced by its children. -/
  splits : ∀ l, o.replacement = some (.split l) ↔
    o.flags.Has .split ∧ e.children o.flags = .ok l
  /-- An element that joins is replaced by its parent. -/
  joins : ∀ p, o.replacement = some (.join p) ↔
    ¬ o.flags.Has .split ∧ o.flags.Has .join ∧ e.parent o.flags = .ok p
  /-- Any other element remains. -/
  remains : o.replacement = none ↔ ¬ o.flags.Has .split ∧ ¬ o.flags.Has .join

/-- No step down to a lawful outcome got past the limits unseen: below a smallest extent after which
there is none, no extent is large enough. -/
theorem Outcome.Lawful.not_overlooks (h : o.Lawful config e m)
    (hm : ∀ d, m.extents.get d < unbounded) (d : Fin D) :
    ¬ config.policies.limits.Overlooks o.flags d := by
  intro hoverlooks
  have hle := h.le_decrease d hoverlooks.1
  have hextent := (h.extents d).2.1 hoverlooks.1
  have hlt := hm d
  have hmin := hoverlooks.2
  omega

/-- Acting on an enforced decision comes to a lawful outcome if no step down gets past the limits
unseen. -/
theorem Outcome.lawful_of_apply (hm : ∀ d, m.extents.get d < unbounded)
    (h : config.enforce e m flags = .ok flags) (happly : flags.apply e m = .ok o)
    (hno : ∀ d, ¬ config.policies.limits.Overlooks flags d) : o.Lawful config e m := by
  obtain ⟨he, rfl, hreplacement, -⟩ := Decision.apply_eq_ok happly
  obtain ⟨hextent, halike⟩ := Decision.mesh_of_apply happly
  have hnone := Policies.crossing?_eq_none_of_enforce h
  have hreplaced : ∀ r, o.replacement = r ↔ o.flags.replacement e = .ok r := by
    intro r
    rw [hreplacement, Except.ok.injEq]
  refine {
    element_eq := he
    enforced := h
    closed := Policies.get_ne_undefined_of_enforce h
    not_both := fun hboth => Policies.not_has_join_of_enforce h hboth.1 hboth.2
    mode := (Policies.permits_of_enforce h).not_has
    isotropy := fun hp c d => ?isotropy
    alike := halike
    extents := fun d => ?extents
    split_le := fun d hd => ?split_le
    le_join := fun d hd => ?le_join
    increase_le := fun d hd => ?increase_le
    le_decrease := fun d hd => ?le_decrease
    splits := fun l => (hreplaced _).trans Decision.replacement_eq_split_iff
    joins := fun p => (hreplaced _).trans Decision.replacement_eq_join_iff
    remains := (hreplaced _).trans Decision.replacement_eq_none_iff }
  case isotropy =>
    obtain ⟨flag, heq⟩ := Policies.exists_uniform_of_enforce hp h
    rw [heq, Decision.get_uniform, Decision.get_uniform]
  case extents =>
    have hpos := Nat.lt_of_lt_of_le (Quadrature.minimumExtent_pos _) (m.minimum_le d)
    refine ⟨fun hd => ?_, fun hd => ?_, fun hd => ?_⟩
    · rw [hextent, hd, Flag.newExtent]
    · rw [hextent, hd, Flag.newExtent]
      omega
    · rw [hextent, Flag.newExtent_of_not_isResolution hd]
  case split_le =>
    have hroom := hnone d
    rwa [hd, Limits.crossing?_split_eq_none_iff] at hroom
  case le_join =>
    have hroom := hnone d
    rwa [hd, Limits.crossing?_join_eq_none_iff] at hroom
  case increase_le =>
    have hroom := hnone d
    rw [hd, Limits.crossing?_increaseResolution_eq_none_iff] at hroom
    rw [hextent, hd, Flag.newExtent]
    exact hroom.resolve_left (Nat.not_le.2 (hm d))
  case le_decrease =>
    have hroom := hnone d
    rw [hd, Limits.crossing?_decreaseResolution_eq_none_iff] at hroom
    have hle := hroom.resolve_left fun hle => hno d ⟨hd, hle⟩
    rw [hextent, hd, Flag.newExtent]
    omega

/-- Acting on an enforced decision comes to a lawful outcome exactly if no step down got past the
limits unseen. -/
theorem Outcome.lawful_iff_of_apply (hm : ∀ d, m.extents.get d < unbounded)
    (h : config.enforce e m flags = .ok flags) (happly : flags.apply e m = .ok o) :
    o.Lawful config e m ↔ ∀ d, ¬ config.policies.limits.Overlooks flags d := by
  refine ⟨fun hlawful => ?_, lawful_of_apply hm h happly⟩
  obtain ⟨-, rfl, -⟩ := Decision.apply_eq_ok happly
  exact hlawful.not_overlooks hm

/-! ### The cycle

What stands between a cycle and the law is said of the decision that was proposed and of those that
come of it.  If there is no proposal, the policies have refused one, and a cycle that waits for
neighbours has not acted on anything. -/

/-- A cycle is a proposal that is rebalanced. -/
theorem Config.cycle_eq (config : Config D) (s : Site D) (m : Mesh D) (feed : Feed D) :
    config.cycle s m feed
      = config.proposal s.element m >>= fun flags => config.rebalance s m flags feed := by
  unfold cycle proposal rebalance Cycle.run Cycle.rebalance Cycle.propose
  cases config.propose s.element m with
  | error fault => rfl
  | ok given =>
      dsimp only
      cases config.enforce s.element m given <;> rfl

/-- What an enforced decision that is rebalanced fails over, and what comes of it, is as it should
be exactly if the balancing does not break off and nothing that it settles on gets past the limits
unseen. -/
theorem Config.lawful_rebalance_iff (hm : ∀ d, m.extents.get d < unbounded)
    (he : config.enforce s.element m flags = .ok flags) :
    ((∀ fault, config.rebalance s m flags feed = .error fault →
        config.policies.Refusal s.element fault) ∧
      ∀ o, config.rebalance s m flags feed = .ok (.completed o) → o.Lawful config s.element m) ↔
      (config.rules.mode = .full → ¬ s.BreaksOff feed) ∧
        ∀ final, Settles config s m flags feed final →
          ∀ d, ¬ config.policies.limits.Overlooks final d := by
  constructor
  · rintro ⟨hfaults, houtcomes⟩
    refine ⟨fun hfull hbreaks => ?_, fun final hsettles => ?_⟩
    · obtain ⟨c, hc⟩ := rebalance_of_breaksOff hfull hbreaks m flags
      cases hfaults _ hc
    · have henforced := hsettles.enforce_eq_self he
      cases happly : final.apply s.element m with
      | error fault =>
          -- there is no such extent, and that is not for the policies to say
          obtain ⟨d, extent, minimum, rfl⟩ := Decision.apply_eq_error henforced happly
          cases hfaults _ (by rw [hsettles.rebalance_eq, happly]; rfl)
      | ok o =>
          have hlawful := houtcomes o (by rw [hsettles.rebalance_eq, happly]; rfl)
          exact (Outcome.lawful_iff_of_apply hm henforced happly).1 hlawful
  · rintro ⟨hfaces, hlimits⟩
    refine ⟨fun fault h => ?_, fun o h => ?_⟩
    · cases rebalance_eq_error h with
      | brokenOff hfull hbreaks _ _ => exact absurd hbreaks (hfaces hfull)
      | refused hbalance h => exact Policies.enforce_eq_error h
      | @stuck final hsettles h =>
          have henforced := hsettles.enforce_eq_self he
          obtain ⟨o, ho⟩ := Decision.exists_apply henforced
            (Decision.attainable_of_enforce henforced hm (hlimits final hsettles))
          rw [ho] at h
          contradiction
    · obtain ⟨final, hsettles, happly⟩ := rebalance_eq_completed h
      exact (Outcome.lawful_iff_of_apply hm (hsettles.enforce_eq_self he) happly).2
        (hlimits final hsettles)

/-- The balancing does not break off, and the decision that comes of it has no step down that gets
past the limits unseen. -/
structure Config.Keeps (config : Config D) (s : Site D) (m : Mesh D) (feed : Feed D) : Prop where
  /-- No neighbour is met where the element has no face. -/
  faces : ∀ flags, config.proposal s.element m = .ok flags → config.rules.mode = .full →
    ¬ s.BreaksOff feed
  /-- No step down is overlooked. -/
  limits : ∀ flags final, config.proposal s.element m = .ok flags →
    Settles config s m flags feed final → ∀ d, ¬ config.policies.limits.Overlooks final d

/-- A cycle fails only if the policies refuse a decision, and if it completes its outcome is lawful:
for every element, whatever neighbours it is told to have and whatever they publish, exactly if it
meets no neighbour where the element has no face and overlooks no step down. -/
theorem Config.cycle_lawful_iff (config : Config D) (s : Site D) (m : Mesh D) (feed : Feed D)
    (hm : ∀ d, m.extents.get d < unbounded) :
    ((∀ fault, config.cycle s m feed = .error fault → config.policies.Refusal s.element fault) ∧
      ∀ o, config.cycle s m feed = .ok (.completed o) → o.Lawful config s.element m) ↔
      config.Keeps s m feed := by
  rw [config.cycle_eq]
  cases hproposal : config.proposal s.element m with
  | error fault =>
      obtain ⟨given, -, h⟩ := proposal_eq_error hproposal
      refine iff_of_true ⟨fun fault' h' => ?_, fun o h' => by contradiction⟩ ⟨?_, ?_⟩
      · obtain rfl : fault = fault' := Except.error.inj h'
        exact Policies.enforce_eq_error h
      · intro flags hflags
        rw [hproposal] at hflags
        contradiction
      · intro flags final hflags
        rw [hproposal] at hflags
        contradiction
  | ok flags =>
      obtain ⟨given, -, h⟩ := proposal_eq_ok hproposal
      have he := Policies.enforce_eq_self h
      show (∀ fault, config.rebalance s m flags feed = .error fault → _) ∧
        (∀ o, config.rebalance s m flags feed = .ok (.completed o) → _) ↔ _
      rw [lawful_rebalance_iff hm he]
      constructor
      · rintro ⟨hfaces, hlimits⟩
        refine ⟨fun flags' hflags => ?_, fun flags' final hflags => ?_⟩ <;>
          obtain rfl := Except.ok.inj (hproposal.symm.trans hflags)
        · exact hfaces
        · exact hlimits final
      · intro hkeeps
        exact ⟨hkeeps.faces flags hproposal, fun final => hkeeps.limits flags final hproposal⟩

section Ring

open Forest

/-- The record of one of the smaller elements of the split ring. -/
def smallRecord : Record 2 := splitRing.records[square (1, 0) (1, 0)]?.get (by decide +kernel)

/-- The site of that element. -/
def smallSite : Site 2 := smallRecord.site (square (1, 0) (1, 0))

/-- Neighbours that stay as they are. -/
def idleFeed : Feed 2 := fun _ => some (.uniform .doNothing)

theorem smallRecord_lt_unbounded : ∀ d, smallRecord.mesh.extents.get d < unbounded := by
  decide +kernel

/-- An element of a forest has neighbours across its faces only, and with a smallest extent that has
a next one nothing is overlooked. -/
theorem keeps_smallSite (config : Config 2)
    (hmin : ∀ d, config.policies.limits.minExtent.get d < unbounded) :
    config.Keeps smallSite smallRecord.mesh idleFeed where
  faces _ _ _ hbreaks := hbreaks.2 rfl
  limits _ _ _ _ d hoverlooks := absurd hoverlooks.2 (Nat.not_le.2 (hmin d))

/-- Between neighbours that stay as they are, a smaller element of the ring fails in the strict run.
In a run without limits it splits along the first axis and does not join along the second. -/
theorem cycle_lawful_iff_splitRing :
    (∃ fault, strictConfig.cycle smallSite smallRecord.mesh idleFeed = .error fault ∧
      strictConfig.policies.Refusal smallSite.element fault) ∧
    ∃ o, turning.cycle smallSite smallRecord.mesh idleFeed = .ok (.completed o) ∧
      o.flags = #v[.split, .doNothing] ∧ o.Lawful turning smallSite.element smallRecord.mesh := by
  constructor
  · have hfail : (strictConfig.cycle smallSite smallRecord.mesh idleFeed).toOption = none := by
      decide +kernel
    obtain ⟨fault, h⟩ := exists_eq_error_of_toOption hfail
    have hlawful := (strictConfig.cycle_lawful_iff _ _ idleFeed smallRecord_lt_unbounded).2
      (keeps_smallSite strictConfig (by decide +kernel))
    exact ⟨fault, h, hlawful.1 fault h⟩
  · have hflags : (match turning.cycle smallSite smallRecord.mesh idleFeed with
        | .ok (.completed o) => some o.flags
        | _ => none) = some #v[.split, .doNothing] := by
      decide +kernel
    have hlawful := (turning.cycle_lawful_iff _ _ idleFeed smallRecord_lt_unbounded).2
      (keeps_smallSite turning (by decide +kernel))
    split at hflags
    · next o h => exact ⟨o, h, Option.some.inj hflags, hlawful.2 o h⟩
    · contradiction

end Ring

section Line

/-- A run on one axis towards four points, although the limits ask for the largest extent there
is. -/
def endlessConfig : Config 1 where
  criteria := [.driveToTarget {
    extents := #v[4]
    levels := #v[0]
    extents_pos := by decide
    levels_le := by decide
    flags_ne := by decide }]
  policies := {
    limits := {
      minLevel := #v[0]
      maxLevel := #v[16]
      minExtent := #v[unbounded]
      maxExtent := #v[unbounded]
      minLevel_le := by decide
      maxLevel_le := by decide
      minExtent_le := by decide +kernel
      minExtent_pos := by decide +kernel }
    strict := true }
  rules := ⟨.full, .finiteDifference, .cellCentered⟩
  supported := by decide
  fits := by decide +kernel
  agree := by decide +kernel

/-- A run on one axis that asks for nothing. -/
def restingConfig : Config 1 where
  criteria := []
  policies := {}
  rules := ⟨.full, .finiteDifference, .cellCentered⟩
  supported := by decide
  fits := by decide +kernel
  agree := by decide +kernel

/-- Five points on one axis. -/
def lineMesh : Mesh 1 :=
  (Mesh.uniform #v[5] .finiteDifference .cellCentered).toOption.get (by decide +kernel)

/-- A whole block with a single axis. -/
def lineBlock (block : Nat) : Element 1 := .root block Nat.one_pos

/-- Such a block that is told to have a neighbour along a second axis. -/
def straySite : Site 1 :=
  .ofContacts (lineBlock 0)
    [(⟨1, .lower⟩, { elements := Std.ExtTreeSet.ofList [lineBlock 1], orientation := .aligned })]

/-- Two cycles that do not keep to the law, with few points.  A strict run takes a step down far
below the smallest extent without failing.  A run that asks for nothing fails over a neighbour,
although that neighbour stays as it is. -/
theorem cycle_not_lawful_line :
    (∀ d, lineMesh.extents.get d < unbounded) ∧
    (∃ o, endlessConfig.cycle { element := lineBlock 0 } lineMesh (fun _ => none) =
        .ok (.completed o) ∧
      o.flags = #v[.decreaseResolution] ∧ o.mesh.extents = #v[4] ∧
      ¬ o.Lawful endlessConfig (lineBlock 0) lineMesh) ∧
    restingConfig.cycle straySite lineMesh (fun _ => some (.uniform .doNothing)) =
      .error (.brokenOff (lineBlock 1) (lineBlock 0)) ∧
    ¬ restingConfig.policies.Refusal straySite.element
      (.brokenOff (lineBlock 1) (lineBlock 0)) := by
  refine ⟨by decide +kernel, ?_, by decide +kernel, fun h => by cases h⟩
  have hstep : (match endlessConfig.cycle { element := lineBlock 0 } lineMesh (fun _ => none) with
      | .ok (.completed o) => some (o.flags, o.mesh.extents)
      | _ => none) = some (#v[.decreaseResolution], #v[4]) := by
    decide +kernel
  split at hstep
  · next o h =>
    obtain ⟨hflags, hextents⟩ := Prod.mk.inj (Option.some.inj hstep)
    refine ⟨o, h, hflags, hextents, fun hlawful => ?_⟩
    have hle := hlawful.le_decrease 0 (by rw [hflags]; rfl)
    rw [hextents] at hle
    revert hle
    decide +kernel
  · contradiction

end Line

end AdaptiveMesh
