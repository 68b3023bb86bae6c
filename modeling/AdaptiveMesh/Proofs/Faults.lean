/-
What each stage of a round can report.

A round passes the faults of its stages on, and below the level of the round few things can go
wrong.  The policies may refuse a decision.  Criteria that were accepted do not contradict each
other, and a decision is only ever compared with those of neighbours; the comparison breaks off
if a neighbour is listed where the element has no face, but in a forest there is none.  And an
element can act on a decision that was enforced as long as it leads to extents that can be
attained.  What leads elsewhere is a step that got past the limits because the extents beyond it
cannot be counted.

That the decisions do not settle is something only the round itself can find out.
-/
import AdaptiveMesh.Proofs.Criteria
import AdaptiveMesh.Proofs.Settlement

namespace AdaptiveMesh

variable {D : Nat}

/-! ### One element -/

section Cycle

variable {p : Policies D} {rules : Rules} {config : Config D} {e c : Element D} {m : Mesh D}
  {s : Site D} {flags theirs : Decision D} {feed : Feed D} {normal : Bool} {fault : Fault D}

theorem Rules.topologyFault?_eq_some (h : rules.topologyFault? e m flags = some fault) :
    ∃ d cause, fault = .topology e d cause := by
  obtain ⟨d, -, hd⟩ := List.exists_of_findSome?_eq_some h
  obtain ⟨cause, -, rfl⟩ := Option.map_eq_some_iff.1 hd
  exact ⟨d, cause, rfl⟩

theorem Policies.agree_eq_error (h : p.agree e flags = .error fault) :
    p.isotropy = .isotropic ∧ ∃ c d, fault = .isotropyConflict e c d := by
  unfold agree Decision.unify at h
  split at h
  · next hp =>
    refine ⟨hp, ?_⟩
    split at h
    · split at h
      · exact ⟨_, _, (Except.error.inj h).symm⟩
      · exact ⟨_, _, (Except.error.inj h).symm⟩
    · contradiction
  · contradiction

theorem Policies.hold_eq_error (h : p.hold e m flags = .error fault) :
    p.strict = true ∧ ∃ d bound requested allowed,
      fault = .limitCrossed e d bound requested allowed := by
  rcases p.exists_firstCrossing e m flags with hnone | ⟨d, k, hfirst⟩
  · rw [hold_eq_self hnone] at h
    contradiction
  · rw [hold_of_firstCrossing hfirst] at h
    split at h
    · next hstrict => exact ⟨hstrict, d, _, _, _, (Except.error.inj h).symm⟩
    · contradiction

/-- The faults with which policies refuse a decision of an element: its axes cannot agree, it asks
for what the topology does not have, or it would cross a limit in a strict run. -/
inductive Policies.Refusal (p : Policies D) (e : Element D) : Fault D → Prop where
  | isotropyConflict (hp : p.isotropy = .isotropic) (c d : Fin D) :
      Refusal p e (.isotropyConflict e c d)
  | topology (d : Fin D) (cause : TopologyFault) : Refusal p e (.topology e d cause)
  | limitCrossed (hp : p.strict = true) (d : Fin D) (bound : Bound) (requested allowed : Nat) :
      Refusal p e (.limitCrossed e d bound requested allowed)

theorem Policies.enforce_eq_error (h : p.enforce rules e m flags = .error fault) :
    p.Refusal e fault := by
  rw [enforce_eq] at h
  rcases bind_eq_error.1 h with h | ⟨agreed, -, h⟩
  · obtain ⟨hp, c, d, rfl⟩ := agree_eq_error h
    exact .isotropyConflict hp c d
  · split at h
    · next hfault =>
      obtain ⟨d, cause, rfl⟩ := Rules.topologyFault?_eq_some (Except.error.inj h ▸ hfault)
      exact .topology d cause
    · rcases bind_eq_error.1 h with h | ⟨held, -, h⟩
      · obtain ⟨hp, d, bound, requested, allowed, rfl⟩ := hold_eq_error h
        exact .limitCrossed hp d bound requested allowed
      · contradiction

/-- Asking for a proposal fails only when the policies refuse what the criteria propose. -/
theorem Config.proposal_eq_error (h : config.proposal e m = .error fault) :
    ∃ given, config.propose e m = .ok given ∧ config.enforce e m given = .error fault := by
  obtain ⟨given, hgiven, -⟩ := config.exists_propose e m
  refine ⟨given, hgiven, ?_⟩
  rw [config.proposal_eq, hgiven] at h
  exact h

/-- An element can be replaced as an enforced decision says. -/
theorem Decision.exists_replacement (h : config.enforce e m given = .ok flags) :
    ∃ r, flags.replacement e = .ok r := by
  by_cases hs : flags.Has .split
  · have hlevel : ∀ d, flags.get d = .split → (e.segment d).level < maxLevel := by
      intro d hd
      have hnone := Policies.crossing?_eq_none_of_enforce h d
      rw [hd, Limits.crossing?_split_eq_none_iff] at hnone
      exact Nat.lt_of_lt_of_le hnone (config.policies.limits.maxLevel_le d)
    obtain ⟨l, hl⟩ := Element.exists_children hlevel
    exact ⟨_, replacement_eq_split_iff.2 ⟨hs, hl⟩⟩
  · by_cases hj : flags.Has .join
    · obtain ⟨p, hp⟩ := Element.exists_parent fun d hd => Policies.level_pos_of_enforce h hd
      exact ⟨_, replacement_eq_join_iff.2 ⟨hs, hj, hp⟩⟩
    · exact ⟨_, replacement_eq_none_iff.2 ⟨hs, hj⟩⟩

/-- The extents that a decision leads to can be counted, and the quadratures have enough points. -/
def Decision.Attainable (flags : Decision D) (m : Mesh D) : Prop :=
  ∀ d, (flags.get d = .increaseResolution → m.extents.get d < unbounded) ∧
    (flags.get d = .decreaseResolution → m.minimumExtent d < m.extents.get d)

/-- What was enforced leads to such extents, unless it gets past a limit unseen. -/
theorem Decision.attainable_of_enforce (h : config.enforce e m given = .ok flags)
    (hm : ∀ d, m.extents.get d < unbounded)
    (hno : ∀ d, ¬ config.policies.limits.Overlooks flags d) : flags.Attainable m := by
  refine fun d => ⟨fun _ => hm d, fun hd => ?_⟩
  have hroom := Policies.crossing?_eq_none_of_enforce h d
  rw [hd, Limits.crossing?_decreaseResolution_eq_none_iff] at hroom
  have hle := hroom.resolve_left fun hle => hno d ⟨hd, hle⟩
  omega

/-- An element can act on an enforced decision whose extents can be attained. -/
theorem Decision.exists_apply (h : config.enforce e m given = .ok flags)
    (hattainable : flags.Attainable m) : ∃ o, flags.apply e m = .ok o := by
  have hcountable : flags.uncountable? m = none :=
    firstFound?_eq_none_iff.2 fun d => if_neg fun hd =>
      Nat.not_le.2 ((hattainable d).1 hd.1) hd.2
  have hextent : ∀ d, m.minimumExtent d ≤
      (Vector.ofFn fun d => (flags.get d).newExtent (m.extents.get d)).get d := by
    intro d
    have hle : m.minimumExtent d ≤ m.extents.get d := m.minimum_le d
    rw [get_ofFn]
    cases hd : flags.get d with
    | decreaseResolution => exact Nat.le_sub_one_of_lt ((hattainable d).2 hd)
    | increaseResolution => exact Nat.le_succ_of_le hle
    | _ => exact hle
  obtain ⟨mesh, hmesh⟩ := Mesh.exists_withExtents hextent
  obtain ⟨r, hr⟩ := exists_replacement h
  unfold apply
  rw [hcountable]
  exact ⟨_, bind_eq_ok.2 ⟨mesh, mapError_eq_ok.2 hmesh,
    bind_eq_ok.2 ⟨r, mapError_eq_ok.2 hr, rfl⟩⟩⟩

/-- An element cannot act on an enforced decision only if the decision leads to an extent that is no
extent. -/
theorem Decision.apply_eq_error (h : config.enforce e m given = .ok flags)
    (hfail : flags.apply e m = .error fault) :
    ∃ d extent minimum, fault = .invalidExtent d extent minimum := by
  unfold apply at hfail
  split at hfail
  · next fault' hfound =>
    obtain rfl : fault' = fault := Except.error.inj hfail
    obtain ⟨d, hd, -⟩ := firstFound?_eq_some_iff.1 hfound
    split at hd
    · exact ⟨d, _, _, (Option.some.inj hd).symm⟩
    · contradiction
  · rcases bind_eq_error.1 hfail with hmesh | ⟨mesh, -, hfail⟩
    · obtain ⟨cause, hcause, rfl⟩ := mapError_eq_error.1 hmesh
      obtain ⟨d, extent, minimum, rfl⟩ := Mesh.withExtents_eq_error hcause
      exact ⟨d, extent, minimum, rfl⟩
    · rcases bind_eq_error.1 hfail with hreplacement | ⟨replacement, -, hfail⟩
      · obtain ⟨cause, hcause, -⟩ := mapError_eq_error.1 hreplacement
        obtain ⟨r, hr⟩ := exists_replacement h
        rw [hr] at hcause
        contradiction
      · contradiction

theorem Cycle.finish_eq_error {cycle : Cycle} (h : (cycle.finish e m flags).1 = .error fault) :
    flags.apply e m = .error fault := by
  unfold finish at h
  dsimp only at h
  split at h
  · next hfault => exact Except.error.inj h ▸ hfault
  · contradiction

/-- A rebalancing that breaks off fails, whatever decision it was given. -/
theorem Config.rebalance_of_breaksOff (hfull : config.rules.mode = .full) (h : s.BreaksOff feed)
    (m : Mesh D) (flags : Decision D) :
    ∃ c, config.rebalance s m flags feed = .error (.brokenOff c s.element) := by
  obtain ⟨c, hc⟩ := h.exists_fault config.policies.balanceNormal flags
  refine ⟨c, ?_⟩
  unfold rebalance Cycle.rebalance Cycle.settle
  rw [if_pos ⟨hfull, h.neighbors_ne_empty⟩, hc]

/-- How a rebalancing can fail. -/
inductive Config.RebalanceFails (config : Config D) (s : Site D) (m : Mesh D) (flags : Decision D)
    (feed : Feed D) (fault : Fault D) : Prop where
  /-- The balancing breaks off at a neighbour that is listed where the element has no face. -/
  | brokenOff {c : Element D} (hfull : config.rules.mode = .full) (h : s.BreaksOff feed)
      (hc : c ∈ s.beyond) (heq : fault = .brokenOff c s.element) :
      RebalanceFails config s m flags feed fault
  /-- The policies refuse what came of balancing. -/
  | refused {revision : Revision D}
      (hbalance : s.balance config.policies.balanceNormal flags feed = .ok (.balanced revision))
      (h : config.enforce s.element m revision.flags = .error fault) :
      RebalanceFails config s m flags feed fault
  /-- The element cannot act on the decision. -/
  | stuck {final : Decision D} (hsettles : Settles config s m flags feed final)
      (h : final.apply s.element m = .error fault) : RebalanceFails config s m flags feed fault

theorem Config.rebalance_eq_error (h : config.rebalance s m flags feed = .error fault) :
    config.RebalanceFails s m flags feed fault := by
  unfold rebalance Cycle.rebalance Cycle.settle at h
  split at h
  · next hfull =>
    split at h
    · next fault' hfault =>
      obtain rfl : fault' = fault := Except.error.inj h
      obtain ⟨hmissing, c, hc, heq⟩ := Site.balance_eq_error hfault
      refine .brokenOff hfull.1 ⟨hmissing, fun hempty => ?_⟩ hc heq
      rw [hempty] at hc
      exact Std.ExtTreeSet.not_mem_empty hc
    · contradiction
    · next revision hbal =>
      split at h
      · next hchanged =>
        split at h
        · next hfault => exact .refused hbal (Except.error.inj h ▸ hfault)
        · next final hfinal =>
          exact .stuck (.enforced hfull hbal hchanged hfinal) (Cycle.finish_eq_error h)
      · next hsame =>
        exact .stuck (.unchanged hfull hbal (by simpa using hsame)) (Cycle.finish_eq_error h)
  · next hnot => exact .stuck (.unbalanced hnot) (Cycle.finish_eq_error h)

end Cycle

/-! ### The whole forest

In a forest an element has neighbours across its faces only, and once all proposals are there every
element has published a decision.  So balancing neither breaks off nor waits, and what is left are
decisions that are refused or that lead to no extent. -/

namespace Forest

variable {f : Forest D} {config : Config D} {e : Element D} {decisions : Decisions D} {n : Nat}
  {fault : Fault D}

/-- What a round fails over.  The policies refuse what the criteria propose for an element or what
came of balancing an enforced decision, or an element cannot act on the decision that it has come
to. -/
inductive Refused (f : Forest D) (config : Config D) (fault : Fault D) : Prop where
  | proposed {e : Element D} {r : Record D} {given : Decision D} (hr : f.records[e]? = some r)
      (hgiven : config.propose e r.mesh = .ok given)
      (h : config.enforce e r.mesh given = .error fault) : Refused f config fault
  | balanced {e : Element D} {r : Record D} {current : Decision D} {feed : Feed D}
      {revision : Revision D} (hr : f.records[e]? = some r)
      (hcurrent : f.Enforced config e current)
      (hbalance : (r.site e).balance config.policies.balanceNormal current feed =
        .ok (.balanced revision))
      (h : config.enforce e r.mesh revision.flags = .error fault) : Refused f config fault
  | stuck {e : Element D} {r : Record D} {final : Decision D} (hr : f.records[e]? = some r)
      (hfinal : f.Enforced config e final)
      (h : final.apply e r.mesh = .error fault) : Refused f config fault

/-- The policies refuse a decision, or there is no such extent. -/
theorem Refused.refusal_or_invalidExtent (h : f.Refused config fault) :
    (∃ e ∈ f, config.policies.Refusal e fault) ∨
      ∃ d extent minimum, fault = .invalidExtent d extent minimum := by
  cases h with
  | proposed hr _ h => exact Or.inl ⟨_, mem_of_record hr, Policies.enforce_eq_error h⟩
  | balanced hr _ _ h => exact Or.inl ⟨_, mem_of_record hr, Policies.enforce_eq_error h⟩
  | stuck hr hfinal h => exact Or.inr (Decision.apply_eq_error (hfinal.enforce_eq_self hr) h)

theorem not_refused_unsettled : ¬ f.Refused config (.unsettled n) := by
  intro h
  rcases h.refusal_or_invalidExtent with ⟨e, -, h⟩ | ⟨d, extent, minimum, h⟩
  · cases h
  · contradiction

theorem record_eq_error (h : f.record e = .error fault) :
    e ∉ f ∧ fault = .unknownElement e := by
  constructor
  · intro he
    obtain ⟨r, hr⟩ := exists_record he
    rw [hr] at h
    contradiction
  · unfold record at h
    split at h
    · contradiction
    · exact (Except.error.inj h).symm

/-- An element fails to propose only if it is not there or its proposal is refused. -/
theorem proposal_eq_error (h : f.proposal config e = .error fault) :
    (e ∉ f ∧ fault = .unknownElement e) ∨ f.Refused config fault := by
  rcases bind_eq_error.1 h with h | ⟨r, hr, h⟩
  · exact Or.inl (record_eq_error h)
  · obtain ⟨given, hgiven, h⟩ := Config.proposal_eq_error h
    exact Or.inr (.proposed (record_eq_ok.1 hr) hgiven h)

theorem proposals_eq_error {order : List (Element D)}
    (h : f.proposals config order = .error fault) :
    (∃ e ∈ order, e ∉ f ∧ fault = .unknownElement e) ∨ f.Refused config fault := by
  obtain ⟨b, e, he, h⟩ := exists_step_of_foldlM_error h
  rcases bind_eq_error.1 h with h | ⟨flags, -, h⟩
  · exact (proposal_eq_error h).imp_left fun hunknown => ⟨e, he, hunknown⟩
  · contradiction

/-- Among decisions of all elements that were enforced, a pass fails only if a decision is
refused. -/
theorem pass_eq_error (hmem : ∀ e ∈ f, e ∈ decisions)
    (henforced : ∀ e flags, decisions[e]? = some flags → f.Enforced config e flags)
    (h : f.pass config decisions = .error fault) : f.Refused config fault := by
  obtain ⟨e, he, h⟩ := exists_source_of_mapM_error h
  have hef := mem_elements.1 he
  rcases bind_eq_error.1 h with h | ⟨r, hr, h⟩
  · exact absurd hef (record_eq_error h).1
  · obtain ⟨current, hd⟩ := Option.isSome_iff_exists.1
      (Std.ExtTreeMap.mem_iff_isSome_getElem?.1 (hmem e hef))
    rw [hd] at h
    have hr := record_eq_ok.1 hr
    have hcurrent := henforced e current hd
    cases Config.rebalance_eq_error h with
    | brokenOff _ hbreaks _ _ => exact absurd rfl hbreaks.2
    | refused hbalance h => exact .balanced hr hcurrent hbalance h
    | stuck hsettles h => exact .stuck hr (hcurrent.of_settles hr hsettles) h

end Forest

end AdaptiveMesh
