/-
How many passes a round takes.

A round goes on until a pass leaves all decisions as they were.  Decisions only climb, so
the measure of a round is the height of all its decisions together.  A pass that changes
something gains height, and there is room for two steps for each element and axis.  The
budget of a round is larger than that, so it is never used up.

The induction is on the passes left.  It needs every element to have published an
enforced decision, which is so at the start and stays so; then nobody waits for anybody
and every pass has an outcome for every element.
-/
import AdaptiveMesh.Proofs.Climbing
import AdaptiveMesh.Proofs.Faults
import AdaptiveMesh.Proofs.GradedRound

namespace AdaptiveMesh

namespace Forest

variable {D : Nat} {f g : Forest D} {config : Config D} {decisions : Decisions D}
  {statuses : List (Status D)} {e : Element D} {o : Outcome D}

/-! ### The measure

A pass may change many decisions, so heights are added up over all elements.  That no decision ever
loses height is what lets the sum show that one of them has gained. -/

/-- The height of the decision of an element, if it has one. -/
def heightAt (decisions : Decisions D) (e : Element D) : Nat :=
  (decisions[e]?.map Decision.height).getD 0

/-- The height of the decisions of all elements together. -/
def height (f : Forest D) (decisions : Decisions D) : Nat :=
  ∑ e ∈ f.elements.toFinset, heightAt decisions e

theorem heightAt_of_getElem? {flags : Decision D} (h : decisions[e]? = some flags) :
    heightAt decisions e = flags.height := by
  rw [heightAt, h]
  rfl

theorem heightAt_le (decisions : Decisions D) (e : Element D) : heightAt decisions e ≤ 2 * D := by
  unfold heightAt
  cases decisions[e]? with
  | none => exact Nat.zero_le _
  | some flags => exact flags.height_le

theorem height_le (f : Forest D) (decisions : Decisions D) :
    f.height decisions ≤ 2 * D * f.size := by
  have hcard : f.elements.toFinset.card ≤ f.size := by
    refine Nat.le_trans (List.toFinset_card_le _) (Nat.le_of_eq ?_)
    exact Std.ExtTreeMap.length_keys
  calc f.height decisions ≤ f.elements.toFinset.card * (2 * D) := by
        rw [← smul_eq_mul]
        exact Finset.sum_le_card_nsmul _ _ _ fun e _ => heightAt_le decisions e
    _ ≤ f.size * (2 * D) := Nat.mul_le_mul_right _ hcard
    _ = 2 * D * f.size := Nat.mul_comm _ _

/-! ### One pass

`Published` is the invariant of the passes.  As no decision is missing, a pass has an outcome for
every element; as all of them were enforced, its outcomes have climbed; and when the outcomes are
adopted, what is published is complete and enforced again. -/

/-- Every element has published a decision, and the policies allow each of them. -/
structure Published (f : Forest D) (config : Config D) (decisions : Decisions D) : Prop where
  /-- No decision is missing. -/
  mem : ∀ e ∈ f, e ∈ decisions
  /-- The policies allow each decision. -/
  enforced : ∀ e flags, decisions[e]? = some flags → f.Enforced config e flags

theorem Published.adopt (h : f.Published config decisions)
    (hpass : f.pass config decisions = .ok statuses) :
    f.Published config (adopt decisions (statuses.filterMap Status.outcome?)) where
  mem e he := mem_adopt.2 (Or.inl (h.mem e he))
  enforced _ _ hd := enforced_adopt h.enforced hpass hd

theorem published_of_proposals {order : List (Element D)} (horder : ∀ e ∈ f, e ∈ order)
    (h : f.proposals config order = .ok decisions) : f.Published config decisions := by
  obtain ⟨hasked, hvalue⟩ := foldlM_proposal_eq_ok h
  exact ⟨fun e he => hasked e (Or.inr (horder e he)),
    fun e flags hd => enforced_of_proposal ((hvalue e flags hd).resolve_left (by simp))⟩

/-- Balancing preserves a property of decisions, as long as all published decisions have it. -/
def Preserves (f : Forest D) (config : Config D) (P : Element D → Decision D → Prop) : Prop :=
  ∀ decisions, f.Published config decisions →
    (∀ e flags, decisions[e]? = some flags → P e flags) →
    ∀ (e : Element D) (r : Record D) (flags flags' : Decision D), f.records[e]? = some r →
      decisions[e]? = some flags →
      Settles config (r.site e) r.mesh flags (fun c => decisions[c]?) flags' → P e flags'

/-- What holds of every proposal and is preserved by balancing holds of the decisions that settle.
-/
theorem forall_outcomes {P : Element D → Decision D → Prop} {order : List (Element D)}
    {s : Settlement D} (horder : ∀ e ∈ f, e ∈ order)
    (hproposal : ∀ e flags, f.proposal config e = .ok flags → P e flags)
    (hP : f.Preserves config P) (h : f.settlement config order = .ok s) :
    ∀ o ∈ s.outcomes, P o.element o.flags := by
  obtain ⟨proposed, hproposed, h⟩ := bind_eq_ok.1 h
  have hstep : ∀ decisions statuses, (f.Published config decisions ∧
      ∀ e flags, decisions[e]? = some flags → P e flags) →
      f.pass config decisions = .ok statuses →
      f.Published config (adopt decisions (statuses.filterMap Status.outcome?)) ∧
        ∀ e flags, (adopt decisions (statuses.filterMap Status.outcome?))[e]? = some flags →
          P e flags := by
    rintro decisions statuses ⟨hpublished, hall⟩ hpass
    refine ⟨hpublished.adopt hpass, fun e flags hd => ?_⟩
    rcases mem_of_getElem?_insertMany hd with hm | hd
    · obtain ⟨o, ho, heq⟩ := List.mem_map.1 hm
      obtain ⟨rfl, rfl⟩ := Prod.mk.injEq .. ▸ heq
      obtain ⟨e, -, hreb⟩ := exists_rebalance_of_pass hpass ho
      obtain ⟨r, current, hr, hd, hsettles, -, rfl⟩ := rebalance_eq_completed hreb
      exact hP decisions hpublished hall _ r current _ hr hd hsettles
    · exact hall e flags hd
  have hstart : ∀ e flags, proposed[e]? = some flags → P e flags := fun e flags hd =>
    hproposal e flags (((foldlM_proposal_eq_ok hproposed).2 e flags hd).resolve_left (by simp))
  obtain ⟨final, statuses, ⟨-, hfinal⟩, -, -, hfixed⟩ :=
    settle_eq_ok hstep ⟨published_of_proposals horder hproposed, hstart⟩ h
  exact fun o ho => hfinal _ _ (hfixed o ho)

/-- After a pass an element has the decision of its outcome. -/
theorem getElem?_adopt (hpass : f.pass config decisions = .ok statuses)
    (ho : o ∈ statuses.filterMap Status.outcome?) :
    (adopt decisions (statuses.filterMap Status.outcome?))[o.element]? = some o.flags := by
  refine getElem?_insertMany_of_mem (List.mem_map_of_mem ho) fun entry hentry heq => ?_
  obtain ⟨o', ho', rfl⟩ := List.mem_map.1 hentry
  have : Std.Symm fun a b : Outcome D => a.element ≠ b.element := ⟨fun _ _ => Ne.symm⟩
  by_contra hne
  exact (pairwise_outcomes hpass).forall ho' ho (fun h => hne (h ▸ rfl)) heq

/-- An outcome of a pass has climbed from the decision that the pass was made from. -/
theorem Published.climbs (h : f.Published config decisions)
    (hpass : f.pass config decisions = .ok statuses)
    (ho : o ∈ statuses.filterMap Status.outcome?) :
    ∃ current, decisions[o.element]? = some current ∧ current.Climbs o.flags := by
  obtain ⟨e, -, hreb⟩ := exists_rebalance_of_pass hpass ho
  obtain ⟨r, current, hr, hd, hsettles, -, rfl⟩ := rebalance_eq_completed hreb
  exact ⟨current, hd, (h.enforced _ current hd).climbs hr hsettles⟩

/-- A pass that changes a decision gains height. -/
theorem Sound.height_lt_adopt (hf : f.Sound) (h : f.Published config decisions)
    (hpass : f.pass config decisions = .ok statuses)
    (hchanged : ¬ ∀ o ∈ statuses.filterMap Status.outcome?,
      decisions[o.element]? = some o.flags) :
    f.height decisions < f.height (adopt decisions (statuses.filterMap Status.outcome?)) := by
  push Not at hchanged
  obtain ⟨o, ho, hne⟩ := hchanged
  refine Finset.sum_lt_sum (fun e he => ?_) ⟨o.element, ?_, ?_⟩
  · obtain ⟨o', ho', rfl⟩ :=
      hf.exists_outcome h.mem hpass (mem_elements.1 (List.mem_toFinset.1 he))
    obtain ⟨current, hd, hclimbs⟩ := h.climbs hpass ho'
    rw [heightAt_of_getElem? hd, heightAt_of_getElem? (getElem?_adopt hpass ho')]
    exact hclimbs.height_le
  · obtain ⟨e, he, hreb⟩ := exists_rebalance_of_pass hpass ho
    obtain ⟨_, _, _, _, _, _, rfl⟩ := rebalance_eq_completed hreb
    exact List.mem_toFinset.2 (mem_elements.2 he)
  · obtain ⟨current, hd, hclimbs⟩ := h.climbs hpass ho
    rw [heightAt_of_getElem? hd, heightAt_of_getElem? (getElem?_adopt hpass ho)]
    refine hclimbs.height_lt fun heq => hne ?_
    rw [hd, heq]

/-- In a pass over published decisions nobody waits. -/
theorem Sound.length_outcomes (hf : f.Sound) (h : f.Published config decisions)
    (hpass : f.pass config decisions = .ok statuses) :
    (statuses.filterMap Status.outcome?).length = statuses.length := by
  refine List.filterMap_length_eq_length.2 fun status hs => ?_
  obtain ⟨e, -, hreb⟩ := exists_source_of_mapM hpass hs
  cases status with
  | completed o => rfl
  | deferred missing => exact absurd hreb (hf.rebalance_ne_deferred h.mem)

/-! ### All passes

As long as there are more passes left than height to gain, one of them changes nothing before they
run out.  The induction is on the passes left, for all decisions that are published at that time. -/

/-- Passes with room for all the height that is left do not run out.  When they end nobody waits,
and each of them but the last has gained height. -/
theorem Sound.settle_of_room (hf : f.Sound) {remaining : Nat} (passes : Nat)
    (h : f.Published config decisions)
    (hroom : 2 * D * f.size < f.height decisions + remaining) :
    (∀ n, f.settle config remaining passes decisions ≠ .error (.unsettled n)) ∧
      ∀ s, f.settle config remaining passes decisions = .ok s →
        s.deferred = 0 ∧ s.passes + f.height decisions ≤ passes + 2 * D * f.size + 1 := by
  induction remaining generalizing passes decisions with
  | zero =>
      have := f.height_le decisions
      omega
  | succ remaining ih =>
      unfold settle
      cases hpass : f.pass config decisions with
      | error fault =>
          refine ⟨fun n hn => ?_, fun s hs => by contradiction⟩
          have hfault : fault = .unsettled n := Except.error.inj hn
          exact not_refused_unsettled (pass_eq_error h.mem h.enforced (hfault ▸ hpass))
      | ok statuses =>
          show (∀ n, ite _ _ _ ≠ _) ∧ ∀ s, ite _ _ _ = _ → _
          split
          · refine ⟨fun n hn => by contradiction, fun s hs => ?_⟩
            rw [← pure_eq_ok.1 hs, hf.length_outcomes h hpass]
            have := f.height_le decisions
            exact ⟨Nat.sub_self _, by dsimp only; omega⟩
          · next hchanged =>
            have hgain := hf.height_lt_adopt h hpass hchanged
            obtain ⟨hsettles, hok⟩ := ih (passes + 1) (h.adopt hpass) (by omega)
            refine ⟨hsettles, fun s hs => ?_⟩
            obtain ⟨hdeferred, hpasses⟩ := hok s hs
            exact ⟨hdeferred, by omega⟩

variable (config) in
/-- The budget of a round is more than its passes can use: two for each element and axis, and one
that changes nothing. -/
theorem Sound.settlement_passes_le (hf : f.Sound) {order : List (Element D)}
    (horder : ∀ e ∈ f, e ∈ order) :
    (∀ n, f.settlement config order ≠ .error (.unsettled n)) ∧
      ∀ s, f.settlement config order = .ok s →
        s.deferred = 0 ∧ s.passes ≤ 2 * D * f.size + 1 := by
  unfold settlement
  cases hprop : f.proposals config order with
  | error fault =>
      refine ⟨fun n hn => ?_, fun s hs => by contradiction⟩
      have hfault : fault = .unsettled n := Except.error.inj hn
      rcases proposals_eq_error (hfault ▸ hprop) with ⟨e, -, -, hunknown⟩ | hrefused
      · contradiction
      · exact not_refused_unsettled hrefused
  | ok decisions =>
      have hroom : 2 * D * f.size < f.height decisions + f.passBudget := by
        unfold passBudget
        have := Nat.mul_le_mul_right f.size (Nat.mul_le_mul_right D (show 2 ≤ 3 by decide))
        omega
      obtain ⟨hsettles, hok⟩ :=
        hf.settle_of_room 0 (published_of_proposals horder hprop) hroom
      refine ⟨hsettles, fun s hs => ?_⟩
      obtain ⟨hdeferred, hpasses⟩ := hok s hs
      exact ⟨hdeferred, by omega⟩

/-! ### Rounds that fail -/

/-- Passes over published decisions fail only if a decision is refused, or if none are left. -/
theorem refused_of_settle {fault : Fault D} {remaining passes : Nat}
    (h : f.Published config decisions)
    (hfail : f.settle config remaining passes decisions = .error fault) :
    (∃ n, fault = .unsettled n) ∨ f.Refused config fault := by
  induction remaining generalizing passes decisions with
  | zero => exact Or.inl ⟨passes, (Except.error.inj hfail).symm⟩
  | succ remaining ih =>
      unfold settle at hfail
      rcases bind_eq_error.1 hfail with hpass | ⟨statuses, hpass, hfail⟩
      · exact Or.inr (pass_eq_error h.mem h.enforced hpass)
      · dsimp only at hfail
        split at hfail
        · contradiction
        · exact ih (h.adopt hpass) hfail

/-- A round fails only if the policies refuse a decision or an element cannot act on one. -/
theorem Sound.refused_of_refineInOrder (hf : f.Sound) {order : List (Element D)}
    (horder : order.Perm f.elements) {fault : Fault D}
    (hfail : (f.refineInOrder config order).1 = .error fault) : f.Refused config fault := by
  have hmem : ∀ e, e ∈ order ↔ e ∈ f := fun e => horder.mem_iff.trans mem_elements
  cases h : f.settlement config order with
  | ok s =>
      obtain ⟨⟨summary, hok⟩, -⟩ := hf.carryOut_of_settlement h
        { passes := s.passes, deferred := s.deferred }
      rw [refineInOrder_of_ok h, hok] at hfail
      contradiction
  | error fault' =>
      rw [refineInOrder_of_error h] at hfail
      obtain rfl : fault' = fault := Except.error.inj hfail
      have hsettles := (hf.settlement_passes_le config fun e he => (hmem e).2 he).1
      rcases bind_eq_error.1 h with hprop | ⟨decisions, hprop, hsettle⟩
      · refine (proposals_eq_error hprop).resolve_left ?_
        rintro ⟨e, he, hnot, -⟩
        exact hnot ((hmem e).1 he)
      · have hpublished := published_of_proposals (fun e he => (hmem e).2 he) hprop
        refine (refused_of_settle hpublished hsettle).resolve_left ?_
        rintro ⟨n, rfl⟩
        exact hsettles n h

/-! ### The summary -/

variable {step : Step D} {counted counted' : Summary}

/-- How a step is carried out and counted. -/
inductive Performed (f : Forest D) (counted : Summary) : Step D → Forest D → Summary → Prop where
  | kept {o : Outcome D} (h : f.mesh? o.element = none ∨ f.mesh? o.element = some o.mesh) :
      Performed f counted (.remain o) f counted
  | refined {o : Outcome D}
      (h : ¬ (f.mesh? o.element = none ∨ f.mesh? o.element = some o.mesh)) :
      Performed f counted (.remain o) (f.setMesh o.element o.mesh)
        { counted with refined := counted.refined + 1 }
  | split {e : Element D} {children : List (Element D)} {m : Mesh D} {edit : Edit D}
      (h : f.split e children m = .ok edit) :
      Performed f counted (.split e children m) edit.forest { counted with
        splits := counted.splits + 1
        changes := counted.changes + edit.changes.length }
  | joined {p : Element D} {first : Outcome D} {others : List (Outcome D)} {m : Mesh D}
      {edit : Edit D} (hagreed : Agreed first others)
      (hm : first.mesh.withExtents (largestExtents first others) = .ok m)
      (h : f.join p m = .ok edit) :
      Performed f counted (.join p first others) edit.forest { counted with
        joins := counted.joins + 1
        changes := counted.changes + edit.changes.length }
  | abandoned {p : Element D} {first : Outcome D} {others : List (Outcome D)}
      (hnot : ¬ Agreed first others) :
      Performed f counted (.join p first others)
        ((first :: others).foldl (fun f o => f.setMesh o.element o.mesh) f)
        { counted with abandonedJoins := counted.abandonedJoins + 1 }

theorem performed_of_perform (h : f.perform counted step = .ok (g, counted')) :
    Performed f counted step g counted' := by
  cases step with
  | remain o =>
      dsimp only [perform] at h
      split at h
      · next hkept =>
        obtain ⟨rfl, rfl⟩ := Prod.mk.injEq .. ▸ Except.ok.inj h
        exact .kept hkept
      · next hrefined =>
        obtain ⟨rfl, rfl⟩ := Prod.mk.injEq .. ▸ Except.ok.inj h
        exact .refined hrefined
  | split e children m =>
      obtain ⟨edit, hedit, h⟩ := bind_eq_ok.1 h
      obtain ⟨rfl, rfl⟩ := Prod.mk.injEq .. ▸ pure_eq_ok.1 h
      exact .split hedit
  | join p first others =>
      obtain ⟨siblings, hsiblings, h⟩ := bind_eq_ok.1 h
      have hl := mapError_eq_ok.1 hsiblings
      split at h
      · next hsame =>
        obtain ⟨m, hm, h⟩ := bind_eq_ok.1 h
        obtain ⟨edit, hedit, h⟩ := bind_eq_ok.1 h
        obtain ⟨rfl, rfl⟩ := Prod.mk.injEq .. ▸ pure_eq_ok.1 h
        exact .joined ((agreed_iff hl).1 hsame) (mapError_eq_ok.1 hm) hedit
      · next hother =>
        obtain ⟨rfl, rfl⟩ := Prod.mk.injEq .. ▸ pure_eq_ok.1 h
        exact .abandoned fun hall => hother ((agreed_iff hl).2 hall)

/-- What every step keeps of a summary a run of steps keeps. -/
theorem carryOut_preserves {P : Summary → Prop} {steps : List (Step D)}
    (hstep : ∀ step ∈ steps, ∀ {f g : Forest D} {counted counted' : Summary},
      Performed f counted step g counted' → P counted → P counted')
    (h : (f.carryOut counted steps).1 = .ok counted') (hP : P counted) : P counted' := by
  induction steps generalizing f counted with
  | nil =>
      obtain rfl := Except.ok.inj h
      exact hP
  | cons step rest ih =>
      unfold carryOut at h
      cases hperform : f.perform counted step with
      | error fault =>
          rw [hperform] at h
          contradiction
      | ok next =>
          rw [hperform] at h
          have hnext := hstep step List.mem_cons_self (performed_of_perform hperform) hP
          exact ih (fun step hs => hstep step (List.mem_cons_of_mem _ hs)) h hnext

/-- A round is summarised with the passes in which it settled. -/
theorem carryOut_eq_ok {steps : List (Step D)} (h : (f.carryOut counted steps).1 = .ok counted') :
    counted'.passes = counted.passes ∧ counted'.deferred = counted.deferred := by
  refine carryOut_preserves
    (P := fun s => s.passes = counted.passes ∧ s.deferred = counted.deferred)
    (fun step _ {f g before after} hperformed hP => ?_) h ⟨rfl, rfl⟩
  cases hperformed <;> exact hP

/-- A run of steps gives no join up if everywhere all siblings agreed. -/
theorem abandonedJoins_of_carryOut {steps : List (Step D)}
    (h : (f.carryOut counted steps).1 = .ok counted')
    (hagreed : ∀ p first others, .join p first others ∈ steps → Agreed first others) :
    counted'.abandonedJoins = counted.abandonedJoins := by
  refine carryOut_preserves (P := fun s => s.abandonedJoins = counted.abandonedJoins)
    (fun step hs {f g before after} hperformed hP => ?_) h rfl
  cases hperformed with
  | abandoned hnot => exact absurd (hagreed _ _ _ hs) hnot
  | _ => exact hP

/-! ### The round -/

/-- A round always settles, whatever the levels of neighbours: it never gives up, and when it
succeeds no element was left waiting and the passes are within its budget. -/
theorem Reachable.refineInOrder_settles (hf : Reachable f) (config : Config D)
    {order : List (Element D)} (horder : order.Perm f.elements) :
    (∀ n, (f.refineInOrder config order).1 ≠ .error (.unsettled n)) ∧
      ∀ summary, (f.refineInOrder config order).1 = .ok summary →
        summary.deferred = 0 ∧ summary.passes ≤ 3 * D * f.size + 2 := by
  obtain ⟨hsettles, hbound⟩ := hf.sound.settlement_passes_le config
    fun e he => horder.mem_iff.2 (mem_elements.2 he)
  cases h : f.settlement config order with
  | error fault =>
      rw [refineInOrder_of_error h]
      refine ⟨fun n hn => ?_, fun summary hok => by contradiction⟩
      have hfault : fault = .unsettled n := Except.error.inj hn
      exact hsettles n (hfault ▸ h)
  | ok s =>
      obtain ⟨⟨summary, hok⟩, -⟩ := hf.sound.carryOut_of_settlement h
        { passes := s.passes, deferred := s.deferred }
      obtain ⟨hdeferred, hpasses⟩ := hbound s h
      obtain ⟨hpasses', hdeferred'⟩ := carryOut_eq_ok hok
      rw [refineInOrder_of_ok h, hok]
      refine ⟨fun n hn => by contradiction, fun summary' heq => ?_⟩
      rw [← Except.ok.inj heq, hdeferred', hpasses']
      refine ⟨hdeferred, Nat.le_trans hpasses ?_⟩
      have := Nat.mul_le_mul_right f.size (Nat.mul_le_mul_right D (show 2 ≤ 3 by decide))
      omega

theorem refineInOrder_settles_mixedForest :
    mixedForest.size = 6 ∧ ∃ summary, (mixedForest.refine coarsest).1 = .ok summary ∧
      summary.deferred = 0 ∧ summary.passes ≤ 3 * 2 * 6 + 2 := by
  have hsize : mixedForest.size = 6 := by decide +kernel
  refine ⟨hsize, _, refineInOrder_mixedForest, ?_⟩
  rw [← hsize]
  exact (Reachable.refineInOrder_settles reachable_mixedForest coarsest (.refl _)).2 _
    refineInOrder_mixedForest

end Forest

end AdaptiveMesh
