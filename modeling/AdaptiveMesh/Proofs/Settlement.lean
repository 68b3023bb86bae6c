/-
Decisions that settled.

A round balances decisions in passes until a pass leaves all of them as they were.
What a settled round acts on are the outcomes of that last pass: one for each element
that has the decisions of its neighbours, made from its own record and from decisions
that the pass confirmed.  The induction is on the passes left, and whatever adopting a
pass preserves holds of the decisions that settled.
-/
import AdaptiveMesh.Proofs.Balancing
import AdaptiveMesh.Proofs.Exchange

namespace AdaptiveMesh

namespace Forest

variable {D : Nat} {f : Forest D} {config : Config D} {decisions final : Decisions D}
  {statuses : List (Status D)} {outcomes : List (Outcome D)} {o : Outcome D} {e : Element D}

/-! ### One pass -/

theorem rebalance_eq_ok {status : Status D}
    (h : f.rebalance config decisions e = .ok status) :
    ∃ r current, f.records[e]? = some r ∧ decisions[e]? = some current ∧
      config.rebalance (r.site e) r.mesh current (fun c => decisions[c]?) = .ok status := by
  obtain ⟨r, hr, h⟩ := bind_eq_ok.1 h
  cases hd : decisions[e]? with
  | none =>
      rw [hd] at h
      contradiction
  | some current =>
      rw [hd] at h
      exact ⟨r, current, record_eq_ok.1 hr, rfl, h⟩

/-- An outcome of a pass was made from the element's record and its decision. -/
theorem rebalance_eq_completed (h : f.rebalance config decisions e = .ok (.completed o)) :
    ∃ r current, f.records[e]? = some r ∧ decisions[e]? = some current ∧
      Settles config (r.site e) r.mesh current (fun c => decisions[c]?) o.flags ∧
      o.flags.apply e r.mesh = .ok o ∧ o.element = e := by
  obtain ⟨r, current, hr, hd, h⟩ := rebalance_eq_ok h
  obtain ⟨flags, hflags, happly⟩ := AdaptiveMesh.rebalance_eq_completed h
  obtain ⟨he, rfl, -⟩ := Decision.apply_eq_ok happly
  exact ⟨r, current, hr, hd, hflags, happly, he⟩

theorem mem_outcomes : o ∈ statuses.filterMap Status.outcome? ↔ .completed o ∈ statuses := by
  rw [List.mem_filterMap]
  constructor
  · rintro ⟨status, hs, ho⟩
    cases status with
    | completed o' =>
        obtain rfl : o' = o := Option.some.inj ho
        exact hs
    | deferred => contradiction
  · intro h
    exact ⟨_, h, rfl⟩

theorem exists_rebalance_of_pass (h : f.pass config decisions = .ok statuses)
    (ho : o ∈ statuses.filterMap Status.outcome?) :
    ∃ e ∈ f, f.rebalance config decisions e = .ok (.completed o) := by
  obtain ⟨e, he, h⟩ := exists_source_of_mapM h (mem_outcomes.1 ho)
  exact ⟨e, mem_elements.1 he, h⟩

/-- A pass has its outcomes in ascending order. -/
theorem ascending_outcomes (h : f.pass config decisions = .ok statuses) :
    Ascending ((statuses.filterMap Status.outcome?).map (·.element)) := by
  refine List.pairwise_map.2 (List.pairwise_filterMap.2 ?_)
  refine pairwise_of_mapM h f.ascending_elements fun e e' status status' hlt hs hs' => ?_
  intro o ho o' ho'
  cases status with
  | deferred => contradiction
  | completed a =>
      cases status' with
      | deferred => contradiction
      | completed b =>
          obtain rfl : a = o := Option.some.inj ho
          obtain rfl : b = o' := Option.some.inj ho'
          obtain ⟨_, _, _, _, _, _, rfl⟩ := rebalance_eq_completed hs
          obtain ⟨_, _, _, _, _, _, rfl⟩ := rebalance_eq_completed hs'
          exact hlt

/-- A pass has at most one outcome for each element. -/
theorem pairwise_outcomes (h : f.pass config decisions = .ok statuses) :
    (statuses.filterMap Status.outcome?).Pairwise fun a b => a.element ≠ b.element :=
  List.pairwise_map.1 (ascending_outcomes h).nodup

/-- An element whose neighbours have all published a decision is not deferred. -/
theorem Sound.rebalance_ne_deferred (hf : f.Sound) (hall : ∀ c ∈ f, c ∈ decisions)
    {missing : List (Element D)} :
    f.rebalance config decisions e ≠ .ok (.deferred missing) := by
  intro h
  obtain ⟨r, current, hr, -, h⟩ := rebalance_eq_ok h
  refine (rebalance_eq_deferred_iff.1 h).2.2 (Site.missing_eq_nil_iff.2 fun c hc => ?_)
  have hcn : c ∈ r.neighborhood.elements :=
    (Std.ExtTreeSet.mem_union_iff.1 hc).resolve_right Std.ExtTreeSet.not_mem_empty
  have hcf := ((hf.mem_neighbors_iff hr).1 hcn).1
  exact Option.isSome_iff_exists.1 (Std.ExtTreeMap.mem_iff_isSome_getElem?.1 (hall c hcf))

/-- With the decisions of all elements at hand, every element has an outcome. -/
theorem Sound.exists_outcome (hf : f.Sound) (hall : ∀ c ∈ f, c ∈ decisions)
    (h : f.pass config decisions = .ok statuses) (he : e ∈ f) :
    ∃ o ∈ statuses.filterMap Status.outcome?, o.element = e := by
  obtain ⟨status, hs, h⟩ := exists_result_of_mapM h (mem_elements.2 he)
  cases status with
  | completed o =>
      obtain ⟨_, _, _, _, _, _, ho⟩ := rebalance_eq_completed h
      exact ⟨o, mem_outcomes.2 hs, ho⟩
  | deferred missing => exact absurd h (hf.rebalance_ne_deferred hall)

/-! ### Enforced decisions

What is remembered of a decision is that it was enforced, and not what it was enforced from.  Each
pass hands on just this much, whichever way its decisions came about. -/

/-- The decision is what the policies leave of some decision of the element. -/
def Enforced (f : Forest D) (config : Config D) (e : Element D) (flags : Decision D) : Prop :=
  ∃ r given, f.records[e]? = some r ∧ config.enforce e r.mesh given = .ok flags

theorem Enforced.canJoin {flags : Decision D} (h : f.Enforced config e flags) :
    flags.CanJoin e := by
  obtain ⟨r, given, -, h⟩ := h
  exact fun d hd => Policies.level_pos_of_enforce h hd

theorem Enforced.not_has_join {flags : Decision D} (h : f.Enforced config e flags)
    (hs : flags.Has .split) : ¬ flags.Has .join := by
  obtain ⟨r, given, -, h⟩ := h
  exact Policies.not_has_join_of_enforce h hs

theorem Enforced.crossing?_eq_none {r : Record D} {flags : Decision D}
    (h : f.Enforced config e flags) (hr : f.records[e]? = some r) (d : Fin D) :
    config.policies.limits.crossing? e r.mesh d (flags.get d) = none := by
  obtain ⟨r', given, hr', h⟩ := h
  rw [hr, Option.some.injEq] at hr'
  exact hr' ▸ Policies.crossing?_eq_none_of_enforce h d

theorem proposal_eq_ok {flags : Decision D} (h : f.proposal config e = .ok flags) :
    ∃ r given, f.records[e]? = some r ∧ config.propose e r.mesh = .ok given ∧
      config.enforce e r.mesh given = .ok flags := by
  obtain ⟨r, hr, h⟩ := bind_eq_ok.1 h
  obtain ⟨given, hgiven, henforce⟩ := Config.proposal_eq_ok h
  exact ⟨r, given, record_eq_ok.1 hr, hgiven, henforce⟩

theorem enforced_of_proposal {flags : Decision D} (h : f.proposal config e = .ok flags) :
    f.Enforced config e flags := by
  obtain ⟨r, given, hr, -, henforce⟩ := proposal_eq_ok h
  exact ⟨r, given, hr, henforce⟩

/-- Enforcing leaves alone what was enforced before. -/
theorem Enforced.enforce_eq_self {r : Record D} {flags : Decision D}
    (h : f.Enforced config e flags) (hr : f.records[e]? = some r) :
    config.enforce e r.mesh flags = .ok flags := by
  obtain ⟨r', given, hr', h⟩ := h
  obtain rfl : r = r' := by rwa [hr, Option.some.injEq] at hr'
  exact Policies.enforce_eq_self h

/-- Balancing and enforcing again leaves a decision that is enforced. -/
theorem Enforced.of_settles {r : Record D} {flags flags' : Decision D} {feed : Feed D}
    (h : f.Enforced config e flags) (hr : f.records[e]? = some r)
    (hs : Settles config (r.site e) r.mesh flags feed flags') : f.Enforced config e flags' :=
  ⟨r, flags', hr, hs.enforce_eq_self (h.enforce_eq_self hr)⟩

/-! ### Passes

`Settled` is what is kept of the last pass, and it does not mention passes any more.  The decisions
rest on each other: each of them is what balancing makes of it against all the others. -/

theorem mem_adopt :
    e ∈ adopt decisions outcomes ↔ e ∈ decisions ∨ ∃ o ∈ outcomes, o.element = e := by
  unfold adopt
  rw [Std.ExtTreeMap.mem_insertMany_list, List.contains_iff_mem, List.map_map, List.mem_map]
  rfl

/-- Passes end with one that confirms the decisions it was made from. -/
theorem settle_eq_ok {P : Decisions D → Prop} {n passes : Nat} {s : Settlement D}
    (hstep : ∀ decisions statuses, P decisions → f.pass config decisions = .ok statuses →
      P (adopt decisions (statuses.filterMap Status.outcome?)))
    (hP : P decisions) (h : f.settle config n passes decisions = .ok s) :
    ∃ final statuses, P final ∧ f.pass config final = .ok statuses ∧
      s.outcomes = statuses.filterMap Status.outcome? ∧
      ∀ o ∈ s.outcomes, final[o.element]? = some o.flags := by
  induction n generalizing passes decisions with
  | zero => contradiction
  | succ n ih =>
      obtain ⟨statuses, hpass, h⟩ := bind_eq_ok.1 h
      dsimp only at h
      split at h
      · next hfixed =>
        rw [← pure_eq_ok.1 h]
        exact ⟨decisions, statuses, hP, hpass, rfl, hfixed⟩
      · exact ih (hstep decisions statuses hP hpass) h

theorem enforced_adopt (h : ∀ e flags, decisions[e]? = some flags → f.Enforced config e flags)
    (hpass : f.pass config decisions = .ok statuses) {flags : Decision D}
    (hd : (adopt decisions (statuses.filterMap Status.outcome?))[e]? = some flags) :
    f.Enforced config e flags := by
  rcases mem_of_getElem?_insertMany hd with hm | hd
  · obtain ⟨o, ho, heq⟩ := List.mem_map.1 hm
    obtain ⟨rfl, rfl⟩ := Prod.mk.injEq .. ▸ heq
    obtain ⟨e, -, hreb⟩ := exists_rebalance_of_pass hpass ho
    obtain ⟨r, current, hr, hd, hsettles, -, rfl⟩ := rebalance_eq_completed hreb
    exact (h _ current hd).of_settles hr hsettles
  · exact h e flags hd

/-- The published decisions are the proposals of the elements that were asked. -/
theorem foldlM_proposal_eq_ok {order : List (Element D)} {start : Decisions D}
    (h : order.foldlM (fun decisions e => return decisions.insert e (← f.proposal config e)) start
      = .ok decisions) :
    (∀ e, e ∈ start ∨ e ∈ order → e ∈ decisions) ∧ ∀ e flags, decisions[e]? = some flags →
      start[e]? = some flags ∨ f.proposal config e = .ok flags := by
  induction order generalizing start with
  | nil =>
      obtain rfl := pure_eq_ok.1 h
      exact ⟨fun e he => he.resolve_right (by simp), fun e flags hd => Or.inl hd⟩
  | cons c order ih =>
      rw [List.foldlM_cons] at h
      obtain ⟨next, hnext, h⟩ := bind_eq_ok.1 h
      obtain ⟨proposed, hproposed, hnext⟩ := bind_eq_ok.1 hnext
      rw [← pure_eq_ok.1 hnext] at h
      obtain ⟨hmem, hvalue⟩ := ih h
      constructor
      · intro e he
        refine hmem e ?_
        rw [Std.ExtTreeMap.mem_insert, Std.LawfulEqOrd.compare_eq_iff_eq]
        rcases he with he | he
        · exact Or.inl (Or.inr he)
        · rcases List.mem_cons.1 he with rfl | he
          · exact Or.inl (Or.inl rfl)
          · exact Or.inr he
      · intro e flags hd
        rcases hvalue e flags hd with hs | hp
        · rw [getElem?_insert_eq] at hs
          split at hs
          · next hc => exact Or.inr (hc ▸ Option.some.inj hs ▸ hproposed)
          · exact Or.inl hs
        · exact Or.inr hp

/-- Outcomes that rest on each other: each one is made from its element's record and from decisions
that the outcomes confirm. -/
structure Settled (f : Forest D) (config : Config D) (final : Decisions D)
    (outcomes : List (Outcome D)) : Prop where
  /-- The decisions are those of the outcomes. -/
  decided : ∀ o ∈ outcomes, final[o.element]? = some o.flags
  /-- Balancing each decision against the others comes to the decision itself, and the element acts
  on it. -/
  acted : ∀ o ∈ outcomes, ∃ r, f.records[o.element]? = some r ∧
    Settles config (r.site o.element) r.mesh o.flags (fun c => final[c]?) o.flags ∧
    o.flags.apply o.element r.mesh = .ok o
  /-- The policies allow each decision. -/
  enforced : ∀ o ∈ outcomes, f.Enforced config o.element o.flags
  /-- There is one outcome for each element at most. -/
  distinct : outcomes.Pairwise fun a b => a.element ≠ b.element

theorem settled_of_pass (hpass : f.pass config final = .ok statuses)
    (hfixed : ∀ o ∈ statuses.filterMap Status.outcome?, final[o.element]? = some o.flags)
    (hfinal : ∀ e flags, final[e]? = some flags → f.Enforced config e flags) :
    Settled f config final (statuses.filterMap Status.outcome?) where
  decided := hfixed
  enforced o ho := hfinal _ _ (hfixed o ho)
  acted o ho := by
    obtain ⟨e, he, h⟩ := exists_rebalance_of_pass hpass ho
    obtain ⟨r, current, hr, hd, hflags, happly, rfl⟩ := rebalance_eq_completed h
    rw [hfixed o ho, Option.some.injEq] at hd
    rw [← hd] at hflags
    exact ⟨r, hr, hflags, happly⟩
  distinct := pairwise_outcomes hpass

/-- What a round acts on is settled. -/
theorem settled_of_settlement {order : List (Element D)} {s : Settlement D}
    (h : f.settlement config order = .ok s) :
    ∃ final, Settled f config final s.outcomes ∧
      (f.Sound → (∀ e ∈ f, e ∈ order) → ∀ e ∈ f, ∃ o ∈ s.outcomes, o.element = e) := by
  obtain ⟨proposed, hprop, h⟩ := bind_eq_ok.1 h
  obtain ⟨hasked, hvalue⟩ := foldlM_proposal_eq_ok hprop
  obtain ⟨final, statuses, ⟨hmem, hfinal⟩, hpass, hout, hfixed⟩ := settle_eq_ok
    (P := fun decisions => (∀ e ∈ order, e ∈ decisions) ∧
      ∀ e flags, decisions[e]? = some flags → f.Enforced config e flags)
    (fun decisions statuses hP hpass => ⟨fun e he => mem_adopt.2 (Or.inl (hP.1 e he)),
      fun e flags hd => enforced_adopt hP.2 hpass hd⟩)
    ⟨fun e he => hasked e (Or.inr he), fun e flags hd =>
      enforced_of_proposal ((hvalue e flags hd).resolve_left (by simp))⟩ h
  rw [hout] at hfixed ⊢
  refine ⟨final, settled_of_pass hpass hfixed hfinal, fun hf hall e he => ?_⟩
  exact hf.exists_outcome (fun c hc => hmem c (hall c hc)) hpass he

/-- A settled round has its outcomes in ascending order. -/
theorem ascending_of_settlement {order : List (Element D)} {s : Settlement D}
    (h : f.settlement config order = .ok s) : Ascending (s.outcomes.map (·.element)) := by
  obtain ⟨proposed, -, h⟩ := bind_eq_ok.1 h
  obtain ⟨final, statuses, -, hpass, hout, -⟩ := settle_eq_ok (P := fun _ => True)
    (fun _ _ _ _ => trivial) trivial h
  rw [hout]
  exact ascending_outcomes hpass

namespace Settled

theorem mem (h : Settled f config final outcomes) (ho : o ∈ outcomes) : o.element ∈ f := by
  obtain ⟨r, hr, -⟩ := h.acted o ho
  exact mem_of_record hr

theorem eq_of_element (h : Settled f config final outcomes) {o' : Outcome D} (ho : o ∈ outcomes)
    (ho' : o' ∈ outcomes) (heq : o.element = o'.element) : o = o' := by
  obtain ⟨r, hr, -, happly⟩ := h.acted o ho
  obtain ⟨r', hr', -, happly'⟩ := h.acted o' ho'
  have hflags := h.decided o ho
  rw [heq, h.decided o' ho', Option.some.injEq] at hflags
  rw [heq, hr', Option.some.injEq] at hr
  rw [← hflags, heq, ← hr, happly', Except.ok.injEq] at happly
  exact happly.symm

theorem replacement (h : Settled f config final outcomes) (ho : o ∈ outcomes) :
    o.flags.replacement o.element = .ok o.replacement := by
  obtain ⟨r, -, -, happly⟩ := h.acted o ho
  exact (Decision.apply_eq_ok happly).2.2.1

/-- The mesh of an element stays exactly if it settled on no other resolution. -/
theorem mesh?_eq_iff (h : Settled f config final outcomes) (ho : o ∈ outcomes) :
    f.mesh? o.element = some o.mesh ↔ ∀ d, ¬ (o.flags.get d).IsResolution := by
  obtain ⟨r, hr, -, happly⟩ := h.acted o ho
  rw [mesh?_of_record hr, Option.some.injEq, eq_comm, Decision.mesh_of_apply_eq_iff happly]

end Settled

end Forest

end AdaptiveMesh
