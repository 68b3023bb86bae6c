/-
In which order a round asks for proposals.

A round asks one element after another what it proposes, and the first refusal ends it.  Up to there
the order leaves no trace: the proposals are kept by element, and every pass after them goes through
the elements in ascending order.  So a round in which nobody is refused is the round in ascending
order, whatever the order was.

Refusals are where the order shows.  The fault names the element that was refused, and which element
that is depends on who was asked first.  Two orders come to the same answer exactly if they come to
the same refused element first.
-/
import AdaptiveMesh.Proofs.Faults
import AdaptiveMesh.Proofs.Reachable

namespace AdaptiveMesh

variable {D : Nat}

namespace Forest

variable {f : Forest D} {config : Config D} {e c : Element D} {order p q : List (Element D)}
  {decisions : Decisions D} {flags : Decision D} {fault : Fault D}

/-! ### Who is refused first -/

/-- Asking the element for its proposal fails. -/
def Refuses (f : Forest D) (config : Config D) (e : Element D) : Prop :=
  ∃ fault, f.proposal config e = .error fault

instance (f : Forest D) (config : Config D) (e : Element D) : Decidable (f.Refuses config e) :=
  decidable_of_iff ((f.proposal config e).toOption = none) (by
    unfold Refuses
    cases f.proposal config e <;> simp [Except.toOption])

/-- The first element in the order that is refused. -/
def firstRefused? (f : Forest D) (config : Config D) (order : List (Element D)) :
    Option (Element D) :=
  order.find? fun e => f.Refuses config e

theorem refuses_of_firstRefused? (h : f.firstRefused? config order = some e) :
    f.Refuses config e := by
  have htest := List.find?_some h
  exact of_decide_eq_true htest

theorem firstRefused?_eq_none_iff (horder : order.Perm f.elements) :
    f.firstRefused? config order = none ↔ ∀ e ∈ f, ¬ f.Refuses config e := by
  unfold firstRefused?
  rw [List.find?_eq_none]
  simp only [decide_eq_true_eq, horder.mem_iff, mem_elements]

/-- The fault with which a proposal is refused names the element. -/
theorem refusal_of_proposal_eq_error (h : f.proposal config e = .error fault) :
    fault = .unknownElement e ∨ config.policies.Refusal e fault := by
  rcases bind_eq_error.1 h with h | ⟨r, -, h⟩
  · exact Or.inl (record_eq_error h).2
  · obtain ⟨given, -, h⟩ := Config.proposal_eq_error h
    exact Or.inr (Policies.enforce_eq_error h)

/-- No two elements are refused with the same fault. -/
theorem eq_of_proposal_eq_error (he : f.proposal config e = .error fault)
    (hc : f.proposal config c = .error fault) : e = c := by
  rcases refusal_of_proposal_eq_error he with rfl | he
  · rcases refusal_of_proposal_eq_error hc with hc | hc
    · exact Fault.unknownElement.inj hc
    · cases hc
  · rcases refusal_of_proposal_eq_error hc with rfl | hc
    · cases he
    · cases he <;> cases hc <;> rfl

/-! ### Asking in some order -/

/-- Asking fails with the fault of the first element that is refused. -/
theorem foldlM_proposal_eq_error_iff (start : Decisions D) :
    order.foldlM (fun decisions e => return decisions.insert e (← f.proposal config e)) start
        = .error fault ↔
      ∃ e, f.firstRefused? config order = some e ∧ f.proposal config e = .error fault := by
  induction order generalizing start with
  | nil => simp [firstRefused?, pure, Except.pure]
  | cons c order ih =>
      rw [List.foldlM_cons]
      cases hc : f.proposal config c with
      | error fault' =>
          have hfirst : f.firstRefused? config (c :: order) = some c :=
            List.find?_cons_of_pos (decide_eq_true ⟨fault', hc⟩)
          show (Except.error fault' : Except (Fault D) (Decisions D)) = .error fault ↔ _
          rw [hfirst, Except.error.injEq]
          constructor
          · intro h
            exact ⟨c, rfl, h ▸ hc⟩
          · rintro ⟨e, he, h⟩
            obtain rfl := Option.some.inj he
            rw [hc] at h
            exact Except.error.inj h
      | ok flags =>
          have hfirst : f.firstRefused? config (c :: order) = f.firstRefused? config order := by
            refine List.find?_cons_of_neg fun hrefuses => ?_
            obtain ⟨fault', h⟩ := of_decide_eq_true hrefuses
            rw [hc] at h
            contradiction
          rw [hfirst]
          exact ih (start.insert c flags)

theorem proposals_eq_error_iff : f.proposals config order = .error fault ↔
    ∃ e, f.firstRefused? config order = some e ∧ f.proposal config e = .error fault :=
  foldlM_proposal_eq_error_iff ∅

/-- When all elements were asked, their proposals are known, and nothing else is. -/
theorem getElem?_proposals (horder : order.Perm f.elements)
    (h : f.proposals config order = .ok decisions) :
    decisions[e]? = some flags ↔ f.proposal config e = .ok flags := by
  obtain ⟨hmem, hvalue⟩ := foldlM_proposal_eq_ok h
  have hproposal : ∀ {flags}, decisions[e]? = some flags → f.proposal config e = .ok flags :=
    fun hd => (hvalue e _ hd).resolve_left (by simp)
  refine ⟨hproposal, fun hp => ?_⟩
  obtain ⟨r, -, hr, -⟩ := proposal_eq_ok hp
  have he : e ∈ order := horder.mem_iff.2 (mem_elements.2 (mem_of_record hr))
  obtain ⟨flags', hd⟩ := Option.isSome_iff_exists.1
    (Std.ExtTreeMap.mem_iff_isSome_getElem?.1 (hmem e (Or.inr he)))
  obtain rfl := Except.ok.inj ((hproposal hd).symm.trans hp)
  exact hd

/-- If nobody is refused, the proposals do not depend on the order. -/
theorem proposals_eq_of_forall (hp : p.Perm f.elements) (hq : q.Perm f.elements)
    (hnone : ∀ e ∈ f, ¬ f.Refuses config e) :
    f.proposals config p = f.proposals config q := by
  have hasked : ∀ {order : List (Element D)}, order.Perm f.elements →
      ∃ decisions, f.proposals config order = .ok decisions := by
    intro order horder
    cases h : f.proposals config order with
    | ok decisions => exact ⟨decisions, rfl⟩
    | error fault =>
        obtain ⟨e, he, -⟩ := proposals_eq_error_iff.1 h
        rw [(firstRefused?_eq_none_iff horder).2 hnone] at he
        contradiction
  obtain ⟨first, hfirst⟩ := hasked hp
  obtain ⟨second, hsecond⟩ := hasked hq
  rw [hfirst, hsecond]
  refine congrArg Except.ok (Std.ExtTreeMap.ext_getElem? fun e => Option.ext fun flags => ?_)
  rw [getElem?_proposals hp hfirst, getElem?_proposals hq hsecond]

/-! ### Rounds in some order -/

/-- A round fails with the fault of the first element that is refused, and changes nothing. -/
theorem refineInOrder_of_firstRefused? (h : f.firstRefused? config order = some e)
    (hfault : f.proposal config e = .error fault) :
    f.refineInOrder config order = (.error fault, f) := by
  refine refineInOrder_of_error ?_
  unfold settlement
  rw [proposals_eq_error_iff.2 ⟨e, h, hfault⟩]
  rfl

/-- If nobody is refused, the round is the round in ascending order. -/
theorem refineInOrder_of_forall (horder : order.Perm f.elements)
    (hnone : ∀ e ∈ f, ¬ f.Refuses config e) :
    f.refineInOrder config order = f.refine config := by
  unfold refine refineInOrder settlement
  rw [proposals_eq_of_forall horder (.refl _) hnone]

/-- If somebody is refused, the round fails over the first one. -/
theorem exists_firstRefused (horder : order.Perm f.elements)
    (hsome : ¬ ∀ e ∈ f, ¬ f.Refuses config e) :
    ∃ e ∈ f, ∃ fault, f.firstRefused? config order = some e ∧
      f.proposal config e = .error fault ∧
      f.refineInOrder config order = (.error fault, f) := by
  rw [← firstRefused?_eq_none_iff horder] at hsome
  obtain ⟨e, he⟩ := Option.ne_none_iff_exists'.1 hsome
  have hmem : e ∈ f := mem_elements.1 (horder.mem_iff.1 (List.mem_of_find?_eq_some he))
  obtain ⟨fault, hfault⟩ := refuses_of_firstRefused? he
  exact ⟨e, hmem, fault, he, hfault, refineInOrder_of_firstRefused? he hfault⟩

/-- Whatever the order, a round leaves the same forest, and if it succeeds it says the same.  Two
orders get the same answer exactly if the same element is the first that is refused. -/
theorem rounds_agree_iff (hp : p.Perm f.elements) (hq : q.Perm f.elements) :
    (f.refineInOrder config p).2 = (f.refineInOrder config q).2 ∧
    (∀ summary, (f.refineInOrder config p).1 = .ok summary ↔
      (f.refineInOrder config q).1 = .ok summary) ∧
    ((f.refineInOrder config p).1 = (f.refineInOrder config q).1 ↔
      f.firstRefused? config p = f.firstRefused? config q) := by
  by_cases hnone : ∀ e ∈ f, ¬ f.Refuses config e
  · have hfirst := (firstRefused?_eq_none_iff hp).2 hnone
    have hsecond := (firstRefused?_eq_none_iff hq).2 hnone
    rw [refineInOrder_of_forall hp hnone, refineInOrder_of_forall hq hnone, hfirst, hsecond]
    exact ⟨rfl, fun _ => Iff.rfl, iff_of_true rfl rfl⟩
  · obtain ⟨e, -, given, he, hgiven, hround⟩ := exists_firstRefused hp hnone
    obtain ⟨c, -, theirs, hc, htheirs, hround'⟩ := exists_firstRefused hq hnone
    rw [hround, hround', he, hc]
    refine ⟨rfl, fun summary => iff_of_false (by simp) (by simp), ?_⟩
    constructor
    · intro h
      obtain rfl := Except.error.inj h
      rw [eq_of_proposal_eq_error hgiven htheirs]
    · intro h
      obtain rfl := Option.some.inj h
      exact congrArg Except.error (Except.error.inj (hgiven.symm.trans htheirs))

section Ring

/-- All elements of the ring are refused, and here the same one of them is asked first. -/
theorem rounds_agree_splitRing :
    (splitRing.refineInOrder strictConfig
        [square (1, 0) (1, 0), square (1, 1) (0, 0), square (1, 0) (1, 1)]).1 =
      (splitRing.refine strictConfig).1 := by
  have hperm : [square (1, 0) (1, 0), square (1, 1) (0, 0), square (1, 0) (1, 1)].Perm
      splitRing.elements := by decide +kernel
  have hfirst : splitRing.firstRefused? strictConfig
      [square (1, 0) (1, 0), square (1, 1) (0, 0), square (1, 0) (1, 1)] =
      splitRing.firstRefused? strictConfig splitRing.elements := by decide +kernel
  exact (rounds_agree_iff hperm (.refl _)).2.2.2 hfirst

/-- Asked the other way round, another one is reported. -/
theorem rounds_differ_splitRing :
    Reachable splitRing ∧ splitRing.elements.reverse.Perm splitRing.elements ∧
      (splitRing.refineInOrder strictConfig splitRing.elements.reverse).1 ≠
        (splitRing.refine strictConfig).1 :=
  ⟨reachable_splitRing, List.reverse_perm _, by decide +kernel⟩

end Ring

/-- An element that is refused is reported when it is asked first. -/
theorem exists_order_of_refused (he : e ∈ f) (hfault : f.proposal config e = .error fault) :
    ∃ order, order.Perm f.elements ∧ f.refineInOrder config order = (.error fault, f) := by
  have hperm := (List.perm_cons_erase (mem_elements.2 he)).symm
  have hfirst : f.firstRefused? config (e :: f.elements.erase e) = some e :=
    List.find?_cons_of_pos (decide_eq_true ⟨fault, hfault⟩)
  exact ⟨_, hperm, refineInOrder_of_firstRefused? hfirst hfault⟩

/-- The order makes no difference at all exactly if one element at most is refused. -/
theorem refineInOrder_eq_refine_iff :
    (∀ order, order.Perm f.elements → f.refineInOrder config order = f.refine config) ↔
      ∀ e ∈ f, ∀ c ∈ f, f.Refuses config e → f.Refuses config c → e = c := by
  constructor
  · intro hall e he c hc
    rintro ⟨given, hgiven⟩ ⟨theirs, htheirs⟩
    obtain ⟨p, hp, hround⟩ := exists_order_of_refused he hgiven
    obtain ⟨q, hq, hround'⟩ := exists_order_of_refused hc htheirs
    have hsame := (hall p hp).trans (hall q hq).symm
    rw [hround, hround', Prod.mk.injEq, Except.error.injEq] at hsame
    exact eq_of_proposal_eq_error hgiven (hsame.1 ▸ htheirs)
  · intro hone order horder
    by_cases hnone : ∀ e ∈ f, ¬ f.Refuses config e
    · exact refineInOrder_of_forall horder hnone
    · obtain ⟨e, he, given, -, hgiven, hround⟩ := exists_firstRefused horder hnone
      obtain ⟨c, hc, theirs, -, htheirs, hround'⟩ := exists_firstRefused (.refl _) hnone
      obtain rfl : e = c := hone e he c hc ⟨given, hgiven⟩ ⟨theirs, htheirs⟩
      rw [hround, refine, hround', Except.error.inj (hgiven.symm.trans htheirs)]

end Forest

end AdaptiveMesh
