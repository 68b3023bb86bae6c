/-
Balancing once, and once more.

Whatever a neighbour asks for is granted at once and stays granted, since decisions are only
raised.  A join towards a sibling is different: it is kept if the sibling will be at the levels
that the decision leads to at that moment, and a neighbour that is met later may take another join
away from the decision.  The sibling that was met first is not met again.  So one balancing may
leave a join towards a sibling that goes on joining along an axis along which the element has given
that up, and balancing the result once more against the same announcements gives the join up.  This
is the only way in which balancing is not final, and each time that it happens the decision
climbs, so it cannot go on.
-/
import AdaptiveMesh.Proofs.Causes
import AdaptiveMesh.Proofs.Stall

namespace AdaptiveMesh

variable {D : Nat}

/-! ### One comparison

What a neighbour asks for does not come back: of a flag that was raised nothing new is asked.  To be
at the levels of a sibling is different, since raising any flag leads to other levels.  All of the
following comes from this difference. -/

namespace Flag

variable {a b : Flag} {l theirs : Nat}

/-- Of a flag that was raised nothing is asked that was not asked before. -/
theorem RaisedTo.raised?_eq_none (h : a.RaisedTo b) (hl : a = .join → 0 < l)
    (ha : a.raised? (a.levelFrom l) theirs = none) : b.raised? (b.levelFrom l) theirs = none := by
  rcases h with rfl | ⟨rfl, rfl⟩ | ⟨-, rfl⟩
  · exact ha
  · have hpos := hl rfl
    refine if_neg fun heq => ?_
    have heq : theirs = l - 1 + 3 := by
      simp only [levelFrom] at heq
      omega
    unfold raised? levelFrom at ha
    dsimp only at ha
    rw [if_pos heq] at ha
    contradiction
  · rfl

theorem RaisedTo.eq_join (h : a.RaisedTo b) (hb : b = .join) : a = .join := by
  rcases h with rfl | ⟨-, rfl⟩ | ⟨-, rfl⟩
  · exact hb
  · contradiction
  · contradiction

end Flag

namespace Standing

variable {s : Standing D} {e : Element D} {a b flags : Decision D} {face : Face D}
  {theirs : Vector Nat D} {normal : Bool} {d : Fin D}

theorem asked?_eq_none_of_raisedTo (h : a.RaisedTo b) (hj : a.CanJoin e)
    (ha : (start e a).asked? face theirs normal d = none) :
    (start e b).asked? face theirs normal d = none := by
  unfold asked? at ha ⊢
  split
  · rfl
  · next hcompares =>
    rw [if_neg hcompares] at ha
    simp only [start, Element.get_desiredLevels] at ha ⊢
    exact (h d).raised?_eq_none (hj d) ha

/-- What is asked is granted. -/
theorem asked?_raise : (s.raise face theirs normal).asked? face theirs normal d = none := by
  cases ha : s.asked? face theirs normal d with
  | none =>
      obtain ⟨hflags, hlevels⟩ := get_raise_of_none ha
      unfold asked? at ha ⊢
      rw [hflags, hlevels]
      exact ha
  | some a =>
      have htheirs := (Flag.raised?_eq_some (asked?_eq_some_iff.1 ha).2).2.2
      refine asked?_eq_none_of_le (Nat.le_of_eq ?_)
      rw [htheirs, (get_raise_of_some ha).2]

/-- After a comparison nothing more is asked. -/
theorem From.asked?_compare (h : From e flags s) (hj : flags.CanJoin e) :
    (start e (s.compare e face theirs normal).flags).asked? face theirs normal d = none := by
  have hraised : From e flags (s.raise face theirs normal) := h.raise hj
  refine asked?_eq_none_of_raisedTo raisedTo_leaveSibling (hraised.raised.canJoin hj) ?_
  rw [← hraised.asked?_eq]
  exact asked?_raise

/-- A join towards a sibling is kept only if the sibling will be at the levels to which the decision
leads then. -/
theorem From.levels_eq_of_compare (h : From e flags s) (hj : flags.CanJoin e)
    (hsibling : e.HasPotentialSibling face)
    (hjoin : (s.compare e face theirs normal).flags.get face.axis = .join) :
    e.desiredLevels (s.compare e face theirs normal).flags = theirs := by
  have hraised : From e flags (s.raise face theirs normal) := h.raise hj
  unfold Standing.compare Standing.leaveSibling at hjoin ⊢
  split
  · next hleave =>
    rw [if_pos hleave, get_setAxis, if_pos rfl] at hjoin
    contradiction
  · next hstay =>
    rw [if_neg hstay] at hjoin
    rw [← hraised.levels]
    exact Classical.not_not.1 fun hne => hstay ⟨hsibling, hjoin, hne⟩

end Standing

namespace Site

variable {s : Site D} {normal : Bool} {feed : Feed D} {a b flags : Decision D} {face : Face D}
  {levels : Vector Nat D} {revision first second : Revision D}

/-! ### Runs -/

/-- What an announcement asks for is granted by the time that it has been heeded. -/
theorem Heeds.unasked (h : s.Heeds normal feed face levels a b) (hj : a.CanJoin s.element)
    (d : Fin D) : (Standing.start s.element b).asked? face levels normal d = none := by
  obtain ⟨mid, hbefore, hafter⟩ := h
  have hmid := hbefore.raisedTo.canJoin hj
  have hmet : (Standing.start s.element (s.compared normal mid face levels)).asked? face levels
      normal d = none := (Standing.from_start s.element mid).asked?_compare hmid
  have hmeet : mid.RaisedTo (s.compared normal mid face levels) := Standing.raisedTo_compare
  exact Standing.asked?_eq_none_of_raisedTo hafter.raisedTo (hmeet.canJoin hmid) hmet

/-- If a join towards a sibling is left, some decision on the way led to the levels at which the
sibling will be. -/
theorem Heeds.exists_levels_eq (h : s.Heeds normal feed face levels a b)
    (hj : a.CanJoin s.element) (hsibling : s.element.HasPotentialSibling face)
    (hb : b.get face.axis = .join) :
    ∃ c, a.RaisedTo c ∧ c.RaisedTo b ∧ s.element.desiredLevels c = levels := by
  obtain ⟨mid, hbefore, hafter⟩ := h
  have hmeet : mid.RaisedTo (s.compared normal mid face levels) := Standing.raisedTo_compare
  refine ⟨_, hbefore.raisedTo.trans hmeet, hafter.raisedTo, ?_⟩
  exact (Standing.from_start s.element mid).levels_eq_of_compare (hbefore.raisedTo.canJoin hj)
    hsibling ((hafter.raisedTo face.axis).eq_join hb)

/-! ### Balancing once more

Whatever neighbours ask for was granted the first time.  So all that a second balancing can find is
a join towards a sibling that will not be at the levels to which the decision leads by now. -/

/-- Every join that is left towards a potential sibling leads to the levels at which the sibling
will be. -/
def Together (s : Site D) (feed : Feed D) (flags : Decision D) : Prop :=
  ∀ face levels, s.Announces feed face levels → s.element.HasPotentialSibling face →
    flags.get face.axis = .join → s.element.desiredLevels flags = levels

/-- A join is left towards a potential sibling that joins along another axis too, along which the
element has given its own join up. -/
def OutOfStep (s : Site D) (feed : Feed D) (before after : Decision D) : Prop :=
  ∃ face levels, s.Announces feed face levels ∧ s.element.HasPotentialSibling face ∧
    after.get face.axis = .join ∧ ∃ d, before.get d = .join ∧ after.get d ≠ .join ∧
      levels.get d + 1 = (s.element.segment d).level

theorem together_iff_not_outOfStep (h : s.balance normal flags feed = .ok (.balanced revision))
    (hj : flags.CanJoin s.element) (hone : flags.OneWay) :
    s.Together feed revision.flags ↔ ¬ s.OutOfStep feed flags revision.flags := by
  constructor
  · rintro htogether ⟨face, levels, hannounced, hsibling, hjoin, d, -, hlost, hlevel⟩
    have hup := Flag.le_levelFrom_of_ne_join hlost (l := (s.element.segment d).level)
    rw [← Element.get_desiredLevels, htogether face levels hannounced hsibling hjoin] at hup
    omega
  · intro hnot face levels hannounced hsibling hjoin
    obtain ⟨c, hac, hcb, rfl⟩ :=
      (heeds_balance h hj hannounced).exists_levels_eq hj hsibling hjoin
    refine ext_get fun d => ?_
    -- after the sibling was met the decision can only have given up joins
    rcases hcb d with heq | ⟨hc, hb⟩ | ⟨-, hb⟩
    · rw [Element.get_desiredLevels, Element.get_desiredLevels, heq]
    · refine absurd ⟨face, _, hannounced, hsibling, hjoin, d, (hac d).eq_join hc, ?_, ?_⟩ hnot
      · rw [hb]
        exact fun heq => by contradiction
      · have hpos := hac.canJoin hj d hc
        rw [Element.get_desiredLevels, hc]
        exact Nat.sub_add_cancel hpos
    · exact absurd ⟨⟨d, hb⟩, ⟨face.axis, hjoin⟩⟩ (oneWay_balance h hone)

/-- A second balancing against the same announcements changes nothing exactly if every join that the
first one left leads to the levels of the sibling. -/
theorem changed_again_iff (h : s.balance normal flags feed = .ok (.balanced first))
    (hagain : s.balance normal first.flags feed = .ok (.balanced second))
    (hj : flags.CanJoin s.element) (hone : flags.OneWay) :
    second.changed = false ↔ s.Together feed first.flags := by
  have hjoin := (balance_from h hj).raised.canJoin hj
  constructor
  · intro hsame face levels hannounced hsibling haxis
    exact (content_of_balance hagain hjoin hsame hannounced).together hsibling haxis
  · intro htogether
    have heq : second.flags = first.flags := by
      refine (runs_balance hagain hjoin).eq_of_content ?_ fun face levels hannounced => ?_
      · exact (oneWay_balance h hone).dropJoinsBesideSplit_eq
      · exact ⟨(heeds_balance h hj hannounced).unasked hj,
          fun hsibling haxis => htogether face levels hannounced hsibling haxis⟩
    exact Bool.eq_false_iff.2 fun hchanged => (balance_from hagain hjoin).changed.1 hchanged heq

variable {config : Config D} {m : Mesh D}

/-- Among neighbours across its faces, balancing a decision that was enforced once more, against the
same announcements, changes nothing exactly if all joins that are left lead to the levels of the
siblings.  They do unless a join is left towards a potential sibling that joins along another axis
too, along which the element has given its own join up. -/
theorem balance_again (he : config.enforce s.element m flags = .ok flags) (hfaces : s.beyond = ∅)
    (hfeed : ∀ c ∈ s.neighbors, ∃ theirs, feed c = some theirs) (normal : Bool) :
    ∃ first second, s.balance normal flags feed = .ok (.balanced first) ∧
      s.balance normal first.flags feed = .ok (.balanced second) ∧
      (second.changed = false ↔ s.Together feed first.flags) ∧
      (second.changed = false ↔ ¬ s.OutOfStep feed flags first.flags) := by
  have hj : flags.CanJoin s.element := fun d hd => Policies.level_pos_of_enforce he hd
  have hone : flags.OneWay := fun hboth => Policies.not_has_join_of_enforce he hboth.1 hboth.2
  have hmissing : s.missing feed = [] := missing_eq_nil_iff.2 hfeed
  obtain ⟨first, hfirst⟩ := exists_balanced normal flags hfaces hmissing
  obtain ⟨second, hsecond⟩ := exists_balanced normal first.flags hfaces hmissing
  have hiff := changed_again_iff hfirst hsecond hj hone
  exact ⟨first, second, hfirst, hsecond, hiff,
    hiff.trans (together_iff_not_outOfStep hfirst hj hone)⟩

/-- Along a single axis, balancing is final. -/
theorem not_outOfStep_of_le_one (hD : D ≤ 1) : ¬ s.OutOfStep feed a b := by
  rintro ⟨face, levels, -, -, hjoin, d, -, hlost, -⟩
  have : Subsingleton (Fin D) := Fin.subsingleton_iff_le_one.2 hD
  exact hlost (Subsingleton.elim face.axis d ▸ hjoin)

/-! ### Balancing again and again

Each balancing leaves the decision as it is or lets it climb, and it can climb no more than twice
along each axis.  The induction is on the number of balancings, and carries along that there is a
parent along every axis that joins. -/

/-- The decision after balancing; a decision that cannot be balanced is left. -/
def rebalanced (s : Site D) (normal : Bool) (feed : Feed D) (flags : Decision D) : Decision D :=
  match s.balance normal flags feed with
  | .ok (.balanced revision) => revision.flags
  | _ => flags

theorem rebalanced_of_balance (h : s.balance normal flags feed = .ok (.balanced revision)) :
    s.rebalanced normal feed flags = revision.flags := by
  unfold rebalanced
  rw [h]

theorem raisedTo_rebalanced (hj : flags.CanJoin s.element) :
    flags.RaisedTo (s.rebalanced normal feed flags) := by
  unfold rebalanced
  split
  · next h => exact (balance_from h hj).raised
  · exact .refl flags

theorem canJoin_iterate_rebalanced (hj : flags.CanJoin s.element) (n : Nat) :
    ((s.rebalanced normal feed)^[n] flags).CanJoin s.element := by
  induction n with
  | zero => exact hj
  | succ n ih =>
      rw [Function.iterate_succ_apply']
      exact (raisedTo_rebalanced ih).canJoin ih

/-- Balancing has come to rest, or the decision has climbed each time. -/
theorem rest_or_le_height (hj : flags.CanJoin s.element) (n : Nat) :
    (∃ k < n, s.rebalanced normal feed ((s.rebalanced normal feed)^[k] flags)
      = (s.rebalanced normal feed)^[k] flags) ∨
      n ≤ ((s.rebalanced normal feed)^[n] flags).height := by
  induction n with
  | zero => exact Or.inr (Nat.zero_le _)
  | succ n ih =>
      rcases ih with ⟨k, hk, hrest⟩ | hheight
      · exact Or.inl ⟨k, Nat.lt_succ_of_lt hk, hrest⟩
      · rw [Function.iterate_succ_apply']
        by_cases hrest : s.rebalanced normal feed ((s.rebalanced normal feed)^[n] flags)
            = (s.rebalanced normal feed)^[n] flags
        · exact Or.inl ⟨n, Nat.lt_succ_self n, hrest⟩
        · have hraised : ((s.rebalanced normal feed)^[n] flags).RaisedTo
              (s.rebalanced normal feed ((s.rebalanced normal feed)^[n] flags)) :=
            raisedTo_rebalanced (canJoin_iterate_rebalanced hj n)
          exact Or.inr (Nat.lt_of_le_of_lt hheight (hraised.climbs.height_lt hrest))

/-- Balanced again and again against the same announcements, a decision comes to rest. -/
theorem exists_rest (hj : flags.CanJoin s.element) (hfaces : s.beyond = ∅)
    (hfeed : ∀ c ∈ s.neighbors, ∃ theirs, feed c = some theirs) (normal : Bool) :
    ∃ n ≤ 2 * D, s.balance normal ((s.rebalanced normal feed)^[n] flags) feed
      = .ok (.balanced ⟨(s.rebalanced normal feed)^[n] flags, false⟩) := by
  obtain ⟨n, hn, hrest⟩ : ∃ n < 2 * D + 1, s.rebalanced normal feed
      ((s.rebalanced normal feed)^[n] flags) = (s.rebalanced normal feed)^[n] flags := by
    refine (rest_or_le_height hj (2 * D + 1)).resolve_right fun hheight => ?_
    have := ((s.rebalanced normal feed)^[2 * D + 1] flags).height_le
    omega
  obtain ⟨⟨final, changed⟩, h⟩ :=
    exists_balanced normal ((s.rebalanced normal feed)^[n] flags) hfaces
      (missing_eq_nil_iff.2 hfeed)
  have heq : final = (s.rebalanced normal feed)^[n] flags :=
    (rebalanced_of_balance h).symm.trans hrest
  have hsame : changed = false := Bool.eq_false_iff.2 fun hchanged =>
    (balance_from h (canJoin_iterate_rebalanced hj n)).changed.1 hchanged heq
  refine ⟨n, Nat.le_of_lt_succ hn, ?_⟩
  rw [h, heq, hsame]

section Quarters

open Forest

/-- A block that is cut into quarters. -/
def quarteredForest : Forest 2 := unevenForest.cut (square (1, 0) (0, 0)) 1

theorem reachable_quarteredForest : Reachable quarteredForest :=
  .cut reachable_unevenForest _ _

/-- The record of the quarter that is upper along the first axis and lower along the second. -/
def quarterRecord : Record 2 :=
  (quarteredForest.record (square (1, 1) (1, 0))).toOption.get (by decide +kernel)

/-- The site of that quarter. -/
def quarterSite : Site 2 := quarterRecord.site (square (1, 1) (1, 0))

/-- The quarter beside it along the first axis joins along both axes, the one beside it along the
second axis does not join along the second. -/
def quarterFeed : Feed 2 := fun c =>
  if c = square (1, 0) (1, 0) then some #v[.join, .join]
  else if c = square (1, 1) (1, 1) then some #v[.join, .doNothing]
  else none

theorem exists_quarterFeed :
    ∀ c ∈ quarterSite.neighbors, ∃ theirs, quarterFeed c = some theirs := by
  have hall : ∀ c ∈ quarterSite.neighbors.toList, (quarterFeed c).isSome := by decide +kernel
  exact fun c hc => Option.isSome_iff_exists.1 (hall c (Std.ExtTreeSet.mem_toList.2 hc))

theorem balance_quarterSite (normal : Bool) :
    quarterSite.balance normal #v[.join, .join] quarterFeed
        = .ok (.balanced ⟨#v[.join, .doNothing], true⟩) ∧
      quarterSite.balance normal #v[.join, .doNothing] quarterFeed
        = .ok (.balanced ⟨#v[.doNothing, .doNothing], true⟩) := by
  cases normal <;> decide +kernel

theorem enforce_quarterSite : coarsest.enforce quarterSite.element squareMesh #v[.join, .join]
    = .ok #v[.join, .join] := by
  decide +kernel

/-- The quarter keeps its join along the first axis although it has given up the one along the
second, so it is out of step with the quarter beside it. -/
theorem balance_again_quarterSite :
    quarterSite.OutOfStep quarterFeed #v[.join, .join] #v[.join, .doNothing] ∧
      ¬ quarterSite.Together quarterFeed #v[.join, .doNothing] := by
  obtain ⟨first, second, hfirst, hsecond, htogether, hstep⟩ :=
    balance_again enforce_quarterSite rfl exists_quarterFeed true
  obtain ⟨honce, htwice⟩ := balance_quarterSite true
  rw [honce, Except.ok.injEq, Balance.balanced.injEq] at hfirst
  subst hfirst
  rw [htwice, Except.ok.injEq, Balance.balanced.injEq] at hsecond
  subst hsecond
  exact ⟨Classical.byContradiction fun hno => Bool.noConfusion (hstep.2 hno),
    fun h => Bool.noConfusion (htogether.2 h)⟩

theorem enforce_quarterFeed : ∀ c ∈ quarterSite.neighbors, ∃ theirs, quarterFeed c = some theirs ∧
    quarteredForest.mesh? c = some squareMesh ∧
    coarsest.enforce c squareMesh theirs = .ok theirs := by
  have hall : ∀ c ∈ quarterSite.neighbors.toList, quarteredForest.mesh? c = some squareMesh ∧
      ∃ theirs ∈ quarterFeed c, coarsest.enforce c squareMesh theirs = .ok theirs := by
    decide +kernel
  intro c hc
  obtain ⟨hmesh, theirs, hfeed, henforce⟩ := hall c (Std.ExtTreeSet.mem_toList.2 hc)
  exact ⟨theirs, hfeed, hmesh, henforce⟩

/-- A decision that was enforced, among neighbours whose decisions were, can be changed by a second
balancing against the same announcements. -/
theorem balance_not_final_quarteredForest :
    Reachable quarteredForest ∧
      quarteredForest.records[square (1, 1) (1, 0)]? = some quarterRecord ∧
      coarsest.enforce (square (1, 1) (1, 0)) quarterRecord.mesh #v[.join, .join]
        = .ok #v[.join, .join] ∧
      (∀ c ∈ quarterSite.neighbors, ∃ theirs, quarterFeed c = some theirs ∧
        quarteredForest.mesh? c = some squareMesh ∧
        coarsest.enforce c squareMesh theirs = .ok theirs) ∧
      ∀ normal, ∃ first second : Revision 2,
        quarterSite.balance normal #v[.join, .join] quarterFeed = .ok (.balanced first) ∧
          quarterSite.balance normal first.flags quarterFeed = .ok (.balanced second) ∧
          second.changed = true :=
  ⟨reachable_quarteredForest, by decide +kernel, by decide +kernel, enforce_quarterFeed,
    fun normal => ⟨_, _, (balance_quarterSite normal).1, (balance_quarterSite normal).2, rfl⟩⟩

end Quarters

end Site

end AdaptiveMesh
