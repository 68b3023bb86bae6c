/-
Balancing.

Balancing compares a decision with what one neighbour after the other announces, across each
face that lists it, and drops joins beside a split after each of them.  So it is a run of moves
of two kinds, each of which raises the decision or leaves it, and in the course of the run every
announcement is heeded.

What a run does is known from what its moves do.  A split that was not there before was made in
one of the moves.  A run that ends where it began made no move that did anything, so the element
was content with every announcement; and an element that is content with all of them has no move
to make.
-/
import Mathlib.Logic.Relation
import AdaptiveMesh.Proofs.Comparing

namespace AdaptiveMesh

variable {D : Nat}

/-- The revision came from a decision by raising flags, and knows whether it did. -/
structure Revision.From (flags : Decision D) (r : Revision D) : Prop where
  /-- The flags were raised or left. -/
  raised : flags.RaisedTo r.flags
  /-- A change was noted exactly if there was one. -/
  changed : r.changed = true ↔ r.flags ≠ flags

theorem Revision.From.flags_eq {flags : Decision D} {r : Revision D} (h : r.From flags)
    (hchanged : r.changed = false) : r.flags = flags := by
  by_contra hne
  rw [h.changed.2 hne] at hchanged
  contradiction

namespace Site

variable {s : Site D} {normal : Bool} {feed : Feed D} {a b flags theirs : Decision D}
  {face : Face D} {levels : Vector Nat D} {c : Element D} {d : Fin D}
  {contacts : List (Face D × Contact D)} {contact : Face D × Contact D} {standing : Standing D}
  {neighbors : List (Element D × Decision D)} {neighbor : Element D × Decision D}
  {revision next last : Revision D}

/-! ### Moves

To compare with a neighbour and to drop joins beside a split are treated alike.  What is proved of a
move holds of any number of moves in any order, and this is all that balancing consists of. -/

/-- A neighbour that is listed across a face will be at these levels, arranged by the element's
axes. -/
def Announces (s : Site D) (feed : Feed D) (face : Face D) (levels : Vector Nat D) : Prop :=
  ∃ k, s.neighborhood[face] = some k ∧ ∃ c ∈ k.elements, ∃ theirs, feed c = some theirs ∧
    levels = c.desiredLevelsThrough theirs k.orientation

/-- The decision after a comparison with what a neighbour announces across a face. -/
def compared (s : Site D) (normal : Bool) (flags : Decision D) (face : Face D)
    (levels : Vector Nat D) : Decision D :=
  ((Standing.start s.element flags).compare s.element face levels normal).flags

/-- What balancing does at a time. -/
inductive Moves (s : Site D) (normal : Bool) (feed : Feed D) : Decision D → Decision D → Prop where
  /-- The decision is compared with what a neighbour announces. -/
  | meets (flags : Decision D) {face : Face D} {levels : Vector Nat D}
      (h : s.Announces feed face levels) :
      Moves s normal feed flags (s.compared normal flags face levels)
  /-- Joins beside a split are dropped. -/
  | drops (flags : Decision D) : Moves s normal feed flags flags.dropJoinsBesideSplit

theorem Moves.raisedTo (h : s.Moves normal feed a b) : a.RaisedTo b := by
  cases h with
  | meets _ => exact Standing.raisedTo_compare
  | drops => exact Decision.raisedTo_dropJoinsBesideSplit a

/-- A move makes an axis split only towards a neighbour that will be two levels finer. -/
theorem Moves.split (h : s.Moves normal feed a b) (hj : a.CanJoin s.element)
    (ha : a.get d ≠ .split) (hb : b.get d = .split) :
    ∃ face levels, s.Announces feed face levels ∧ face.Compares normal d ∧
      levels.get d = (s.element.segment d).level + 2 := by
  cases h with
  | @meets face levels h =>
      have hcause := (Standing.from_start s.element a).split_compare hj hb
      exact ⟨face, levels, h, hcause.resolve_left ha⟩
  | drops => exact absurd (Decision.get_dropJoinsBesideSplit_eq_split_iff.1 hb) ha

/-! ### Runs

Whatever is raised on a run stays raised.  So a run that comes back to where it started has not
moved at all, and the element was content with everything that it heeded on the way. -/

/-- One move after another leads from the one decision to the other. -/
def Runs (s : Site D) (normal : Bool) (feed : Feed D) : Decision D → Decision D → Prop :=
  Relation.ReflTransGen (s.Moves normal feed)

theorem Runs.raisedTo (h : s.Runs normal feed a b) : a.RaisedTo b := by
  induction h with
  | refl => exact .refl a
  | tail _ hmove ih => exact ih.trans hmove.raisedTo

/-- What a run loses is lost in one of its moves. -/
theorem Runs.exists_loss {P : Decision D → Prop} (h : s.Runs normal feed a b) (ha : P a)
    (hb : ¬ P b) : ∃ x y, a.RaisedTo x ∧ s.Moves normal feed x y ∧ y.RaisedTo b ∧ P x ∧ ¬ P y := by
  induction h with
  | refl => exact absurd ha hb
  | @tail m b hrun hmove ih =>
      by_cases hm : P m
      · exact ⟨m, b, Runs.raisedTo hrun, hmove, .refl b, hm, hb⟩
      · obtain ⟨x, y, hx, hxy, hy, hPx, hPy⟩ := ih hm
        exact ⟨x, y, hx, hxy, hy.trans hmove.raisedTo, hPx, hPy⟩

/-- A run makes an axis split only towards a neighbour that will be two levels finer. -/
theorem Runs.split (h : s.Runs normal feed a b) (hj : a.CanJoin s.element)
    (ha : a.get d ≠ .split) (hb : b.get d = .split) :
    ∃ face levels, s.Announces feed face levels ∧ face.Compares normal d ∧
      levels.get d = (s.element.segment d).level + 2 := by
  obtain ⟨x, y, hx, hmove, -, hxd, hyd⟩ :=
    h.exists_loss (P := fun flags => flags.get d ≠ .split) ha (not_not_intro hb)
  exact hmove.split (hx.canJoin hj) hxd (Classical.not_not.1 hyd)

/-- Somewhere along the way the decision is compared with an announcement. -/
def Heeds (s : Site D) (normal : Bool) (feed : Feed D) (face : Face D) (levels : Vector Nat D)
    (a b : Decision D) : Prop :=
  ∃ mid, s.Runs normal feed a mid ∧ s.Runs normal feed (s.compared normal mid face levels) b

theorem Heeds.trans_runs {b' : Decision D} (h : s.Heeds normal feed face levels a b)
    (hrun : s.Runs normal feed b b') : s.Heeds normal feed face levels a b' := by
  obtain ⟨mid, hbefore, hafter⟩ := h
  exact ⟨mid, hbefore, hafter.trans hrun⟩

theorem Runs.trans_heeds {a' : Decision D} (hrun : s.Runs normal feed a' a)
    (h : s.Heeds normal feed face levels a b) : s.Heeds normal feed face levels a' b := by
  obtain ⟨mid, hbefore, hafter⟩ := h
  exact ⟨mid, hrun.trans hbefore, hafter⟩

/-- A run that ends where it began heeds only announcements with which the element is content. -/
theorem Heeds.content (h : s.Heeds normal feed face levels a a) :
    (Standing.start s.element a).Content s.element face levels normal := by
  obtain ⟨mid, hbefore, hafter⟩ := h
  have hmeet : mid.RaisedTo (s.compared normal mid face levels) := Standing.raisedTo_compare
  obtain rfl : a = mid := hbefore.raisedTo.antisymm (hmeet.trans hafter.raisedTo)
  exact Standing.flags_compare_eq_iff.1 (hafter.raisedTo.antisymm hmeet)

/-- An element that is content with all announcements has no move to make. -/
theorem Runs.eq_of_content (h : s.Runs normal feed a b) (hdrop : a.dropJoinsBesideSplit = a)
    (hcontent : ∀ face levels, s.Announces feed face levels →
      (Standing.start s.element a).Content s.element face levels normal) : b = a := by
  induction h with
  | refl => rfl
  | tail _ hmove ih =>
      subst ih
      cases hmove with
      | meets hannounced => exact Standing.flags_compare_eq_iff.2 (hcontent _ _ hannounced)
      | drops => exact hdrop

/-- Among neighbours that stay within bounds, a run does not lead beyond them. -/
theorem Runs.splitsBelow {bound : Fin D → Nat} (h : s.Runs normal feed a b)
    (hj : a.CanJoin s.element) (ha : a.SplitsBelow s.element bound)
    (hle : ∀ face levels, s.Announces feed face levels → ∀ d, levels.get d ≤ bound d) :
    b.SplitsBelow s.element bound := by
  intro d hb
  by_cases hd : a.get d = .split
  · exact ha d hd
  · obtain ⟨face, levels, hannounced, -, hlevel⟩ := h.split hj hd hb
    have := hle face levels hannounced d
    omega

/-! ### Balancing is a run

The loop over the neighbours and the loop over the faces that list a neighbour are opened here once.
Every turn of them is a move or several, and the announcement of each neighbour is heeded when its
turn comes. -/

theorem from_foldl_meet (h : standing.From s.element flags) (hj : flags.CanJoin s.element) :
    (contacts.foldl (s.meet normal c theirs) standing).From s.element flags := by
  induction contacts generalizing standing with
  | nil => exact h
  | cons contact contacts ih => exact ih (h.compare hj)

theorem announces_of_mem_contactsWith (hm : contact ∈ s.neighborhood.contactsWith c)
    (hfeed : feed c = some theirs) :
    s.Announces feed contact.1 (c.desiredLevelsThrough theirs contact.2.orientation) := by
  obtain ⟨hk, hc⟩ := Neighborhood.mem_contactsWith.1 hm
  exact ⟨contact.2, hk, c, hc, theirs, hfeed, rfl⟩

theorem flags_meet (h : standing.From s.element flags) :
    (s.meet normal c theirs standing contact).flags = s.compared normal standing.flags contact.1
      (c.desiredLevelsThrough theirs contact.2.orientation) :=
  h.flags_compare

theorem moves_meet (h : standing.From s.element flags)
    (hm : contact ∈ s.neighborhood.contactsWith c) (hfeed : feed c = some theirs) :
    s.Moves normal feed standing.flags (s.meet normal c theirs standing contact).flags := by
  rw [flags_meet h]
  exact .meets _ (announces_of_mem_contactsWith hm hfeed)

theorem runs_foldl_meet (h : standing.From s.element flags) (hj : flags.CanJoin s.element)
    (hcontacts : contacts ⊆ s.neighborhood.contactsWith c) (hfeed : feed c = some theirs) :
    s.Runs normal feed standing.flags (contacts.foldl (s.meet normal c theirs) standing).flags := by
  induction contacts generalizing standing with
  | nil => exact .refl
  | cons contact contacts ih =>
      obtain ⟨hcontact, hcontacts⟩ := List.cons_subset.1 hcontacts
      exact .head (moves_meet h hcontact hfeed) (ih (h.compare hj) hcontacts)

theorem heeds_foldl_meet (h : standing.From s.element flags) (hj : flags.CanJoin s.element)
    (hcontacts : contacts ⊆ s.neighborhood.contactsWith c) (hfeed : feed c = some theirs)
    (hm : contact ∈ contacts) :
    s.Heeds normal feed contact.1 (c.desiredLevelsThrough theirs contact.2.orientation)
      standing.flags (contacts.foldl (s.meet normal c theirs) standing).flags := by
  induction contacts generalizing standing with
  | nil => contradiction
  | cons first contacts ih =>
      obtain ⟨hfirst, hrest⟩ := List.cons_subset.1 hcontacts
      rcases List.mem_cons.1 hm with rfl | hm
      · refine ⟨standing.flags, .refl, ?_⟩
        rw [← flags_meet h]
        exact runs_foldl_meet (h.compare hj) hj hrest hfeed
      · have hmove : s.Runs normal feed standing.flags
            (s.meet normal c theirs standing first).flags := .single (moves_meet h hfirst hfeed)
        exact hmove.trans_heeds (ih (h.compare hj) hrest hm)

theorem revise_eq_ok (h : s.revise normal flags c theirs = .ok revision) :
    ∃ final, final = (s.neighborhood.contactsWith c).foldl (s.meet normal c theirs)
        (Standing.start s.element flags) ∧
      revision.flags = final.flags.dropJoinsBesideSplit ∧
      (revision.changed = true ↔ final.changed = true ∨ revision.flags ≠ final.flags) := by
  unfold revise at h
  split at h
  · contradiction
  · split at h
    · rw [← Except.ok.inj h]
      refine ⟨_, rfl, rfl, ?_⟩
      rw [Bool.or_eq_true, decide_eq_true_eq]
      rfl
    · contradiction

theorem revise_from (h : s.revise normal flags c theirs = .ok revision)
    (hj : flags.CanJoin s.element) : revision.From flags := by
  obtain ⟨final, hfinal, hflags, hchanged⟩ := revise_eq_ok h
  have hfrom : final.From s.element flags :=
    hfinal ▸ from_foldl_meet (Standing.from_start s.element flags) hj
  have hdrop := Decision.raisedTo_dropJoinsBesideSplit final.flags
  rw [← hflags] at hdrop
  exact ⟨hfrom.raised.trans hdrop, by rw [hchanged, hfrom.changed, hfrom.raised.ne_iff hdrop]⟩

theorem runs_revise (h : s.revise normal flags c theirs = .ok revision)
    (hj : flags.CanJoin s.element) (hfeed : feed c = some theirs) :
    s.Runs normal feed flags revision.flags := by
  obtain ⟨final, hfinal, hflags, -⟩ := revise_eq_ok h
  rw [hflags, hfinal]
  exact .tail (runs_foldl_meet (Standing.from_start s.element flags) hj (List.Subset.refl _) hfeed)
    (.drops _)

theorem heeds_revise (h : s.revise normal flags c theirs = .ok revision)
    (hj : flags.CanJoin s.element) (hfeed : feed c = some theirs)
    (hm : contact ∈ s.neighborhood.contactsWith c) :
    s.Heeds normal feed contact.1 (c.desiredLevelsThrough theirs contact.2.orientation) flags
      revision.flags := by
  obtain ⟨final, hfinal, hflags, -⟩ := revise_eq_ok h
  rw [hflags, hfinal]
  exact (heeds_foldl_meet (Standing.from_start s.element flags) hj (List.Subset.refl _) hfeed
    hm).trans_runs (.single (.drops _))

theorem reviseAgain_eq_ok (h : s.reviseAgain normal revision neighbor = .ok next) :
    ∃ r, s.revise normal revision.flags neighbor.1 neighbor.2 = .ok r ∧ next.flags = r.flags ∧
      (next.changed = true ↔ revision.changed = true ∨ r.changed = true) := by
  obtain ⟨r, hr, h⟩ := bind_eq_ok.1 h
  rw [← pure_eq_ok.1 h]
  refine ⟨r, hr, rfl, ?_⟩
  rw [Bool.or_eq_true]

theorem reviseAgain_from (h : s.reviseAgain normal revision neighbor = .ok next)
    (hr : revision.From flags) (hj : flags.CanJoin s.element) : next.From flags := by
  obtain ⟨r, hrev, hflags, hchanged⟩ := reviseAgain_eq_ok h
  have hfrom := revise_from hrev (hr.raised.canJoin hj)
  refine ⟨?_, ?_⟩
  · rw [hflags]
    exact hr.raised.trans hfrom.raised
  · rw [hchanged, hr.changed, hfrom.changed, hflags, hr.raised.ne_iff hfrom.raised]

theorem foldlM_reviseAgain_from
    (h : neighbors.foldlM (s.reviseAgain normal) revision = .ok last) (hr : revision.From flags)
    (hj : flags.CanJoin s.element) : last.From flags := by
  induction neighbors generalizing revision with
  | nil => exact pure_eq_ok.1 h ▸ hr
  | cons neighbor neighbors ih =>
      rw [List.foldlM_cons] at h
      obtain ⟨next, hnext, h⟩ := bind_eq_ok.1 h
      exact ih h (reviseAgain_from hnext hr hj)

theorem oneWay_reviseAgain (h : s.reviseAgain normal revision neighbor = .ok next) :
    next.flags.OneWay := by
  obtain ⟨r, hrev, hflags, -⟩ := reviseAgain_eq_ok h
  obtain ⟨final, -, hdrop, -⟩ := revise_eq_ok hrev
  rw [hflags, hdrop]
  exact Decision.oneWay_dropJoinsBesideSplit

theorem oneWay_foldlM_reviseAgain
    (h : neighbors.foldlM (s.reviseAgain normal) revision = .ok last)
    (hflags : revision.flags.OneWay) : last.flags.OneWay := by
  induction neighbors generalizing revision with
  | nil => exact pure_eq_ok.1 h ▸ hflags
  | cons neighbor neighbors ih =>
      rw [List.foldlM_cons] at h
      obtain ⟨next, hnext, h⟩ := bind_eq_ok.1 h
      exact ih h (oneWay_reviseAgain hnext)

theorem runs_reviseAgain (h : s.reviseAgain normal revision neighbor = .ok next)
    (hj : revision.flags.CanJoin s.element) (hfeed : feed neighbor.1 = some neighbor.2) :
    s.Runs normal feed revision.flags next.flags := by
  obtain ⟨r, hrev, hflags, -⟩ := reviseAgain_eq_ok h
  rw [hflags]
  exact runs_revise hrev hj hfeed

theorem runs_foldlM_reviseAgain
    (h : neighbors.foldlM (s.reviseAgain normal) revision = .ok last)
    (hj : revision.flags.CanJoin s.element) (hfeed : ∀ n ∈ neighbors, feed n.1 = some n.2) :
    s.Runs normal feed revision.flags last.flags := by
  induction neighbors generalizing revision with
  | nil => exact pure_eq_ok.1 h ▸ .refl
  | cons neighbor neighbors ih =>
      obtain ⟨hneighbor, hfeed⟩ := List.forall_mem_cons.1 hfeed
      rw [List.foldlM_cons] at h
      obtain ⟨next, hnext, h⟩ := bind_eq_ok.1 h
      have hrun := runs_reviseAgain hnext hj hneighbor
      exact hrun.trans (ih h (hrun.raisedTo.canJoin hj) hfeed)

theorem heeds_foldlM_reviseAgain
    (h : neighbors.foldlM (s.reviseAgain normal) revision = .ok last)
    (hj : revision.flags.CanJoin s.element) (hfeed : ∀ n ∈ neighbors, feed n.1 = some n.2)
    (hn : (c, theirs) ∈ neighbors) (hm : contact ∈ s.neighborhood.contactsWith c) :
    s.Heeds normal feed contact.1 (c.desiredLevelsThrough theirs contact.2.orientation)
      revision.flags last.flags := by
  induction neighbors generalizing revision with
  | nil => contradiction
  | cons first neighbors ih =>
      obtain ⟨hfirst, hrest⟩ := List.forall_mem_cons.1 hfeed
      rw [List.foldlM_cons] at h
      obtain ⟨next, hnext, hlast⟩ := bind_eq_ok.1 h
      have hrun := runs_reviseAgain hnext hj hfirst
      have hjnext := hrun.raisedTo.canJoin hj
      rcases List.mem_cons.1 hn with rfl | hn
      · obtain ⟨r, hrev, hflags, -⟩ := reviseAgain_eq_ok hnext
        have hheeds := heeds_revise hrev hj hfirst hm
        rw [← hflags] at hheeds
        exact hheeds.trans_runs (runs_foldlM_reviseAgain hlast hjnext hrest)
      · exact hrun.trans_heeds (ih hlast hjnext hrest hn)

theorem balance_eq_balanced (h : s.balance normal flags feed = .ok (.balanced revision)) :
    (s.published feed).foldlM (s.reviseAgain normal) ⟨flags, false⟩ = .ok revision := by
  unfold balance at h
  split at h
  · obtain ⟨r, hr, h⟩ := bind_eq_ok.1 h
    have heq := pure_eq_ok.1 h
    rw [Balance.balanced.injEq] at heq
    exact heq ▸ hr
  · exact absurd (Except.ok.inj h) (by simp)

theorem mem_neighbors_of_contact {k : Contact D} (hk : s.neighborhood[face] = some k)
    (hc : c ∈ k.elements) : c ∈ s.neighbors :=
  Std.ExtTreeSet.mem_union_iff.2 (Or.inl (Neighborhood.mem_elements.2 ⟨face, k, hk, hc⟩))

theorem mem_published {n : Element D × Decision D} :
    n ∈ s.published feed ↔ n.1 ∈ s.neighbors ∧ feed n.1 = some n.2 := by
  unfold published
  rw [List.mem_filterMap]
  simp only [Std.ExtTreeSet.mem_toList, Option.map_eq_some_iff]
  constructor
  · rintro ⟨c, hc, theirs, hfeed, rfl⟩
    exact ⟨hc, hfeed⟩
  · rintro ⟨hc, hfeed⟩
    exact ⟨n.1, hc, n.2, hfeed, rfl⟩

/-- Balancing raises a decision, and notes a change exactly if there is one. -/
theorem balance_from (h : s.balance normal flags feed = .ok (.balanced revision))
    (hj : flags.CanJoin s.element) : revision.From flags :=
  foldlM_reviseAgain_from (balance_eq_balanced h)
    ⟨.refl flags, iff_of_false (by simp) fun h => h rfl⟩ hj

/-- Balancing is a run. -/
theorem runs_balance (h : s.balance normal flags feed = .ok (.balanced revision))
    (hj : flags.CanJoin s.element) : s.Runs normal feed flags revision.flags :=
  runs_foldlM_reviseAgain (balance_eq_balanced h) hj fun _ hn => (mem_published.1 hn).2

/-- Balancing heeds all that is announced. -/
theorem heeds_balance (h : s.balance normal flags feed = .ok (.balanced revision))
    (hj : flags.CanJoin s.element) (hannounced : s.Announces feed face levels) :
    s.Heeds normal feed face levels flags revision.flags := by
  obtain ⟨k, hk, c, hc, theirs, hfeed, rfl⟩ := hannounced
  have hcn : c ∈ s.neighbors := mem_neighbors_of_contact hk hc
  have hm : (face, k) ∈ s.neighborhood.contactsWith c := Neighborhood.mem_contactsWith.2 ⟨hk, hc⟩
  have hn : (c, theirs) ∈ s.published feed := mem_published.2 ⟨hcn, hfeed⟩
  have hheeds := heeds_foldlM_reviseAgain (balance_eq_balanced h) hj
    (fun _ hn => (mem_published.1 hn).2) hn hm
  exact hheeds

/-- Balancing leaves a decision that goes one way. -/
theorem oneWay_balance (h : s.balance normal flags feed = .ok (.balanced revision))
    (hflags : flags.OneWay) : revision.flags.OneWay :=
  oneWay_foldlM_reviseAgain (balance_eq_balanced h) hflags

/-- An element is balanced only if all its neighbours have published a decision. -/
theorem exists_feed_of_balance (h : s.balance normal flags feed = .ok (.balanced revision))
    (hc : c ∈ s.neighbors) : ∃ theirs, feed c = some theirs := by
  unfold balance at h
  split at h
  · next hmissing => exact missing_eq_nil_iff.1 hmissing c hc
  · simp at h

/-! ### Breaking off

Neighbours that are listed where the element has no face are waited for like all others, but there
is nothing to compare them across.  So a balancing that has heard of everybody either compares with
all neighbours or breaks off, and which of the two does not depend on what was published. -/

/-- All neighbours have published a decision, and some are listed where the element has no face. -/
def BreaksOff (s : Site D) (feed : Feed D) : Prop := s.missing feed = [] ∧ s.beyond ≠ ∅

instance (s : Site D) (feed : Feed D) : Decidable (s.BreaksOff feed) :=
  inferInstanceAs (Decidable (_ ∧ _))

theorem mem_neighbors_of_mem_beyond (hc : c ∈ s.beyond) : c ∈ s.neighbors :=
  Std.ExtTreeSet.mem_union_iff.2 (Or.inr hc)

/-- Balancing fails only by breaking off. -/
theorem balance_eq_error {fault : Fault D} (h : s.balance normal flags feed = .error fault) :
    s.missing feed = [] ∧ ∃ c ∈ s.beyond, fault = .brokenOff c s.element := by
  unfold balance at h
  split at h
  · next hmissing =>
    refine ⟨hmissing, ?_⟩
    rcases bind_eq_error.1 h with h | ⟨revision, -, h⟩
    · obtain ⟨revision, n, hn, h⟩ := exists_step_of_foldlM_error h
      rcases bind_eq_error.1 h with h | ⟨next, -, h⟩
      · unfold revise at h
        split at h
        · next hbeyond => exact ⟨n.1, hbeyond, (Except.error.inj h).symm⟩
        · rw [if_pos (mem_published.1 hn).1] at h
          contradiction
      · contradiction
    · contradiction
  · contradiction

/-- A balancing that is completed has met nobody where the element has no face. -/
theorem beyond_eq_empty_of_balance (h : s.balance normal flags feed = .ok (.balanced revision)) :
    s.beyond = ∅ := by
  refine Std.ExtTreeSet.eq_empty_iff_forall_not_mem.2 fun c hc => ?_
  have hcn := mem_neighbors_of_mem_beyond hc
  obtain ⟨theirs, hfeed⟩ := exists_feed_of_balance h hcn
  have hn : (c, theirs) ∈ s.published feed := mem_published.2 ⟨hcn, hfeed⟩
  obtain ⟨before, after, hstep⟩ := exists_step_of_foldlM (balance_eq_balanced h) hn
  obtain ⟨r, hrev, -, -⟩ := reviseAgain_eq_ok hstep
  unfold revise at hrev
  rw [if_pos hc] at hrev
  contradiction

/-- With neighbours across its faces only, all of which have published a decision, an element is
balanced. -/
theorem exists_balanced (normal : Bool) (flags : Decision D) (hfaces : s.beyond = ∅)
    (hmissing : s.missing feed = []) :
    ∃ revision, s.balance normal flags feed = .ok (.balanced revision) := by
  cases h : s.balance normal flags feed with
  | error fault =>
      obtain ⟨-, c, hc, -⟩ := balance_eq_error h
      rw [hfaces] at hc
      exact absurd hc Std.ExtTreeSet.not_mem_empty
  | ok balance =>
      unfold Site.balance at h
      rw [if_pos hmissing] at h
      obtain ⟨revision, -, h⟩ := bind_eq_ok.1 h
      exact ⟨revision, congrArg Except.ok (pure_eq_ok.1 h).symm⟩

theorem BreaksOff.neighbors_ne_empty (h : s.BreaksOff feed) : s.neighbors ≠ ∅ := by
  obtain ⟨c, hc⟩ : ∃ c, c ∈ s.beyond := by
    by_contra hnone
    exact h.2 (Std.ExtTreeSet.eq_empty_iff_forall_not_mem.2 fun c hc => hnone ⟨c, hc⟩)
  intro hempty
  have hcn := mem_neighbors_of_mem_beyond hc
  rw [hempty] at hcn
  exact Std.ExtTreeSet.not_mem_empty hcn

theorem BreaksOff.exists_fault (h : s.BreaksOff feed) (normal : Bool) (flags : Decision D) :
    ∃ c, s.balance normal flags feed = .error (.brokenOff c s.element) := by
  cases hbalance : s.balance normal flags feed with
  | error fault =>
      obtain ⟨-, c, -, rfl⟩ := balance_eq_error hbalance
      exact ⟨c, rfl⟩
  | ok balance =>
      cases balance with
      | balanced revision => exact absurd (beyond_eq_empty_of_balance hbalance) h.2
      | missing elements => exact absurd h.1 (balance_eq_missing_iff.1 hbalance).2

/-! ### What balancing leaves -/

/-- An element that was balanced against any neighbour leaves no join beside a split. -/
theorem oneWay_of_neighbors (h : s.balance normal flags feed = .ok (.balanced revision))
    (hne : s.neighbors ≠ ∅) : revision.flags.OneWay := by
  have hpublished : s.published feed ≠ [] := by
    intro hnil
    refine hne (Std.ExtTreeSet.eq_empty_iff_forall_not_mem.2 fun c hc => ?_)
    obtain ⟨theirs, hfeed⟩ := exists_feed_of_balance h hc
    have hmem : (c, theirs) ∈ s.published feed := mem_published.2 ⟨hc, hfeed⟩
    rw [hnil] at hmem
    contradiction
  have h := balance_eq_balanced h
  obtain ⟨neighbor, neighbors, hcons⟩ := List.exists_cons_of_ne_nil hpublished
  rw [hcons, List.foldlM_cons] at h
  obtain ⟨next, hnext, h⟩ := bind_eq_ok.1 h
  exact oneWay_foldlM_reviseAgain h (oneWay_reviseAgain hnext)

/-- Among neighbours that stay on the finest grid, balancing does not lead beyond it. -/
theorem canSplit_balance (h : s.balance normal flags feed = .ok (.balanced revision))
    (hj : flags.CanJoin s.element) (hs : flags.CanSplit s.element)
    (hfeed : ∀ c ∈ s.neighborhood.elements, ∀ theirs, feed c = some theirs → theirs.CanSplit c) :
    revision.flags.CanSplit s.element := by
  refine (runs_balance h hj).splitsBelow hj hs fun face levels hannounced d => ?_
  obtain ⟨k, hk, c, hc, theirs, htheirs, rfl⟩ := hannounced
  rw [Element.get_desiredLevelsThrough, ← Element.get_desiredLevels]
  have hcn := Neighborhood.mem_elements.2 ⟨face, k, hk, hc⟩
  exact (hfeed c hcn theirs htheirs).desiredLevels_le _

/-- After a balancing that changes nothing the element is content with all announcements. -/
theorem content_of_balance (h : s.balance normal flags feed = .ok (.balanced revision))
    (hj : flags.CanJoin s.element) (hchanged : revision.changed = false)
    (hannounced : s.Announces feed face levels) :
    (Standing.start s.element flags).Content s.element face levels normal := by
  have hheeds := heeds_balance h hj hannounced
  rw [(balance_from h hj).flags_eq hchanged] at hheeds
  exact hheeds.content

end Site

namespace Settles

variable {config : Config D} {s : Site D} {m : Mesh D} {flags flags' : Decision D} {feed : Feed D}

/-- An element whose decision was enforced acts on a decision that is enforced. -/
theorem enforce_eq_self (h : Settles config s m flags feed flags')
    (he : config.enforce s.element m flags = .ok flags) :
    config.enforce s.element m flags' = .ok flags' := by
  cases h with
  | unbalanced => exact he
  | unchanged _ balanced same =>
      have hfrom := Site.balance_from balanced fun d hd => Policies.level_pos_of_enforce he hd
      rw [hfrom.flags_eq same]
      exact he
  | enforced _ _ _ again => exact Policies.enforce_eq_self again

/-- Unless all axes must agree, an element among neighbours that stay within bounds acts on a
decision that does not lead beyond them. -/
theorem splitsBelow (h : Settles config s m flags feed flags')
    (hp : config.policies.isotropy = .anisotropic) {bound : Fin D → Nat}
    (hj : flags.CanJoin s.element) (hs : flags.SplitsBelow s.element bound)
    (hle : ∀ face levels, s.Announces feed face levels → ∀ d, levels.get d ≤ bound d) :
    flags'.SplitsBelow s.element bound := by
  cases h with
  | unbalanced => exact hs
  | unchanged _ balanced => exact (Site.runs_balance balanced hj).splitsBelow hj hs hle
  | enforced _ balanced _ again =>
      intro d hd
      refine (Site.runs_balance balanced hj).splitsBelow hj hs hle d ?_
      rcases Policies.get_enforce_eq hp again d with heq | heq
      · exact heq ▸ hd
      · rw [hd] at heq
        contradiction

/-- The decision of an element that is content with all announcements is the one that it acts on. -/
theorem eq_of_content (h : Settles config s m flags feed flags')
    (hj : flags.CanJoin s.element) (hdrop : flags.dropJoinsBesideSplit = flags)
    (hcontent : ∀ face levels, s.Announces feed face levels →
      (Standing.start s.element flags).Content s.element face levels
        config.policies.balanceNormal) :
    flags' = flags := by
  cases h with
  | unbalanced => rfl
  | unchanged _ balanced same => exact (Site.runs_balance balanced hj).eq_of_content hdrop hcontent
  | enforced _ balanced changed again =>
      have hsame := (Site.runs_balance balanced hj).eq_of_content hdrop hcontent
      exact absurd hsame ((Site.balance_from balanced hj).changed.1 changed)

end Settles

end AdaptiveMesh
