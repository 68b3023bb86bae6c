/-
What balancing does, and why.

When an announcement is heeded the element comes within one level of that neighbour, and it
stays there, since what later moves do only leads further up.

A join is given up for one of three reasons: a neighbour will be finer than the element is, a
sibling will not be at the same levels, or the element splits along another axis.  One comparison
can do two things in turn, raise an axis and then leave the sibling behind because of that.  So
the reason is there for a decision on the way that still joins, but not necessarily for the first
one or the last.
-/
import AdaptiveMesh.Proofs.Climbing

namespace AdaptiveMesh

variable {D : Nat}

/-! ### One comparison

The bound of two levels is needed.  Over a larger lead a neighbour asks for nothing, and the element
is left as far behind as it was. -/

namespace Standing

variable {s : Standing D} {e : Element D} {flags : Decision D} {face : Face D}
  {theirs : Vector Nat D} {normal : Bool} {d : Fin D}

/-- Compared with a neighbour that will be at most two levels finer than the element is, the element
comes within one level of it. -/
theorem From.le_compare (h : From e flags s) (hj : flags.CanJoin e) (hd : face.Compares normal d)
    (hle : theirs.get d ≤ (e.segment d).level + 2) :
    theirs.get d ≤ (e.desiredLevels (s.compare e face theirs normal).flags).get d + 1 := by
  have hraise : theirs.get d ≤ (e.desiredLevels (s.raise face theirs normal).flags).get d + 1 := by
    rw [Element.get_desiredLevels]
    cases ha : s.asked? face theirs normal d with
    | none =>
        rw [(get_raise_of_none ha).1]
        rw [asked?_of_compares hd, h.levels, Element.get_desiredLevels] at ha
        exact Flag.le_of_raised?_eq_none ha (h.raised.canJoin hj d) hle
    | some a =>
        rw [(get_raise_of_some ha).1, h.levelFrom_of_asked? hj ha]
        exact Nat.le_of_eq (Flag.raised?_eq_some (asked?_eq_some_iff.1 ha).2).2.2
  have hleave : (s.raise face theirs normal).flags.RaisedTo
      (s.compare e face theirs normal).flags := raisedTo_leaveSibling
  exact Nat.le_trans hraise (Nat.succ_le_succ (hleave.climbs.desiredLevels_le e d))

/-- A comparison gives up a join only for a neighbour that will be finer than the element is, or
beside a sibling that will not be at the levels to which the decision leads by then. -/
theorem From.join_compare (h : From e flags s) (hj : flags.CanJoin e) (hd : s.flags.get d = .join)
    (hlost : (s.compare e face theirs normal).flags.get d ≠ .join) :
    (face.Compares normal d ∧ (e.segment d).level + 1 ≤ theirs.get d) ∨
      (s.raise face theirs normal).flags.get d = .join ∧ face.axis = d ∧
        e.HasPotentialSibling face ∧
          e.desiredLevels (s.raise face theirs normal).flags ≠ theirs := by
  cases ha : s.asked? face theirs normal d with
  | none =>
      have hkept := (get_raise_of_none ha).1.trans hd
      have hraised : From e flags (s.raise face theirs normal) := h.raise hj
      rcases get_leaveSibling (s.raise face theirs normal) e face theirs d with
        heq | ⟨⟨haxis, hsibling, hne⟩, -, -⟩
      · exact absurd (heq.trans hkept) hlost
      · exact Or.inr ⟨hkept, haxis, hsibling, hraised.levels ▸ hne⟩
  | some a =>
      obtain ⟨-, hne, htheirs⟩ := Flag.raised?_eq_some (asked?_eq_some_iff.1 ha).2
      rw [hd] at hne
      have hup : (e.segment d).level ≤ a.1.levelFrom (e.segment d).level :=
        Flag.le_levelFrom_of_ne_join hne
      rw [h.levelFrom_of_asked? hj ha] at hup
      exact Or.inl ⟨(asked?_eq_some_iff.1 ha).1, htheirs ▸ Nat.succ_le_succ hup⟩

end Standing

namespace Site

variable {s : Site D} {normal : Bool} {feed : Feed D} {a b flags : Decision D} {face : Face D}
  {levels : Vector Nat D} {d : Fin D} {revision : Revision D}

/-! ### Runs -/

/-- Why a join along an axis is given up. -/
inductive Forgoes (s : Site D) (normal : Bool) (feed : Feed D) (flags : Decision D) (d : Fin D) :
    Prop where
  /-- A neighbour will be finer than the element is. -/
  | finer {face : Face D} {levels : Vector Nat D} (h : s.Announces feed face levels)
      (hd : face.Compares normal d) (hle : (s.element.segment d).level + 1 ≤ levels.get d)
  /-- A potential sibling will not be at the levels to which the decision leads. -/
  | apart {face : Face D} {levels : Vector Nat D} (h : s.Announces feed face levels)
      (hd : face.axis = d) (hsibling : s.element.HasPotentialSibling face)
      (hne : s.element.desiredLevels flags ≠ levels)
  /-- The element splits along another axis. -/
  | beside {c : Fin D} (hc : c ≠ d) (hsplit : flags.get c = .split)

/-- A move gives up a join for a reason that is there before the join is gone. -/
theorem Moves.join (h : s.Moves normal feed a b) (hj : a.CanJoin s.element)
    (ha : a.get d = .join) (hb : b.get d ≠ .join) :
    ∃ mid, a.RaisedTo mid ∧ mid.RaisedTo b ∧ mid.get d = .join ∧ s.Forgoes normal feed mid d := by
  have hab := h.raisedTo
  cases h with
  | meets h =>
      rcases (Standing.from_start s.element a).join_compare hj ha hb with
        ⟨hd, hle⟩ | ⟨hkept, haxis, hsibling, hne⟩
      · exact ⟨a, .refl a, hab, ha, .finer h hd hle⟩
      · -- the comparison raised other axes before it looked at the sibling
        exact ⟨_, Standing.raisedTo_raise, Standing.raisedTo_leaveSibling, hkept,
          .apart h haxis hsibling hne⟩
  | drops =>
      rw [Decision.get_dropJoinsBesideSplit] at hb
      split at hb
      · next hdrop =>
        obtain ⟨c, hc⟩ := hdrop.1
        refine ⟨a, .refl a, hab, ha, .beside (fun hcd => ?_) hc⟩
        rw [hcd, ha] at hc
        contradiction
      · exact absurd ha hb

/-- A run gives up a join for a reason that is there before the join is gone. -/
theorem Runs.join (h : s.Runs normal feed a b) (hj : a.CanJoin s.element)
    (ha : a.get d = .join) (hb : b.get d ≠ .join) :
    ∃ mid, a.RaisedTo mid ∧ mid.RaisedTo b ∧ mid.get d = .join ∧ s.Forgoes normal feed mid d := by
  obtain ⟨x, y, hx, hmove, hy, hxd, hyd⟩ :=
    h.exists_loss (P := fun flags => flags.get d = .join) ha hb
  obtain ⟨mid, hxm, hmy, hmid, hcause⟩ := hmove.join (hx.canJoin hj) hxd hyd
  exact ⟨mid, hx.trans hxm, hmy.trans hy, hmid, hcause⟩

/-- A run that heeds a neighbour which will be at most two levels finer than the element is comes
within one level of it. -/
theorem Heeds.le_desired (h : s.Heeds normal feed face levels a b) (hj : a.CanJoin s.element)
    (hd : face.Compares normal d) (hle : levels.get d ≤ (s.element.segment d).level + 2) :
    levels.get d ≤ (s.element.desiredLevels b).get d + 1 := by
  obtain ⟨mid, hbefore, hafter⟩ := h
  have hmid := hbefore.raisedTo.canJoin hj
  have hmet := (Standing.from_start s.element mid).le_compare hmid hd hle
  exact Nat.le_trans hmet (Nat.succ_le_succ (hafter.raisedTo.climbs.desiredLevels_le s.element d))

/-! ### What balancing does -/

/-- Balancing does what is needed and no more. -/
structure Balances (s : Site D) (normal : Bool) (feed : Feed D) (flags : Decision D)
    (revision : Revision D) : Prop where
  /-- No neighbour will be more than one level finer. -/
  within : ∀ face levels, s.Announces feed face levels → ∀ d, face.Compares normal d →
    levels.get d ≤ (s.element.desiredLevels revision.flags).get d + 1
  /-- A flag changes only from a join to staying or to a split, or from another flag to a split. -/
  raised : flags.RaisedTo revision.flags
  /-- An axis comes to split only towards a neighbour that will be two levels finer. -/
  splits : ∀ d, flags.get d ≠ .split → revision.flags.get d = .split →
    ∃ face levels, s.Announces feed face levels ∧ face.Compares normal d ∧
      levels.get d = (s.element.segment d).level + 2
  /-- A join is given up only for a reason that came up on the way. -/
  joins : ∀ d, flags.get d = .join → revision.flags.get d ≠ .join →
    ∃ mid, flags.RaisedTo mid ∧ mid.RaisedTo revision.flags ∧ mid.get d = .join ∧
      s.Forgoes normal feed mid d
  /-- With any neighbour at all, no join is left beside a split. -/
  oneWay : s.neighbors ≠ ∅ → revision.flags.OneWay
  /-- A change is noted exactly if there is one. -/
  changed : revision.changed = true ↔ revision.flags ≠ flags

/-- Among neighbours that will be at most two levels finer than the element is, balancing does what
is needed and no more. -/
theorem balances_of_balance (h : s.balance normal flags feed = .ok (.balanced revision))
    (hj : flags.CanJoin s.element)
    (hfeed : ∀ face levels, s.Announces feed face levels → ∀ d, face.Compares normal d →
      levels.get d ≤ (s.element.segment d).level + 2) :
    s.Balances normal feed flags revision where
  within face levels hannounced d hd :=
    (heeds_balance h hj hannounced).le_desired hj hd (hfeed face levels hannounced d hd)
  raised := (balance_from h hj).raised
  splits _ := (runs_balance h hj).split hj
  joins _ := (runs_balance h hj).join hj
  oneWay := oneWay_of_neighbors h
  changed := (balance_from h hj).changed

section Ring

open Forest

/-- Beside neighbours that will be two levels finer along the second axis, the element that was not
cut is made to split along that axis.  One of them is its sibling, so its join is given up. -/
theorem balances_splitRing :
    ∃ revision, bigSite.balance true #v[.join, .doNothing] finerFeed = .ok (.balanced revision) ∧
      revision.flags = #v[.doNothing, .split] ∧
      bigSite.Balances true finerFeed #v[.join, .doNothing] revision := by
  have hbalance : bigSite.balance true #v[.join, .doNothing] finerFeed =
      .ok (.balanced ⟨#v[.doNothing, .split], true⟩) := by
    decide +kernel
  have hj : Decision.CanJoin #v[.join, .doNothing] bigSite.element := by
    unfold Decision.CanJoin
    decide +kernel
  have hcontacts : ∀ entry ∈ bigSite.neighborhood.contacts, ∀ c ∈ entry.2.elements.toList, ∀ d,
      (c.desiredLevelsThrough #v[.doNothing, .split] entry.2.orientation).get d
        ≤ (bigSite.element.segment d).level + 2 := by
    decide +kernel
  refine ⟨_, hbalance, rfl, balances_of_balance hbalance hj fun face levels hannounced d _ => ?_⟩
  obtain ⟨k, hk, c, hc, theirs, hfeed, rfl⟩ := hannounced
  obtain rfl : #v[.doNothing, .split] = theirs := Option.some.inj hfeed
  exact hcontacts (face, k) (Neighborhood.mem_contacts.2 hk) c (Std.ExtTreeSet.mem_toList.2 hc) d

end Ring

end Site

end AdaptiveMesh
