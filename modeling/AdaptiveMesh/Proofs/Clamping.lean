/-
Failing and clamping.

A strict run and a lenient one put a decision through the same stages and part at one place
only.  Where a flag is found to cross a limit the strict run fails over the first axis that does,
and the lenient one clamps: the axes that cross stay as they are, or all axes if they must agree.
Whatever is refused before that is refused by both alike, and if nothing crosses both come to
the same decision.

What is found is not all there is.  A run counts extents as machine words, and below a smallest
extent that has no successor it finds nothing: a step down from there gets past both runs.  Alone
it does so in both alike.  Beside a crossing that is found the two stories differ, since the strict
run then names an axis that is not the first to cross, or the lenient one leaves an axis that does.

Enforcing again is the case in which nothing is refused and nothing crosses.  What comes out
leaves the policies nothing to change, and such a decision goes through every stage as it is.
-/
import AdaptiveMesh.Proofs.Faults
import AdaptiveMesh.Proofs.Reachable

namespace AdaptiveMesh

variable {D : Nat}

/-! ### What lies past a limit

The limits are bounds on numbers, and numbers do not end where counting does.  Whether a flag
crosses a limit is therefore said without regard to what a run finds.  The two differ for a single
flag only, and there the run finds nothing. -/

namespace Limits

variable {l : Limits D} {e : Element D} {m : Mesh D} {flags : Decision D} {d : Fin D}

/-- The bound that a flag crosses along an axis, found or not. -/
def exceeded? (l : Limits D) (e : Element D) (m : Mesh D) (d : Fin D) (flag : Flag) :
    Option Crossing :=
  l.crossingBy? (· + 1) e m d flag

theorem crossing?_of_overlooks (h : l.Overlooks flags d) :
    l.crossing? e m d (flags.get d) = none := by
  rw [h.1, crossing?_decreaseResolution_eq_none_iff]
  exact Or.inl h.2

/-- What gets past a limit unseen does cross it. -/
theorem isSome_exceeded?_of_overlooks (hm : m.extents.get d < unbounded)
    (h : l.Overlooks flags d) : (l.exceeded? e m d (flags.get d)).isSome := by
  have hallowed : m.extents.get d < max (l.minExtent.get d) (m.minimumExtent d) + 1 := by
    have := h.2
    omega
  simp only [exceeded?, crossingBy?, h.1, if_pos hallowed, Option.isSome_some]

/-- Everything else that crosses a limit is found. -/
theorem exceeded?_eq_crossing? (hm : m.extents.get d < unbounded) (h : ¬ l.Overlooks flags d) :
    l.exceeded? e m d (flags.get d) = l.crossing? e m d (flags.get d) := by
  unfold exceeded? crossing? crossingBy?
  cases hd : flags.get d with
  | increaseResolution => simp only [nextExtent_of_lt hm]
  | decreaseResolution =>
      have hmin : l.minExtent.get d < unbounded := Nat.lt_of_not_le fun hle => h ⟨hd, hle⟩
      have hquadrature : m.minimumExtent d < unbounded := Quadrature.minimumExtent_lt_unbounded _
      simp only [nextExtent_of_lt (Nat.max_lt.2 ⟨hmin, hquadrature⟩)]
  | _ => rfl

end Limits

namespace Policies

variable {p : Policies D} {r : Rules} {e : Element D} {m : Mesh D} {flags agreed final : Decision D}
  {cross : Fin D → Flag → Option Crossing} {d : Fin D} {k : Crossing}
  {strict lenient : Except (Fault D) (Decision D)}

/-! ### Two runs

`Parting` has a case for each way in which a strict run and a lenient one come out of the same
decision, and each case says what they had come to before they parted.  Everything that follows is
read off these four cases. -/

/-- The same policies in a strict or in a lenient run. -/
def withStrict (p : Policies D) (strict : Bool) : Policies D := { p with strict }

/-- How a strict run and a lenient one come out of enforcing the same decision. -/
inductive Parting (p : Policies D) (r : Rules) (e : Element D) (m : Mesh D) (flags : Decision D) :
    Except (Fault D) (Decision D) → Except (Fault D) (Decision D) → Prop where
  /-- Both refuse it, because the axes cannot agree. -/
  | disagreed (hp : p.isotropy = .isotropic) (c d : Fin D)
      (h : p.agree e flags = .error (.isotropyConflict e c d)) :
      Parting p r e m flags (.error (.isotropyConflict e c d)) (.error (.isotropyConflict e c d))
  /-- Both refuse it, because the element cannot split or join as it says. -/
  | impossible {agreed : Decision D} (h : p.agree e flags = .ok agreed) (d : Fin D)
      (cause : TopologyFault) (hcause : ¬ r.Permits e m agreed) :
      Parting p r e m flags (.error (.topology e d cause)) (.error (.topology e d cause))
  /-- It is found to cross no limit, and both come to the same decision. -/
  | kept {agreed : Decision D} (h : p.agree e flags = .ok agreed)
      (hnone : ∀ d, p.limits.crossing? e m d (agreed.get d) = none) :
      Parting p r e m flags (.ok agreed.dropJoinsBesideSplit) (.ok agreed.dropJoinsBesideSplit)
  /-- It is found to cross a limit: the strict run fails, and the lenient one clamps. -/
  | parted {agreed : Decision D} {d : Fin D} {k : Crossing} (h : p.agree e flags = .ok agreed)
      (hpermits : r.Permits e m agreed)
      (hfirst : agreed.FirstCrossing (p.limits.crossing? e m) d k) :
      Parting p r e m flags (.error (.limitCrossed e d k.bound k.requested k.allowed))
        (.ok (p.clamp e m agreed).dropJoinsBesideSplit)

theorem parting (p : Policies D) (r : Rules) (e : Element D) (m : Mesh D) (flags : Decision D) :
    p.Parting r e m flags ((p.withStrict true).enforce r e m flags)
      ((p.withStrict false).enforce r e m flags) := by
  have hsame : ∀ b, (p.withStrict b).agree e flags = p.agree e flags := fun _ => rfl
  rw [enforce_eq, enforce_eq, hsame, hsame]
  cases hagree : p.agree e flags with
  | error fault =>
      obtain ⟨hp, c, d, rfl⟩ := agree_eq_error hagree
      exact .disagreed hp c d hagree
  | ok agreed =>
      simp only [Except.bind]
      cases htop : r.topologyFault? e m agreed with
      | some fault =>
          obtain ⟨d, cause, rfl⟩ := Rules.topologyFault?_eq_some htop
          refine .impossible hagree d cause fun hpermits => ?_
          rw [Rules.topologyFault?_eq_none_iff.2 hpermits] at htop
          contradiction
      | none =>
          rcases p.exists_firstCrossing e m agreed with hnone | ⟨d, k, hfirst⟩
          · have hheld : ∀ b, (p.withStrict b).hold e m agreed = .ok agreed :=
              fun b => hold_eq_self hnone
            simp only [hheld]
            exact .kept hagree hnone
          · have hheld : ∀ b, (p.withStrict b).hold e m agreed =
                if b then .error (.limitCrossed e d k.bound k.requested k.allowed)
                else .ok (p.clamp e m agreed) :=
              fun b => hold_of_firstCrossing (p := p.withStrict b) hfirst
            simp only [hheld, if_true, Bool.false_eq_true, if_false]
            exact .parted hagree (Rules.topologyFault?_eq_none_iff.1 htop) hfirst

/-! ### The same story

A story is told by what crosses a limit, and a run can only tell it by what it finds.  Where nothing
is found both runs keep the decision, and neither says anything that could be wrong.  So what is
missed shows only beside a crossing that is found. -/

/-- What a lenient run makes of a decision on which the axes agree and which crosses a limit along
an axis. -/
structure Clamped (p : Policies D) (cross : Fin D → Flag → Option Crossing) (agreed : Decision D)
    (d : Fin D) (final : Decision D) : Prop where
  /-- The axis stays as it is. -/
  stays : final.get d = .doNothing
  /-- If all axes must agree, all stay as they are. -/
  isotropic : p.isotropy = .isotropic → ∀ a, final.get a = .doNothing
  /-- Otherwise the axes that cross a limit do so, and then joins beside a split are dropped. -/
  anisotropic : p.isotropy = .anisotropic → final = Decision.dropJoinsBesideSplit (Vector.ofFn
    fun a => if (cross a (agreed.get a)).isSome then .doNothing else agreed.get a)

theorem clamped_clamp (h : (p.limits.crossing? e m d (agreed.get d)).isSome) :
    p.Clamped (p.limits.crossing? e m) agreed d (p.clamp e m agreed).dropJoinsBesideSplit where
  stays := by
    rw [Decision.get_dropJoinsBesideSplit, get_clamp, if_pos (Or.inr h), ite_self]
  isotropic hp a := by
    rw [Decision.get_dropJoinsBesideSplit, get_clamp, if_pos (Or.inl hp), ite_self]
  anisotropic hp := by rw [clamp, hp]

/-- A strict run and a lenient one differ over limits only. -/
structure Alike (strict lenient : Except (Fault D) (Decision D)) : Prop where
  /-- The lenient run fails over no limit. -/
  lenient_ne : ∀ c d bound requested allowed,
    lenient ≠ .error (.limitCrossed c d bound requested allowed)
  /-- What the topology does not have both refuse, with the same fault. -/
  topology : ∀ c d cause, strict = .error (.topology c d cause) ↔
    lenient = .error (.topology c d cause)
  /-- Axes that cannot agree both refuse, with the same fault. -/
  isotropyConflict : ∀ c i j, strict = .error (.isotropyConflict c i j) ↔
    lenient = .error (.isotropyConflict c i j)
  /-- What the strict run comes to, the lenient one comes to as well. -/
  kept : ∀ final, strict = .ok final → lenient = .ok final

theorem Parting.alike (h : p.Parting r e m flags strict lenient) : Alike strict lenient := by
  cases h with
  | disagreed hp i j h => exact ⟨by simp, by simp, fun _ _ _ => Iff.rfl, by simp⟩
  | impossible h d cause hcause => exact ⟨by simp, fun _ _ _ => Iff.rfl, by simp, by simp⟩
  | kept h hnone => exact ⟨by simp, fun _ _ _ => Iff.rfl, fun _ _ _ => Iff.rfl, fun _ => id⟩
  | parted h hpermits hfirst => exact ⟨by simp, by simp, by simp, by simp⟩

/-- What a strict run and a lenient one make of the same decision tells the same story. -/
structure Tallies (p : Policies D) (cross : Fin D → Flag → Option Crossing) (e : Element D)
    (flags : Decision D) (strict lenient : Except (Fault D) (Decision D)) : Prop
    extends Alike strict lenient where
  /-- The strict run fails over a limit exactly if the lenient one comes to a decision although the
  one on which the axes agree crosses a limit.  The fault names the first axis that does and what
  it crosses there, and the lenient run has clamped. -/
  clamped : ∀ c d (k : Crossing),
    strict = .error (.limitCrossed c d k.bound k.requested k.allowed) ↔
      c = e ∧ ∃ agreed final, p.agree e flags = .ok agreed ∧ agreed.FirstCrossing cross d k ∧
        lenient = .ok final ∧ p.Clamped cross agreed d final

/-- Beside a crossing that a run finds, nothing gets past the limits unseen.  If all axes must
agree, and so stay once one of them crosses, it may do so after the first that is found. -/
def FindsAll (p : Policies D) (r : Rules) (e : Element D) (m : Mesh D) (flags : Decision D) :
    Prop :=
  ∀ agreed d k, p.agree e flags = .ok agreed → r.Permits e m agreed →
    agreed.FirstCrossing (p.limits.crossing? e m) d k →
      ∀ c, p.limits.Overlooks agreed c → p.isotropy = .isotropic ∧ d < c

/-- A decision that both runs come to was not clamped along an axis that crosses a limit: if the run
has not found it, the step down is still there. -/
theorem not_clamped_of_kept (hm : ∀ d, m.extents.get d < unbounded)
    (hnone : ∀ d, p.limits.crossing? e m d (agreed.get d) = none)
    (hfirst : agreed.FirstCrossing (p.limits.exceeded? e m) d k) :
    ¬ p.Clamped (p.limits.exceeded? e m) agreed d agreed.dropJoinsBesideSplit := by
  intro hclamped
  have hoverlooks : p.limits.Overlooks agreed d := by
    by_contra hno
    have hcrosses := hfirst.crosses
    rw [Limits.exceeded?_eq_crossing? (hm d) hno, hnone d] at hcrosses
    contradiction
  have hstays := hclamped.stays
  rw [Decision.get_dropJoinsBesideSplit, hoverlooks.1] at hstays
  simp at hstays

/-- Where a crossing is found, the two runs tell the same story exactly if nothing is missed that
the strict run would have to name or the lenient one to clamp. -/
theorem tallies_of_firstCrossing (hm : ∀ d, m.extents.get d < unbounded)
    (hagree : p.agree e flags = .ok agreed)
    (hfirst : agreed.FirstCrossing (p.limits.crossing? e m) d k)
    (hno : ∀ c, p.limits.Overlooks agreed c → p.isotropy = .isotropic ∧ d < c) :
    p.Tallies (p.limits.exceeded? e m) e flags
      (.error (.limitCrossed e d k.bound k.requested k.allowed))
      (.ok (p.clamp e m agreed).dropJoinsBesideSplit) := by
  have hfound : ∀ c ≤ d, p.limits.exceeded? e m c (agreed.get c)
      = p.limits.crossing? e m c (agreed.get c) := fun c hc =>
    Limits.exceeded?_eq_crossing? (hm c) fun hoverlooks => absurd (hno c hoverlooks).2 (by omega)
  have hexceeds : agreed.FirstCrossing (p.limits.exceeded? e m) d k :=
    ⟨(hfound d (Nat.le_refl _)).trans hfirst.crosses,
      fun c hc => (hfound c (Nat.le_of_lt hc)).trans (hfirst.first c hc)⟩
  have hclamped : p.Clamped (p.limits.crossing? e m) agreed d
      (p.clamp e m agreed).dropJoinsBesideSplit :=
    clamped_clamp (by rw [hfirst.crosses]; rfl)
  refine { lenient_ne := by simp, topology := by simp, isotropyConflict := by simp, kept := by simp,
           clamped := fun c a j => ⟨fun heq => ?fails, ?clamps⟩ }
  case fails =>
    rw [Except.error.injEq, Fault.limitCrossed.injEq] at heq
    obtain ⟨rfl, rfl, hbound, hrequested, hallowed⟩ := heq
    obtain rfl : k = j := by
      cases k
      cases j
      simp_all
    refine ⟨rfl, agreed, _, hagree, hexceeds, rfl, hclamped.stays, hclamped.isotropic, fun hp => ?_⟩
    rw [hclamped.anisotropic hp]
    refine congrArg Decision.dropJoinsBesideSplit (congrArg Vector.ofFn (funext fun c => ?_))
    rw [Limits.exceeded?_eq_crossing? (hm c) fun hoverlooks => ?_]
    rw [(hno c hoverlooks).1] at hp
    contradiction
  case clamps =>
    rintro ⟨rfl, agreed', _, hagreed', hfirst', _, _⟩
    obtain rfl : agreed = agreed' := Except.ok.inj (hagree.symm.trans hagreed')
    obtain ⟨rfl, rfl⟩ := hexceeds.unique hfirst'
    rfl

/-- If the two runs tell the same story about a crossing that is found, nothing was missed. -/
theorem Tallies.overlooks (hm : ∀ d, m.extents.get d < unbounded)
    (hagree : p.agree e flags = .ok agreed)
    (hfirst : agreed.FirstCrossing (p.limits.crossing? e m) d k)
    (h : p.Tallies (p.limits.exceeded? e m) e flags
      (.error (.limitCrossed e d k.bound k.requested k.allowed))
      (.ok (p.clamp e m agreed).dropJoinsBesideSplit))
    {c : Fin D} (hoverlooks : p.limits.Overlooks agreed c) : p.isotropy = .isotropic ∧ d < c := by
  obtain ⟨-, agreed', final, hagreed', hexceeds, hfinal, hclamped⟩ := (h.clamped e d k).1 rfl
  obtain rfl : agreed = agreed' := Except.ok.inj (hagree.symm.trans hagreed')
  obtain rfl := Except.ok.inj hfinal
  have hunseen : p.limits.crossing? e m c (agreed.get c) = none :=
    Limits.crossing?_of_overlooks hoverlooks
  have hexceeded : (p.limits.exceeded? e m c (agreed.get c)).isSome :=
    Limits.isSome_exceeded?_of_overlooks (hm c) hoverlooks
  constructor
  · cases hp : p.isotropy with
    | isotropic => rfl
    | anisotropic =>
        -- the lenient run leaves the step down, although it crosses a limit
        have hleft : (p.clamp e m agreed).get c = .decreaseResolution := by
          rw [get_clamp, if_neg (by simp [hp, hunseen]), hoverlooks.1]
        have hdue : (p.clamp e m agreed).dropJoinsBesideSplit.get c = .doNothing := by
          rw [hclamped.anisotropic hp, Decision.get_dropJoinsBesideSplit, get_ofFn,
            if_pos hexceeded, ite_self]
        rw [Decision.get_dropJoinsBesideSplit, hleft] at hdue
        simp at hdue
  · rcases Nat.lt_trichotomy c.val d.val with hlt | heq | hgt
    · rw [hexceeds.first c hlt] at hexceeded
      contradiction
    · obtain rfl : c = d := Fin.ext heq
      have hcrosses := hfirst.crosses
      rw [hunseen] at hcrosses
      contradiction
    · exact hgt

theorem Parting.tallies_iff (hm : ∀ d, m.extents.get d < unbounded)
    (h : p.Parting r e m flags strict lenient) :
    p.Tallies (p.limits.exceeded? e m) e flags strict lenient ↔ p.FindsAll r e m flags := by
  have halike := h.alike
  cases h with
  | disagreed hp i j h =>
      refine iff_of_true ⟨halike, fun c d k => ?_⟩ fun agreed d k hagreed => ?_
      · exact iff_of_false (by simp) fun ⟨_, agreed, final, _, _, hfinal, _⟩ => by contradiction
      · rw [h] at hagreed
        contradiction
  | @impossible agreed h d cause hcause =>
      refine iff_of_true ⟨halike, fun c d k => ?_⟩ fun agreed' d k hagreed hpermits => ?_
      · exact iff_of_false (by simp) fun ⟨_, agreed, final, _, _, hfinal, _⟩ => by contradiction
      · obtain rfl : agreed = agreed' := Except.ok.inj (h.symm.trans hagreed)
        exact absurd hpermits hcause
  | @kept agreed h hnone =>
      refine iff_of_true ⟨halike, fun c d k => iff_of_false (by simp) ?_⟩
        fun agreed' d k hagreed hpermits hfirst => ?_
      · rintro ⟨-, agreed', _, hagreed, hfirst, hfinal, hclamped⟩
        obtain rfl : agreed = agreed' := Except.ok.inj (h.symm.trans hagreed)
        obtain rfl := Except.ok.inj hfinal
        exact not_clamped_of_kept hm hnone hfirst hclamped
      · obtain rfl : agreed = agreed' := Except.ok.inj (h.symm.trans hagreed)
        have hcrosses := hfirst.crosses
        rw [hnone d] at hcrosses
        contradiction
  | @parted agreed d k h hpermits hfirst =>
      constructor
      · intro htallies agreed' d' k' hagreed _ hfirst' c hoverlooks
        obtain rfl : agreed = agreed' := Except.ok.inj (h.symm.trans hagreed)
        obtain ⟨rfl, rfl⟩ := hfirst.unique hfirst'
        exact htallies.overlooks hm h hfirst hoverlooks
      · intro hfinds
        exact tallies_of_firstCrossing hm h hfirst (hfinds agreed d k h hpermits hfirst)

/-- A strict run and a lenient one always differ over limits only.  They tell the same story, in
which the strict run fails over the first axis that crosses a limit and the lenient one clamps all
that do, exactly if no step down gets past the limits unseen beside a crossing that is found. -/
theorem strict_tallies_lenient_iff (p : Policies D) (r : Rules) (e : Element D) (m : Mesh D)
    (flags : Decision D) (hm : ∀ d, m.extents.get d < unbounded) :
    Alike ((p.withStrict true).enforce r e m flags) ((p.withStrict false).enforce r e m flags) ∧
      (p.Tallies (p.limits.exceeded? e m) e flags ((p.withStrict true).enforce r e m flags)
        ((p.withStrict false).enforce r e m flags) ↔ p.FindsAll r e m flags) :=
  ⟨(p.parting r e m flags).alike, (p.parting r e m flags).tallies_iff hm⟩

section Endless

open Forest

theorem squareMesh_lt_unbounded : ∀ d, squareMesh.extents.get d < unbounded := by decide +kernel

/-- A square that is to join along one axis and to split along the other may do neither.  Nothing is
missed, so the strict run names the first axis and the lenient one closes both. -/
theorem strict_tallies_lenient_iff_square :
    let strict := (strictConfig.policies.withStrict true).enforce strictConfig.rules
      (square (1, 0) (1, 0)) squareMesh #v[.join, .split]
    let lenient := (strictConfig.policies.withStrict false).enforce strictConfig.rules
      (square (1, 0) (1, 0)) squareMesh #v[.join, .split]
    strict = .error (.limitCrossed (square (1, 0) (1, 0)) 0 .minLevel 0 1) ∧
      lenient = .ok #v[.doNothing, .doNothing] ∧
      strictConfig.policies.Tallies
        (strictConfig.policies.limits.exceeded? (square (1, 0) (1, 0)) squareMesh)
        (square (1, 0) (1, 0)) #v[.join, .split] strict lenient := by
  refine ⟨by decide +kernel, by decide +kernel,
    (strict_tallies_lenient_iff strictConfig.policies strictConfig.rules (square (1, 0) (1, 0))
      squareMesh #v[.join, .split] squareMesh_lt_unbounded).2.2
      fun agreed d k _ _ _ c hoverlooks => ?_⟩
  have hcounts : ∀ c, ¬ unbounded ≤ strictConfig.policies.limits.minExtent.get c := by
    decide +kernel
  exact absurd hoverlooks.2 (hcounts c)

/-- Along the first axis there is no extent after the smallest one, along the second no level after
the first. -/
def endlessPolicies : Policies 2 where
  limits := {
    minLevel := .replicate 2 0
    maxLevel := #v[3, 1]
    minExtent := #v[unbounded, 1]
    maxExtent := #v[unbounded, unbounded]
    minLevel_le := by decide
    maxLevel_le := by decide
    minExtent_le := by decide +kernel
    minExtent_pos := by decide +kernel }

/-- The first axis is the first to cross a limit, but the strict run names the second one, and the
lenient run leaves the first as it is. -/
theorem strict_not_tallies_lenient_endless :
    let e := square (0, 0) (1, 0)
    let flags : Decision 2 := #v[.decreaseResolution, .split]
    let strict := (endlessPolicies.withStrict true).enforce turning.rules e squareMesh flags
    let lenient := (endlessPolicies.withStrict false).enforce turning.rules e squareMesh flags
    flags.FirstCrossing (endlessPolicies.limits.exceeded? e squareMesh) 0
        ⟨.minExtent, 2, unbounded⟩ ∧
      strict = .error (.limitCrossed e 1 .maxLevel 2 1) ∧
      lenient = .ok #v[.decreaseResolution, .doNothing] ∧
      ¬ endlessPolicies.Tallies (endlessPolicies.limits.exceeded? e squareMesh) e flags strict
        lenient := by
  intro e flags strict lenient
  have hstrict : strict = .error (.limitCrossed e 1 .maxLevel 2 1) := by decide +kernel
  refine ⟨⟨by decide +kernel, fun c hc => absurd hc (Nat.not_lt_zero _)⟩, hstrict,
    by decide +kernel, fun h => ?_⟩
  obtain ⟨-, agreed, -, hagreed, hfirst, -⟩ := (h.clamped e 1 ⟨.maxLevel, 2, 1⟩).1 hstrict
  obtain rfl : flags = agreed := Except.ok.inj hagreed
  have hnone := hfirst.first 0 (by decide)
  revert hnone
  decide +kernel

end Endless

/-! ### Enforcing twice -/

/-- Enforcing what was enforced succeeds and changes nothing.  The decisions that it leaves alone
are those that leave the policies nothing to change. -/
theorem enforce_idempotent (p : Policies D) (r : Rules) (e : Element D) (m : Mesh D) :
    (∀ flags final, p.enforce r e m flags = .ok final → p.enforce r e m final = .ok final) ∧
      ∀ final, p.enforce r e m final = .ok final ↔ p.Admits r e m final :=
  ⟨fun _ _ h => (admits_of_enforce h).enforce_eq,
    fun _ => ⟨admits_of_enforce, Admits.enforce_eq⟩⟩

section Square

open Forest

/-- A square that is to split along one axis and to join along the other only splits, and enforcing
that again does not change it. -/
theorem enforce_idempotent_square :
    turning.policies.enforce turning.rules (square (1, 0) (1, 0)) squareMesh #v[.split, .join] =
        .ok #v[.split, .doNothing] ∧
      turning.policies.enforce turning.rules (square (1, 0) (1, 0)) squareMesh
        #v[.split, .doNothing] = .ok #v[.split, .doNothing] ∧
      turning.policies.Admits turning.rules (square (1, 0) (1, 0)) squareMesh
        #v[.split, .doNothing] := by
  have h : turning.policies.enforce turning.rules (square (1, 0) (1, 0)) squareMesh
      #v[.split, .join] = .ok #v[.split, .doNothing] := by
    decide +kernel
  obtain ⟨htwice, hfixed⟩ :=
    turning.policies.enforce_idempotent turning.rules (square (1, 0) (1, 0)) squareMesh
  have hagain := htwice _ _ h
  exact ⟨h, hagain, (hfixed _).1 hagain⟩

end Square

end Policies

end AdaptiveMesh
