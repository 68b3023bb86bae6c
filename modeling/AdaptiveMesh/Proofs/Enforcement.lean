/-
What enforcement leaves.

Enforcement goes through three stages: the axes agree on a decision, the decision is
held within the limits, and joins beside a split are dropped.  Each later stage either
keeps a flag or closes it in favour of staying, so whatever is asked for in the end was
asked for when the topology was checked.  That is how an enforced decision can be acted
on: its joins have a parent to join into, and no element splits and joins at once.

What holding does is said once.  A decision that crosses no limit is left as it is, and at the
first crossing a strict run fails and a lenient one clamps.
-/
import AdaptiveMesh.Policy.Config
import AdaptiveMesh.Proofs.Traversal

namespace AdaptiveMesh

variable {D : Nat}

/-- The largest of several flags is one of them, and none has a higher rank. -/
theorem Flag.foldl_max (l : List Flag) (a : Flag) :
    (l.foldl max a = a ∨ l.foldl max a ∈ l) ∧ a.rank ≤ (l.foldl max a).rank ∧
      ∀ b ∈ l, b.rank ≤ (l.foldl max a).rank := by
  induction l generalizing a with
  | nil => exact ⟨Or.inl rfl, Nat.le_refl _, fun b hb => by contradiction⟩
  | cons b l ih =>
      obtain ⟨hfound, hstart, hle⟩ := ih (max a b)
      have hmax : max a b = if a ≤ b then b else a := rfl
      have hab : a.rank ≤ (max a b).rank ∧ b.rank ≤ (max a b).rank := by
        rw [hmax]
        split
        · next h => exact ⟨h, Nat.le_refl _⟩
        · next h => exact ⟨Nat.le_refl _, Nat.le_of_not_le h⟩
      rw [List.foldl_cons]
      refine ⟨?_, Nat.le_trans hab.1 hstart, List.forall_mem_cons.2
        ⟨Nat.le_trans hab.2 hstart, hle⟩⟩
      rcases hfound with heq | hmem
      · rw [heq, hmax]
        split
        · exact Or.inr List.mem_cons_self
        · exact Or.inl rfl
      · exact Or.inr (List.mem_cons_of_mem b hmem)

theorem Flag.resolve_of_ne {f : Flag} (h : f ≠ .undefined) : f.resolve = f := by
  cases f <;> first | rfl | contradiction

/-! ### Joins beside a split

Decisions that go one way are those that lose nothing here.  They are also those that isotropy can
make agree, so the same notion serves both stages. -/

namespace Decision

variable {flags : Decision D} {d : Fin D}

@[simp] theorem get_uniform (f : Flag) (d : Fin D) : (uniform f : Decision D).get d = f :=
  get_replicate f d

theorem get_dropJoinsBesideSplit :
    flags.dropJoinsBesideSplit.get d
      = if flags.Has .split ∧ flags.get d = .join then .doNothing else flags.get d := by
  unfold dropJoinsBesideSplit
  by_cases hs : flags.Has .split
  · rw [if_pos hs, get_ofFn]
    simp only [hs, true_and]
  · rw [if_neg hs, if_neg fun h => hs h.1]

theorem get_dropJoinsBesideSplit_eq_split_iff :
    flags.dropJoinsBesideSplit.get d = .split ↔ flags.get d = .split := by
  rw [get_dropJoinsBesideSplit]
  split
  · next h => simp [h.2]
  · rfl

theorem has_split_dropJoinsBesideSplit_iff :
    flags.dropJoinsBesideSplit.Has .split ↔ flags.Has .split :=
  exists_congr fun _ => get_dropJoinsBesideSplit_eq_split_iff

theorem of_get_dropJoinsBesideSplit_eq_join (h : flags.dropJoinsBesideSplit.get d = .join) :
    flags.get d = .join ∧ ¬ flags.Has .split := by
  rw [get_dropJoinsBesideSplit] at h
  split at h
  · contradiction
  · next hne => exact ⟨h, fun hs => hne ⟨hs, h⟩⟩

theorem dropJoinsBesideSplit_of_not_has_split (h : ¬ flags.Has .split) :
    flags.dropJoinsBesideSplit = flags :=
  if_neg h

/-- No axis splits while another one joins. -/
def OneWay (flags : Decision D) : Prop := ¬ (flags.Has .split ∧ flags.Has .join)

/-- A decision that goes one way has no join to drop. -/
theorem OneWay.dropJoinsBesideSplit_eq (h : flags.OneWay) : flags.dropJoinsBesideSplit = flags := by
  refine ext_get fun d => ?_
  rw [get_dropJoinsBesideSplit, if_neg]
  exact fun hdrop => h ⟨hdrop.1, d, hdrop.2⟩

theorem oneWay_dropJoinsBesideSplit : flags.dropJoinsBesideSplit.OneWay := by
  intro h
  obtain ⟨d, hd⟩ := h.2
  exact (of_get_dropJoinsBesideSplit_eq_join hd).2 (has_split_dropJoinsBesideSplit_iff.1 h.1)

theorem oneWay_uniform {f : Flag} : (uniform f : Decision D).OneWay := by
  intro h
  obtain ⟨⟨c, hc⟩, d, hd⟩ := h
  rw [get_uniform] at hc hd
  rw [hc] at hd
  contradiction

/-- A decision that is the same along all axes has no join beside a split. -/
theorem dropJoinsBesideSplit_uniform {f : Flag} :
    (uniform f : Decision D).dropJoinsBesideSplit = uniform f := by
  refine ext_get fun d => ?_
  rw [get_dropJoinsBesideSplit, get_uniform]
  split
  · next h =>
    obtain ⟨⟨c, hc⟩, rfl⟩ := h
    rw [get_uniform] at hc
    contradiction
  · rfl

/-- The strongest flag is that of some axis, and no axis has a higher one. -/
theorem exists_get_eq_strongest (flags : Decision D) (d : Fin D) :
    ∃ c, flags.strongest = (flags.get c).resolve ∧ (flags.get d).rank ≤ (flags.get c).rank := by
  obtain ⟨hfound, -, hle⟩ := Flag.foldl_max flags.toList .undefined
  have hd : flags.get d ∈ flags.toList := Vector.mem_toList_iff.2 (Vector.getElem_mem d.isLt)
  rcases hfound with hstart | hmem
  · refine ⟨d, ?_, Nat.le_refl _⟩
    have hzero := hle _ hd
    rw [hstart] at hzero
    have hundefined : flags.get d = .undefined := Flag.rank_injective (Nat.le_zero.1 hzero)
    rw [strongest, hstart, hundefined]
  · obtain ⟨i, hi, heq⟩ := Vector.mem_iff_getElem.1 (Vector.mem_toList_iff.1 hmem)
    have hget : flags.get ⟨i, hi⟩ = flags.toList.foldl max .undefined := heq
    exact ⟨⟨i, hi⟩, by rw [strongest, hget], hget ▸ hle _ hd⟩

theorem get_resolve_ne_undefined (flags : Decision D) (d : Fin D) :
    flags.resolve.get d ≠ .undefined := by
  rw [resolve, get_ofFn]
  cases flags.get d <;> simp [Flag.resolve]

/-- A decision with no open axis has nothing to be closed. -/
theorem resolve_eq_self (h : ∀ d, flags.get d ≠ .undefined) : flags.resolve = flags := by
  refine ext_get fun d => ?_
  rw [resolve, get_ofFn]
  exact Flag.resolve_of_ne (h d)

theorem strongest_ne_undefined (flags : Decision D) : flags.strongest ≠ .undefined := by
  unfold strongest
  cases flags.toList.foldl max .undefined <;> simp [Flag.resolve]

/-- The strongest of equal flags is that flag, once it is closed. -/
theorem strongest_uniform {f : Flag} (h : 0 < D) (hf : f ≠ .undefined) :
    (uniform f : Decision D).strongest = f := by
  obtain ⟨c, hc, -⟩ := (uniform f).exists_get_eq_strongest (⟨0, h⟩ : Fin D)
  rw [hc, get_uniform]
  cases f <;> first | rfl | contradiction

/-- Closing open axes makes no splits or joins. -/
theorem OneWay.resolve (h : flags.OneWay) : flags.resolve.OneWay := by
  intro hboth
  obtain ⟨⟨c, hc⟩, d, hd⟩ := hboth
  rw [Decision.resolve, get_ofFn] at hc hd
  refine h ⟨⟨c, ?_⟩, d, ?_⟩
  · cases hflag : flags.get c <;> simp_all [Flag.resolve]
  · cases hflag : flags.get d <;> simp_all [Flag.resolve]

/-- Flags can be reconciled unless one axis splits and another joins. -/
theorem unify_eq_ok (h : flags.OneWay) (e : Element D) :
    flags.unify e = .ok (.uniform flags.strongest) := by
  unfold unify firstAxis?
  split
  · next s j hs hj =>
    exact absurd ⟨⟨s, (of_firstAxis?_eq_some hs).1⟩, j, (of_firstAxis?_eq_some hj).1⟩ h
  · rfl

end Decision

/-! ### Limits

For each flag it is said what it means that a run finds no crossing.  For extents this is not the
same as that there is none.  A step up from the largest extent is not found, but it leads to no
extent and fails when it is acted on.  A step down below a smallest extent that has no successor is
not found either, and only a mesh with too few points stops it later. -/

namespace Limits

variable {l : Limits D} {e : Element D} {m : Mesh D} {d : Fin D}

@[simp] theorem crossing?_split_eq_none_iff :
    l.crossing? e m d .split = none ↔ (e.segment d).level + 1 ≤ l.maxLevel.get d := by
  simp [crossing?, crossingBy?]

@[simp] theorem crossing?_join_eq_none_iff :
    l.crossing? e m d .join = none ↔ l.minLevel.get d + 1 ≤ (e.segment d).level := by
  simp [crossing?, crossingBy?]

/-- A step up is found to cross the bound unless the next extent cannot be counted. -/
@[simp] theorem crossing?_increaseResolution_eq_none_iff :
    l.crossing? e m d .increaseResolution = none ↔ unbounded ≤ m.extents.get d ∨
      m.extents.get d + 1 ≤ min (l.maxExtent.get d) (m.maximumExtent d) := by
  simp only [crossing?, crossingBy?, ite_eq_right_iff, reduceCtorEq, imp_false, Nat.not_lt]
  rcases Nat.lt_or_ge (m.extents.get d) unbounded with hlt | hle
  · rw [nextExtent_of_lt hlt, or_iff_right (Nat.not_le.2 hlt)]
  · rw [nextExtent_of_le hle]
    exact iff_of_true (Nat.zero_le _) (Or.inl hle)

/-- A step down is found to cross the bound unless what comes after the bound cannot be counted. -/
@[simp] theorem crossing?_decreaseResolution_eq_none_iff :
    l.crossing? e m d .decreaseResolution = none ↔ unbounded ≤ l.minExtent.get d ∨
      max (l.minExtent.get d) (m.minimumExtent d) + 1 ≤ m.extents.get d := by
  simp only [crossing?, crossingBy?, ite_eq_right_iff, reduceCtorEq, imp_false, Nat.not_lt]
  have hquadrature : m.minimumExtent d < unbounded := Quadrature.minimumExtent_lt_unbounded _
  rcases Nat.lt_or_ge (l.minExtent.get d) unbounded with hlt | hle
  · rw [nextExtent_of_lt (Nat.max_lt.2 ⟨hlt, hquadrature⟩), or_iff_right (Nat.not_le.2 hlt)]
  · rw [nextExtent_of_le (Nat.le_trans hle (Nat.le_max_left ..))]
    exact iff_of_true (Nat.zero_le _) (Or.inl hle)

/-- A step down that gets past the smallest extent unseen.  The extent after the smallest one cannot
be counted, so nothing is found to lie below it. -/
def Overlooks (l : Limits D) (flags : Decision D) (d : Fin D) : Prop :=
  flags.get d = .decreaseResolution ∧ unbounded ≤ l.minExtent.get d

instance (l : Limits D) (flags : Decision D) (d : Fin D) : Decidable (l.Overlooks flags d) :=
  inferInstanceAs (Decidable (_ ∧ _))

end Limits

/-! ### Topology

Each split and each join is looked at by itself.  So the check still succeeds when some of them are
closed or dropped, which is all that the later stages do. -/

namespace Rules

variable {r : Rules} {e : Element D} {m : Mesh D} {flags flags' : Decision D} {d : Fin D}

theorem topologyFaultAt?_eq_none_iff : r.topologyFaultAt? e m flags d = none ↔
    ((flags.get d).IsTopological → r.mode = .full ∧
      (flags.get d = .join → 0 < (e.segment d).level) ∧
        r.quadrature.minimumExtent ≤ m.extents.get d) := by
  unfold topologyFaultAt?
  constructor
  · intro h hd
    rw [if_neg (not_not_intro hd)] at h
    split at h
    · contradiction
    · next hmode =>
      split at h
      · contradiction
      · next hroot =>
        split at h
        · contradiction
        · next hmany =>
          refine ⟨?_, fun hj => Nat.pos_of_ne_zero fun hzero => hroot ⟨hj, hzero⟩,
            Nat.not_lt.1 hmany⟩
          cases hm : r.mode <;> first | rfl | contradiction
  · intro h
    split
    · rfl
    · next hd =>
      obtain ⟨hmode, hjoin, hextent⟩ := h (Classical.not_not.1 hd)
      have hroot : ¬ (flags.get d = .join ∧ (e.segment d).level = 0) :=
        fun ⟨hj, hzero⟩ => Nat.ne_of_gt (hjoin hj) hzero
      simp only [hmode, hroot, Nat.not_lt.2 hextent, reduceCtorEq, if_false]

/-- The element can split and join as the decision says: the run may carry it out, a join has a
parent to join into, and there are enough points for new elements. -/
def Permits (r : Rules) (e : Element D) (m : Mesh D) (flags : Decision D) : Prop :=
  ∀ d, (flags.get d).IsTopological → r.mode = .full ∧
    (flags.get d = .join → 0 < (e.segment d).level) ∧
      r.quadrature.minimumExtent ≤ m.extents.get d

theorem topologyFault?_eq_none_iff : r.topologyFault? e m flags = none ↔ r.Permits e m flags := by
  unfold topologyFault?
  rw [firstFound?_eq_none_iff]
  simp only [Option.map_eq_none_iff, topologyFaultAt?_eq_none_iff, Permits]

/-- What an element can do it can do in part. -/
theorem Permits.of_get_eq (h : r.Permits e m flags)
    (hget : ∀ d, flags'.get d = flags.get d ∨ flags'.get d = .doNothing) :
    r.Permits e m flags' := by
  intro d hd
  rcases hget d with heq | heq
  · rw [heq] at hd ⊢
    exact h d hd
  · rw [heq] at hd
    simp [Flag.IsTopological] at hd

/-- A run that changes resolutions only permits neither splits nor joins. -/
theorem Permits.not_has (h : r.Permits e m flags) (hmode : r.mode = .resolutionOnly) :
    ¬ flags.Has .split ∧ ¬ flags.Has .join := by
  have hno : ∀ d, ¬ (flags.get d).IsTopological := by
    intro d hd
    have hfull := (h d hd).1
    rw [hmode] at hfull
    contradiction
  constructor
  · rintro ⟨d, hd⟩
    exact hno d (Or.inl hd)
  · rintro ⟨d, hd⟩
    exact hno d (Or.inr hd)

end Rules

/-! ### Holding within the limits

Holding looks for the first axis that crosses a limit.  Either there is none or there is this one,
and `FirstCrossing` is the second case.  It is stated for any notion of crossing, as there are
crossings that a run does not find. -/

/-- Of all axes along which a decision crosses a limit this is the first, and this is what it
crosses there.  Which flags cross what along which axis is `cross`. -/
structure Decision.FirstCrossing (flags : Decision D) (cross : Fin D → Flag → Option Crossing)
    (d : Fin D) (k : Crossing) : Prop where
  /-- The decision crosses a limit along the axis. -/
  crosses : cross d (flags.get d) = some k
  /-- It crosses none along the axes before. -/
  first : ∀ c < d, cross c (flags.get c) = none

theorem Decision.FirstCrossing.unique {flags : Decision D} {cross : Fin D → Flag → Option Crossing}
    {c d : Fin D} {j k : Crossing} (h : flags.FirstCrossing cross c j)
    (h' : flags.FirstCrossing cross d k) : c = d ∧ j = k := by
  have hcd : c = d := by
    rcases Nat.lt_trichotomy c.val d.val with hlt | heq | hgt
    · have hnone := h'.first c hlt
      rw [h.crosses] at hnone
      contradiction
    · exact Fin.ext heq
    · have hnone := h.first d hgt
      rw [h'.crosses] at hnone
      contradiction
  subst hcd
  exact ⟨rfl, Option.some.inj (h.crosses.symm.trans h'.crosses)⟩

namespace Policies

variable {p : Policies D} {r : Rules} {e : Element D} {m : Mesh D}
  {flags held final : Decision D} {d : Fin D} {k : Crossing}

/-- The decision with the axes that cross a limit left as they are, or all axes if they must
agree. -/
def clamp (p : Policies D) (e : Element D) (m : Mesh D) (flags : Decision D) : Decision D :=
  match p.isotropy with
  | .isotropic => .uniform .doNothing
  | .anisotropic => Vector.ofFn fun a =>
      if (p.limits.crossing? e m a (flags.get a)).isSome then .doNothing else flags.get a

theorem get_clamp (p : Policies D) (e : Element D) (m : Mesh D) (flags : Decision D) (d : Fin D) :
    (p.clamp e m flags).get d =
      if p.isotropy = .isotropic ∨ (p.limits.crossing? e m d (flags.get d)).isSome then .doNothing
      else flags.get d := by
  unfold clamp
  cases p.isotropy with
  | isotropic => exact Decision.get_uniform _ d
  | anisotropic => simp only [get_ofFn, reduceCtorEq, false_or]

/-- Either no axis crosses a limit, or one is the first that does. -/
theorem exists_firstCrossing (p : Policies D) (e : Element D) (m : Mesh D) (flags : Decision D) :
    (∀ d, p.limits.crossing? e m d (flags.get d) = none) ∨
      ∃ d k, flags.FirstCrossing (p.limits.crossing? e m) d k := by
  cases h : firstFound? fun d => (p.limits.crossing? e m d (flags.get d)).map (d, ·) with
  | none => exact Or.inl fun d => Option.map_eq_none_iff.1 (firstFound?_eq_none_iff.1 h d)
  | some found =>
      obtain ⟨d, hd, hfirst⟩ := firstFound?_eq_some_iff.1 h
      obtain ⟨k, hk, -⟩ := Option.map_eq_some_iff.1 hd
      exact Or.inr ⟨d, k, hk, fun c hc => Option.map_eq_none_iff.1 (hfirst c hc)⟩

theorem hold_eq_self (hnone : ∀ d, p.limits.crossing? e m d (flags.get d) = none) :
    p.hold e m flags = .ok flags := by
  unfold hold
  rw [firstFound?_eq_none_iff.2 fun d => Option.map_eq_none_iff.2 (hnone d)]

/-- At a crossing a strict run fails, and a lenient one clamps. -/
theorem hold_of_firstCrossing (h : flags.FirstCrossing (p.limits.crossing? e m) d k) :
    p.hold e m flags =
      if p.strict then .error (.limitCrossed e d k.bound k.requested k.allowed)
      else .ok (p.clamp e m flags) := by
  have hfound : (firstFound? fun a => (p.limits.crossing? e m a (flags.get a)).map (a, ·))
      = some (d, k) :=
    firstFound?_eq_some_iff.2 ⟨d, by rw [h.crosses]; rfl,
      fun c hc => Option.map_eq_none_iff.2 (h.first c hc)⟩
  unfold hold clamp
  rw [hfound]
  dsimp only
  split
  · rfl
  · cases p.isotropy <;> rfl

/-- Holding a decision within the limits leaves one that crosses none of them, and clamps another
one in a lenient run. -/
theorem hold_eq_ok (h : p.hold e m flags = .ok held) :
    ((∀ d, p.limits.crossing? e m d (flags.get d) = none) ∧ held = flags) ∨
      p.strict = false ∧ held = p.clamp e m flags := by
  rcases p.exists_firstCrossing e m flags with hnone | ⟨d, k, hfirst⟩
  · rw [hold_eq_self hnone] at h
    exact Or.inl ⟨hnone, (Except.ok.inj h).symm⟩
  · rw [hold_of_firstCrossing hfirst] at h
    split at h
    · contradiction
    · next hlenient => exact Or.inr ⟨Bool.eq_false_iff.2 hlenient, (Except.ok.inj h).symm⟩

/-- Holding a decision within the limits keeps a flag or closes it. -/
theorem get_hold_eq (h : p.hold e m flags = .ok held) (d : Fin D) :
    held.get d = flags.get d ∨ held.get d = .doNothing := by
  rcases hold_eq_ok h with ⟨-, rfl⟩ | ⟨-, rfl⟩
  · exact Or.inl rfl
  · rw [get_clamp]
    split
    · exact Or.inr rfl
    · exact Or.inl rfl

/-- Unless all axes must agree, a flag that crosses no limit is kept. -/
theorem get_hold_of_crossing?_eq_none (hp : p.isotropy = .anisotropic)
    (h : p.hold e m flags = .ok held) (hd : p.limits.crossing? e m d (flags.get d) = none) :
    held.get d = flags.get d := by
  rcases hold_eq_ok h with ⟨-, rfl⟩ | ⟨-, rfl⟩
  · rfl
  · rw [get_clamp, if_neg]
    rw [hp, hd]
    simp

/-- What is held within the limits crosses none of them. -/
theorem crossing?_eq_none_of_hold (h : p.hold e m flags = .ok held) (d : Fin D) :
    p.limits.crossing? e m d (held.get d) = none := by
  rcases hold_eq_ok h with ⟨hnone, rfl⟩ | ⟨-, rfl⟩
  · exact hnone d
  · rw [get_clamp]
    split
    · rfl
    · next hkeep => exact Option.not_isSome_iff_eq_none.1 fun hd => hkeep (Or.inr hd)

/-! ### The stages -/

/-- The decision on which the axes agree: each for itself, or all for the strongest flag. -/
def agree (p : Policies D) (e : Element D) (flags : Decision D) : Except (Fault D) (Decision D) :=
  match p.isotropy with
  | .isotropic => flags.resolve.unify e
  | .anisotropic => .ok flags.resolve

theorem enforce_eq : p.enforce r e m flags = (p.agree e flags).bind fun agreed =>
    match r.topologyFault? e m agreed with
    | some fault => .error fault
    | none => (p.hold e m agreed).bind fun held => .ok held.dropJoinsBesideSplit := by
  unfold enforce agree
  cases p.isotropy <;> rfl

theorem enforce_eq_ok (h : p.enforce r e m flags = .ok final) :
    ∃ agreed held, p.agree e flags = .ok agreed ∧ r.topologyFault? e m agreed = none ∧
      p.hold e m agreed = .ok held ∧ final = held.dropJoinsBesideSplit := by
  rw [enforce_eq] at h
  obtain ⟨agreed, hagreed, h⟩ := bind_eq_ok.1 h
  split at h
  · contradiction
  · next hnone =>
    obtain ⟨held, hheld, h⟩ := bind_eq_ok.1 h
    exact ⟨agreed, held, hagreed, hnone, hheld, (Except.ok.inj h).symm⟩

theorem eq_resolve_of_agree {agreed : Decision D} (hp : p.isotropy = .anisotropic)
    (h : p.agree e flags = .ok agreed) : agreed = flags.resolve := by
  unfold agree at h
  rw [hp] at h
  exact (Except.ok.inj h).symm

theorem eq_uniform_of_agree {agreed : Decision D} (hp : p.isotropy = .isotropic)
    (h : p.agree e flags = .ok agreed) : agreed = .uniform flags.resolve.strongest := by
  unfold agree Decision.unify at h
  rw [hp] at h
  dsimp only at h
  split at h
  · split at h <;> contradiction
  · exact (Except.ok.inj h).symm

/-- What was enforced crosses no limit. -/
theorem crossing?_eq_none_of_enforce (h : p.enforce r e m flags = .ok final) (d : Fin D) :
    p.limits.crossing? e m d (final.get d) = none := by
  obtain ⟨agreed, held, -, -, hheld, rfl⟩ := enforce_eq_ok h
  rw [Decision.get_dropJoinsBesideSplit]
  split
  · rfl
  · exact crossing?_eq_none_of_hold hheld d

/-- If all axes must agree, enforcing leaves them the strongest flag or nothing to do. -/
theorem enforce_eq_uniform (hp : p.isotropy = .isotropic)
    (h : p.enforce r e m flags = .ok final) :
    final = .uniform flags.resolve.strongest ∨ final = .uniform .doNothing := by
  obtain ⟨agreed, held, hagreed, -, hheld, rfl⟩ := enforce_eq_ok h
  have huniform : held = .uniform flags.resolve.strongest ∨ held = .uniform .doNothing := by
    rcases hold_eq_ok hheld with ⟨-, rfl⟩ | ⟨-, rfl⟩
    · exact Or.inl (eq_uniform_of_agree hp hagreed)
    · exact Or.inr (by rw [clamp, hp])
  rcases huniform with rfl | rfl
  · exact Or.inl Decision.dropJoinsBesideSplit_uniform
  · exact Or.inr Decision.dropJoinsBesideSplit_uniform

theorem exists_uniform_of_enforce (hp : p.isotropy = .isotropic)
    (h : p.enforce r e m flags = .ok final) : ∃ flag, final = .uniform flag := by
  rcases enforce_eq_uniform hp h with heq | heq
  · exact ⟨_, heq⟩
  · exact ⟨_, heq⟩

/-- Unless all axes must agree, enforcing keeps a flag or closes it. -/
theorem get_enforce_eq (hp : p.isotropy = .anisotropic)
    (h : p.enforce r e m flags = .ok final) (d : Fin D) :
    final.get d = flags.get d ∨ final.get d = .doNothing := by
  obtain ⟨agreed, held, hagreed, -, hheld, rfl⟩ := enforce_eq_ok h
  have hd : agreed.get d = flags.get d ∨ agreed.get d = .doNothing := by
    rw [eq_resolve_of_agree hp hagreed, Decision.resolve, get_ofFn]
    cases flags.get d <;> simp [Flag.resolve]
  rw [Decision.get_dropJoinsBesideSplit]
  split
  · exact Or.inr rfl
  · rcases get_hold_eq hheld d with heq | heq
    · exact heq ▸ hd
    · exact Or.inr heq

/-- Unless all axes must agree, all that enforcing does to a decision that is closed and crosses no
limit is to drop joins beside a split. -/
theorem enforce_eq_dropJoinsBesideSplit (hp : p.isotropy = .anisotropic)
    (h : p.enforce r e m flags = .ok final) (hclosed : ∀ d, flags.get d ≠ .undefined)
    (hnone : ∀ d, p.limits.crossing? e m d (flags.get d) = none) :
    final = flags.dropJoinsBesideSplit := by
  obtain ⟨agreed, held, hagreed, -, hheld, rfl⟩ := enforce_eq_ok h
  have hsame : agreed = flags := by
    rw [eq_resolve_of_agree hp hagreed, Decision.resolve_eq_self hclosed]
  subst hsame
  rw [hold_eq_self hnone] at hheld
  rw [Except.ok.inj hheld]

theorem get_ne_undefined_of_agree {agreed : Decision D} (h : p.agree e flags = .ok agreed)
    (d : Fin D) : agreed.get d ≠ .undefined := by
  cases hp : p.isotropy with
  | isotropic =>
      rw [eq_uniform_of_agree hp h, Decision.get_uniform]
      exact Decision.strongest_ne_undefined _
  | anisotropic =>
      rw [eq_resolve_of_agree hp h]
      exact Decision.get_resolve_ne_undefined flags d

/-- What was enforced is what the axes agreed on, or nothing to do. -/
theorem exists_agreed_of_enforce (h : p.enforce r e m flags = .ok final) :
    ∃ agreed, p.agree e flags = .ok agreed ∧ r.topologyFault? e m agreed = none ∧
      ∀ d, final.get d = agreed.get d ∨ final.get d = .doNothing := by
  obtain ⟨agreed, held, hagreed, htop, hheld, rfl⟩ := enforce_eq_ok h
  refine ⟨agreed, hagreed, htop, fun d => ?_⟩
  rw [Decision.get_dropJoinsBesideSplit]
  split
  · exact Or.inr rfl
  · exact get_hold_eq hheld d

/-- No axis of an enforced decision is open. -/
theorem get_ne_undefined_of_enforce (h : p.enforce r e m flags = .ok final) (d : Fin D) :
    final.get d ≠ .undefined := by
  obtain ⟨agreed, hagreed, -, hget⟩ := exists_agreed_of_enforce h
  rcases hget d with heq | heq
  · rw [heq]
    exact get_ne_undefined_of_agree hagreed d
  · simp [heq]

theorem permits_of_enforce (h : p.enforce r e m flags = .ok final) : r.Permits e m final := by
  obtain ⟨agreed, -, htop, hget⟩ := exists_agreed_of_enforce h
  exact (Rules.topologyFault?_eq_none_iff.1 htop).of_get_eq hget

/-- A join that was enforced has a parent to join into. -/
theorem level_pos_of_enforce (h : p.enforce r e m flags = .ok final) (hd : final.get d = .join) :
    0 < (e.segment d).level :=
  (permits_of_enforce h d (Or.inr hd)).2.1 hd

/-- An enforced decision does not split and join at once. -/
theorem not_has_join_of_enforce (h : p.enforce r e m flags = .ok final) (hs : final.Has .split) :
    ¬ final.Has .join := by
  obtain ⟨agreed, held, -, -, -, rfl⟩ := enforce_eq_ok h
  exact fun hj => Decision.oneWay_dropJoinsBesideSplit ⟨hs, hj⟩

/-- Unless all axes must agree, a split that crosses no limit is kept. -/
theorem get_enforce_of_crossing?_eq_none (hp : p.isotropy = .anisotropic)
    (h : p.enforce r e m flags = .ok final) (hd : flags.get d = .split)
    (hnone : p.limits.crossing? e m d .split = none) : final.get d = .split := by
  obtain ⟨agreed, held, hagreed, -, hheld, rfl⟩ := enforce_eq_ok h
  have hd' : agreed.get d = .split := by
    rw [eq_resolve_of_agree hp hagreed, Decision.resolve, get_ofFn, hd]
    rfl
  rw [Decision.get_dropJoinsBesideSplit_eq_split_iff, ← hd']
  refine get_hold_of_crossing?_eq_none hp hheld ?_
  rw [hd']
  exact hnone

/-! ### Enforcing again

`Admits` says what each of the stages asks of a decision that is to pass unchanged.  What enforcing
leaves has all of these properties, so enforcing it again needs no second walk through the stages.
-/

theorem agree_eq_self (hclosed : ∀ d, flags.get d ≠ .undefined)
    (huniform : p.isotropy = .isotropic → ∃ flag, flags = .uniform flag) :
    p.agree e flags = .ok flags := by
  unfold agree
  rw [Decision.resolve_eq_self hclosed]
  split
  · next hp =>
    obtain ⟨flag, rfl⟩ := huniform hp
    have hflag := hclosed ⟨0, e.dimension_pos⟩
    rw [Decision.get_uniform] at hflag
    rw [Decision.unify_eq_ok Decision.oneWay_uniform,
      Decision.strongest_uniform e.dimension_pos hflag]
  · rfl

/-- If nothing is wrong with what the axes agree on, all that enforcing does to it is to drop joins
beside a split. -/
theorem enforce_of_agree {agreed : Decision D} (hagree : p.agree e flags = .ok agreed)
    (htop : r.topologyFault? e m agreed = none)
    (hnone : ∀ d, p.limits.crossing? e m d (agreed.get d) = none) :
    p.enforce r e m flags = .ok agreed.dropJoinsBesideSplit := by
  rw [enforce_eq, hagree]
  simp only [Except.bind, htop, hold_eq_self hnone]

/-- A decision that leaves the policies nothing to change. -/
structure Admits (p : Policies D) (r : Rules) (e : Element D) (m : Mesh D) (flags : Decision D) :
    Prop where
  /-- No axis is left open. -/
  closed : ∀ d, flags.get d ≠ .undefined
  /-- If all axes must agree, they do. -/
  agreed : p.isotropy = .isotropic → ∃ flag, flags = .uniform flag
  /-- The element can split and join as it says. -/
  permitted : r.Permits e m flags
  /-- It crosses no limit. -/
  within : ∀ d, p.limits.crossing? e m d (flags.get d) = none
  /-- No axis splits while another one joins. -/
  oneWay : flags.OneWay

theorem admits_of_enforce (h : p.enforce r e m flags = .ok final) : p.Admits r e m final where
  closed := get_ne_undefined_of_enforce h
  agreed hp := exists_uniform_of_enforce hp h
  permitted := permits_of_enforce h
  within := crossing?_eq_none_of_enforce h
  oneWay hboth := not_has_join_of_enforce h hboth.1 hboth.2

theorem Admits.enforce_eq (h : p.Admits r e m flags) : p.enforce r e m flags = .ok flags := by
  rw [enforce_of_agree (agree_eq_self h.closed h.agreed)
    (Rules.topologyFault?_eq_none_iff.2 h.permitted) h.within, h.oneWay.dropJoinsBesideSplit_eq]

/-- Enforcing leaves alone what was enforced. -/
theorem enforce_eq_self (h : p.enforce r e m flags = .ok final) :
    p.enforce r e m final = .ok final :=
  (admits_of_enforce h).enforce_eq

/-! ### The loosest limits -/

theorem crossing?_loosest_split_iff :
    (Limits.loosest : Limits D).crossing? e m d .split = none ↔ (e.segment d).level < maxLevel := by
  rw [Limits.crossing?_split_eq_none_iff, Limits.loosest, get_replicate]
  exact Nat.succ_le_iff

end Policies

end AdaptiveMesh
