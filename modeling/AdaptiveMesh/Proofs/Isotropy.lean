/-
Runs in which all axes do the same.

An isotropic run lets the strongest flag of an element win along every axis.  That fails if
one axis is to split and another to join, and it never comes to that as long as every element
has one level along all of its axes.  A criterion that steers has to look at every axis and to
ask for one level along all of them, so it leads an element either up or down; and two such
criteria would contradict each other, so there is one at most.  What comes of balancing splits
or joins but not both, because every comparison ends with dropping joins beside a split.

So whatever an isotropic run over such a forest fails over, a run in which the axes are
independent may fail over too.
-/
import AdaptiveMesh.Proofs.Steering

namespace AdaptiveMesh

variable {D : Nat}

/-! ### Decisions that go one way -/

theorem Policies.enforce_ne_isotropyConflict {p : Policies D} {r : Rules} {e e' : Element D}
    {m : Mesh D} {flags : Decision D} {c d : Fin D} (h : flags.OneWay) :
    p.enforce r e m flags ≠ .error (.isotropyConflict e' c d) := by
  intro hfail
  rw [enforce_eq] at hfail
  rcases bind_eq_error.1 hfail with hagree | ⟨agreed, -, hfail⟩
  · unfold agree at hagree
    split at hagree
    · rw [Decision.unify_eq_ok h.resolve] at hagree
      contradiction
    · contradiction
  · split at hfail
    · next hfault =>
      obtain ⟨_, _, heq⟩ := Rules.topologyFault?_eq_some (Except.error.inj hfail ▸ hfault)
      contradiction
    · rcases bind_eq_error.1 hfail with hhold | ⟨held, -, hfail⟩
      · obtain ⟨-, _, _, _, _, heq⟩ := hold_eq_error hhold
        contradiction
      · contradiction

/-! ### Proposals for even elements -/

/-- The element has the same level along all axes. -/
def Element.Even (e : Element D) : Prop := ∀ c d, (e.segment c).level = (e.segment d).level

instance (e : Element D) : Decidable e.Even :=
  inferInstanceAs (Decidable (∀ c d : Fin D, (e.segment c).level = (e.segment d).level))

/-- The target is one to which an element can be led by doing the same along all axes. -/
structure Target.Even (t : Target D) : Prop where
  /-- All axes count. -/
  isAll : t.scope.IsAll
  /-- The levels are the same along all axes. -/
  levels : ∀ c d, t.levels.get c = t.levels.get d
  /-- What is proposed at the target goes one way. -/
  oneWay : t.flags.OneWay

namespace Criterion

variable {criteria : List (Criterion D)} {a b k : Criterion D} {t : Target D} {limits : Limits D}
  {e : Element D} {m : Mesh D} {c d : Fin D}

/-- The criterion steers to a level along the axis. -/
def SteersAlong (k : Criterion D) (d : Fin D) : Prop := ∃ t, k = .driveToTarget t ∧ d ∈ t.scope

/-- Criteria that are fit for an isotropic run steer to even targets. -/
theorem even_of_anisotropic?_eq_none (h : anisotropic? criteria = none)
    (ht : .driveToTarget t ∈ criteria) : t.Even := by
  obtain ⟨i, hi⟩ := List.mem_iff_getElem?.1 ht
  have hm : (driveToTarget t, i) ∈ criteria.zipIdx := List.mem_zipIdx_iff_getElem?.2 hi
  have hnone := List.findSome?_eq_none_iff.1 h _ hm
  dsimp only at hnone
  split at hnone
  · next hall =>
    unfold unevenTarget? at hnone
    split at hnone
    · contradiction
    · next hlevels =>
      split at hnone
      · contradiction
      · next hflags =>
        push Not at hlevels
        exact ⟨hall, hlevels, hflags⟩
  · contradiction

/-- Two criteria that steer along one axis contradict each other. -/
theorem SteersAlong.conflicts (ha : a.SteersAlong d) (hb : b.SteersAlong d) :
    FlagSet.Conflicts (a.possible d) (b.possible d) := by
  obtain ⟨t, rfl, ht⟩ := ha
  obtain ⟨u, rfl, hu⟩ := hb
  refine FlagSet.conflicts_iff.2 ⟨.split, ?_, by simp [Flag.tendency], ?_⟩
  · simp [possible, ht, FlagSet.mem_ofList]
  · simp [possible, hu, FlagSet.mem_ofList, Flag.opposite]

/-- Along an axis one criterion steers at most. -/
theorem SteersAlong.unique (h : opposed? criteria = none) (ha : a ∈ criteria) (hb : b ∈ criteria)
    (has : a.SteersAlong d) (hbs : b.SteersAlong d) : a = b := by
  have hpairwise : criteria.Pairwise fun a b => ¬ (a.SteersAlong d ∧ b.SteersAlong d) :=
    (pairwise_of_opposed?_eq_none h).imp fun hfree hboth => hfree d (hboth.1.conflicts hboth.2)
  have : Std.Symm fun a b : Criterion D => ¬ (a.SteersAlong d ∧ b.SteersAlong d) :=
    ⟨fun _ _ hnot hboth => hnot hboth.symm⟩
  by_contra hne
  exact hpairwise.forall ha hb hne ⟨has, hbs⟩

/-- Only a criterion that steers asks for splits or joins. -/
theorem steersAlong_of_propose (h : ((k.propose limits e m).get d).IsTopological) :
    k.SteersAlong d := by
  by_cases hd : d ∈ k.scope
  · cases k with
    | driveToTarget t => exact ⟨t, rfl, hd⟩
    | increaseResolution s =>
        simp only [propose, get_ofFn] at h
        split at h
        · split at h <;> simp [Flag.IsTopological] at h
        · simp [Flag.IsTopological] at h
  · rw [get_propose_of_not_mem hd] at h
    simp [Flag.IsTopological] at h

/-- An even target leads an even element one way. -/
theorem oneWay_propose (ht : t.Even) (he : e.Even) :
    ((driveToTarget t).propose limits e m).OneWay := by
  intro h
  obtain ⟨⟨c, hc⟩, d, hd⟩ := h
  simp only [propose, get_ofFn, if_pos (ht.isAll _)] at hc hd
  by_cases hreached : t.Reached e m
  · rw [if_pos hreached] at hc hd
    exact ht.oneWay ⟨⟨c, hc⟩, d, hd⟩
  · rw [if_neg hreached] at hc hd
    have hlt := Target.step_eq_split_iff.1 hc
    have hgt := Target.step_eq_join_iff.1 hd
    rw [he c d, ht.levels c d] at hlt
    omega

end Criterion

/-- In an isotropic run what is proposed for an even element goes one way. -/
theorem Config.oneWay_of_propose {config : Config D} {e : Element D} {m : Mesh D}
    {flags : Decision D} (hp : config.policies.isotropy = .isotropic) (he : e.Even)
    (h : config.propose e m = .ok flags) : flags.OneWay := by
  obtain ⟨flags', hflags', hfrom⟩ := config.exists_propose e m
  obtain rfl : flags = flags' := by rwa [h, Except.ok.injEq] at hflags'
  have heven : ∀ t, .driveToTarget t ∈ config.criteria → t.Even := by
    intro t ht
    have hfit := (Option.or_eq_none_iff.1 config.agree).2
    rw [hp] at hfit
    exact Criterion.even_of_anisotropic?_eq_none hfit ht
  -- a split and a join could only come from the one criterion that steers
  have hsource : ∀ d, (flags.get d).IsTopological → ∃ t, .driveToTarget t ∈ config.criteria ∧
      flags.get d = ((Criterion.driveToTarget t).propose config.policies.limits e m).get d := by
    intro d htop
    rcases hfrom d with hundefined | ⟨k, hk, heq⟩
    · rw [hundefined] at htop
      simp [Flag.IsTopological] at htop
    · rw [heq] at htop
      obtain ⟨t, rfl, -⟩ := Criterion.steersAlong_of_propose htop
      exact ⟨t, hk, heq⟩
  intro hboth
  obtain ⟨⟨c, hc⟩, d, hd⟩ := hboth
  obtain ⟨t, ht, hct⟩ := hsource c (Or.inl hc)
  obtain ⟨u, hu, hdu⟩ := hsource d (Or.inr hd)
  have hsame := Criterion.SteersAlong.unique config.opposed?_eq_none ht hu
    ⟨t, rfl, (heven t ht).isAll d⟩ ⟨u, rfl, (heven u hu).isAll d⟩
  rw [← hsame] at hdu
  exact Criterion.oneWay_propose (heven t ht) he ⟨⟨c, hct.symm.trans hc⟩, d, hdu.symm.trans hd⟩

/-! ### Rounds over even forests -/

namespace Forest

variable {f : Forest D} {config : Config D} {e : Element D} {flags : Decision D}

/-- Every element has the same level along all axes. -/
def Even (f : Forest D) : Prop := ∀ e ∈ f, e.Even

instance (f : Forest D) : Decidable f.Even :=
  decidable_of_iff (∀ e ∈ f.elements, e.Even) (by simp only [Even, mem_elements])

theorem Enforced.oneWay (h : f.Enforced config e flags) : flags.OneWay :=
  fun hboth => h.not_has_join hboth.1 hboth.2

/-- In an isotropic run over an even forest the axes of an element always agree. -/
theorem Even.not_refused_isotropyConflict (hf : f.Even)
    (hp : config.policies.isotropy = .isotropic) {c d : Fin D} :
    ¬ f.Refused config (.isotropyConflict e c d) := by
  intro h
  cases h with
  | proposed hr hgiven h =>
      have hone := Config.oneWay_of_propose hp (hf _ (mem_of_record hr)) hgiven
      exact Policies.enforce_ne_isotropyConflict hone h
  | balanced hr hcurrent hbalance h =>
      exact Policies.enforce_ne_isotropyConflict (Site.oneWay_balance hbalance hcurrent.oneWay) h
  | stuck hr hfinal h =>
      obtain ⟨d, extent, minimum, heq⟩ := Decision.apply_eq_error (hfinal.enforce_eq_self hr) h
      contradiction

end Forest

end AdaptiveMesh
