/-
Adding grid points up to the ceiling.

A run whose criteria only ask for more grid points takes the extent of an element by itself up to a
ceiling, by one in every cycle.  The criteria ask for no step beyond the ceiling, and the limits
stand in the way of no step below it: both read the same bounds.  So nothing is ever held back, a
strict run never fails, and whatever splits and joins are allowed there are none.

Several criteria may look at the same axis.  They all propose the same along it, so what comes of
them does not depend on how many there are.
-/
import AdaptiveMesh.Proofs.Arrival
import AdaptiveMesh.Proofs.ProposalOrder

namespace AdaptiveMesh

variable {D : Nat} {config : Config D} {e c : Element D} {m k l : Mesh D} {a b n : Nat} {d : Fin D}

/-! ### The ceiling -/

namespace Limits

/-- The largest extent that the limits and the basis allow. -/
def ceiling (limits : Limits D) (m : Mesh D) (d : Fin D) : Nat :=
  min (limits.maxExtent.get d) (m.maximumExtent d)

/-- One more grid point below the ceiling, and nothing from there on. -/
def upward (limits : Limits D) (m : Mesh D) (d : Fin D) : Flag :=
  if limits.ceiling m d ≤ m.extents.get d then .doNothing else .increaseResolution

theorem upward_eq (limits : Limits D) (m : Mesh D) (d : Fin D) :
    (limits.ceiling m d ≤ m.extents.get d ∧ limits.upward m d = .doNothing) ∨
      (m.extents.get d < limits.ceiling m d ∧ limits.upward m d = .increaseResolution) := by
  unfold upward
  by_cases h : limits.ceiling m d ≤ m.extents.get d
  · exact Or.inl ⟨h, if_pos h⟩
  · exact Or.inr ⟨Nat.lt_of_not_le h, if_neg h⟩

/-- The limits are in the way of no step below the ceiling. -/
theorem crossing?_upward (limits : Limits D) (e : Element D) (m : Mesh D) (d : Fin D) :
    limits.crossing? e m d (limits.upward m d) = none := by
  rcases limits.upward_eq m d with ⟨-, heq⟩ | ⟨hlt, heq⟩
  · rw [heq]
    rfl
  · rw [heq, crossing?_increaseResolution_eq_none_iff]
    exact Or.inr hlt

/-- Below the ceiling there is always one more extent to count. -/
theorem ceiling_le (limits : Limits D) (m : Mesh D) (d : Fin D) :
    limits.ceiling m d ≤ unbounded :=
  Nat.le_trans (Nat.min_le_right _ _) (m.maximumExtent_le d)

end Limits

theorem Criterion.get_propose_of_mem {criterion : Criterion D} {limits : Limits D}
    (hkind : criterion.kind = .increaseResolution) (hd : d ∈ criterion.scope) :
    (criterion.propose limits e m).get d = limits.upward m d := by
  cases criterion with
  | increaseResolution scope =>
      have hd : d ∈ scope := hd
      unfold propose
      dsimp only
      rw [get_ofFn, if_pos hd]
      rfl
  | driveToTarget t => contradiction

/-! ### One cycle -/

/-- Some criterion looks at the axis. -/
def Config.LooksAt (config : Config D) (d : Fin D) : Prop := ∃ k ∈ config.criteria, d ∈ k.scope

instance (config : Config D) (d : Fin D) : Decidable (config.LooksAt d) :=
  inferInstanceAs (Decidable (∃ k ∈ config.criteria, d ∈ k.scope))

/-- A run whose criteria only ask for more grid points, each axis for itself. -/
structure Config.OnlyAdds (config : Config D) : Prop where
  kind_eq : ∀ k ∈ config.criteria, k.kind = .increaseResolution
  isotropy_eq : config.policies.isotropy = .anisotropic

namespace Config

/-- One step towards the ceiling along every axis that is looked at. -/
def rise (config : Config D) (m : Mesh D) : Decision D :=
  Vector.ofFn fun d => if config.LooksAt d then config.policies.limits.upward m d else .doNothing

theorem get_rise_of_looksAt (hd : config.LooksAt d) :
    (config.rise m).get d = config.policies.limits.upward m d := by
  rw [rise, get_ofFn, if_pos hd]

theorem get_rise_of_not_looksAt (hd : ¬ config.LooksAt d) :
    (config.rise m).get d = .doNothing := by
  rw [rise, get_ofFn, if_neg hd]

theorem not_isTopological_rise (config : Config D) (m : Mesh D) (d : Fin D) :
    ¬ ((config.rise m).get d).IsTopological := by
  by_cases hd : config.LooksAt d
  · rw [get_rise_of_looksAt hd]
    rcases config.policies.limits.upward_eq m d with ⟨-, heq⟩ | ⟨-, heq⟩ <;> rw [heq] <;> decide
  · rw [get_rise_of_not_looksAt hd]
    decide

theorem replacement_rise (config : Config D) (e : Element D) (m : Mesh D) :
    (config.rise m).replacement e = .ok none := by
  refine Decision.replacement_eq_none_iff.2 ⟨fun hsplit => ?_, fun hjoin => ?_⟩
  · obtain ⟨d, hd⟩ := hsplit
    exact config.not_isTopological_rise m d (Or.inl hd)
  · obtain ⟨d, hd⟩ := hjoin
    exact config.not_isTopological_rise m d (Or.inr hd)

theorem attainable_rise (config : Config D) (m : Mesh D) : (config.rise m).Attainable m := by
  intro d
  by_cases hd : config.LooksAt d
  · rw [get_rise_of_looksAt hd]
    rcases config.policies.limits.upward_eq m d with ⟨-, heq⟩ | ⟨hlt, heq⟩ <;> rw [heq]
    · simp
    · exact ⟨fun _ => Nat.lt_of_lt_of_le hlt (config.policies.limits.ceiling_le m d),
        fun hup => by contradiction⟩
  · rw [get_rise_of_not_looksAt hd]
    simp

theorem crossing?_rise (config : Config D) (e : Element D) (m : Mesh D) (d : Fin D) :
    config.policies.limits.crossing? e m d ((config.rise m).get d) = none := by
  by_cases hd : config.LooksAt d
  · rw [get_rise_of_looksAt hd]
    exact config.policies.limits.crossing?_upward e m d
  · rw [get_rise_of_not_looksAt hd]
    rfl

/-- The criteria leave an axis open exactly if none of them looks at it. -/
theorem get_propose_eq_undefined_iff {flags : Decision D} (h : config.propose e m = .ok flags) :
    flags.get d = .undefined ↔ ¬ config.LooksAt d := by
  rw [(Decision.combineAll_eq_ok_iff.1 (mapError_eq_ok.1 h)).2 d, Flag.dominant_eq_undefined_iff]
  constructor
  · intro hopen hlooks
    obtain ⟨k, hk, hscope⟩ := hlooks
    have hproposal := hopen _ (List.mem_map.2 ⟨_, List.mem_map.2 ⟨k, hk, rfl⟩, rfl⟩)
    exact Criterion.get_propose_eq_undefined_iff.1 hproposal hscope
  · intro hno flag hflag
    obtain ⟨_, hproposal, rfl⟩ := List.mem_map.1 hflag
    obtain ⟨k, hk, rfl⟩ := List.mem_map.1 hproposal
    exact Criterion.get_propose_of_not_mem fun hscope => hno ⟨k, hk, hscope⟩

namespace OnlyAdds

/-- Along an axis that is looked at the criteria propose one step towards the ceiling, and they
leave all other axes open. -/
theorem propose_eq (h : config.OnlyAdds) (e : Element D) (m : Mesh D) :
    ∃ flags, config.propose e m = .ok flags ∧ ∀ d,
      (config.LooksAt d → flags.get d = config.policies.limits.upward m d) ∧
        (¬ config.LooksAt d → flags.get d = .undefined) := by
  obtain ⟨flags, hflags, hfrom⟩ := config.exists_propose e m
  refine ⟨flags, hflags, fun d => ⟨fun hd => ?_, (get_propose_eq_undefined_iff hflags).2⟩⟩
  have hopinion : flags.get d ≠ .undefined := fun hopen =>
    (get_propose_eq_undefined_iff hflags).1 hopen hd
  obtain ⟨k, hk, heq⟩ := (hfrom d).resolve_left hopinion
  rw [heq] at hopinion ⊢
  have hscope : d ∈ k.scope :=
    Classical.not_not.1 fun hno => hopinion (Criterion.get_propose_of_not_mem hno)
  exact Criterion.get_propose_of_mem (h.kind_eq k hk) hscope

/-- The policies close the axes that are left open and have nothing else to do. -/
theorem proposal_eq (h : config.OnlyAdds) (e : Element D) (m : Mesh D) :
    config.proposal e m = .ok (config.rise m) := by
  obtain ⟨flags, hflags, hget⟩ := h.propose_eq e m
  have hagree : config.policies.agree e flags = .ok (config.rise m) := by
    unfold Policies.agree
    rw [h.isotropy_eq]
    refine congrArg Except.ok (ext_get fun d => ?_)
    rw [Decision.resolve, get_ofFn]
    by_cases hd : config.LooksAt d
    · rw [(hget d).1 hd, get_rise_of_looksAt hd]
      rcases config.policies.limits.upward_eq m d with ⟨-, heq⟩ | ⟨-, heq⟩ <;> rw [heq] <;> rfl
    · rw [(hget d).2 hd, get_rise_of_not_looksAt hd]
      rfl
  have htop : config.rules.topologyFault? e m (config.rise m) = none :=
    Rules.topologyFault?_eq_none_iff.2 fun d hd => absurd hd (config.not_isTopological_rise m d)
  have hsplit := (Decision.replacement_eq_none (config.replacement_rise e m)).1
  rw [config.proposal_eq, hflags]
  show config.enforce e m flags = _
  rw [enforce, Policies.enforce_of_agree hagree htop (config.crossing?_rise e m),
    Decision.dropJoinsBesideSplit_of_not_has_split hsplit]

end OnlyAdds

end Config

/-! ### Cycle after cycle

What some number of cycles makes of an extent is given in closed form, so that runs can be put
together by adding up their numbers.  It takes a ceiling that does not move, and it does not since a
mesh keeps its basis. -/

/-- What some number of cycles make of a mesh. -/
structure Config.Lifts (config : Config D) (m : Mesh D) (n : Nat) (k : Mesh D) : Prop where
  /-- The mesh keeps its basis. -/
  basis_eq : k.basis = m.basis
  /-- It keeps its quadrature. -/
  quadrature_eq : k.quadrature = m.quadrature
  /-- An extent that is looked at goes up by one in each cycle until it meets the ceiling, unless it
  has been there all along. -/
  looked_at : ∀ d, config.LooksAt d → k.extents.get d =
    if config.policies.limits.ceiling m d ≤ m.extents.get d then m.extents.get d
    else min (m.extents.get d + n) (config.policies.limits.ceiling m d)
  /-- Any other extent is left alone. -/
  aside : ∀ d, ¬ config.LooksAt d → k.extents.get d = m.extents.get d

namespace Config

namespace Lifts

theorem refl (config : Config D) (m : Mesh D) : config.Lifts m 0 m where
  basis_eq := rfl
  quadrature_eq := rfl
  looked_at d _ := by
    split
    · rfl
    · omega
  aside _ _ := rfl

/-- Numbers of cycles add up, since the ceiling stays where it is. -/
theorem trans (h : config.Lifts m a k) (h' : config.Lifts k b l) : config.Lifts m (a + b) l where
  basis_eq := h'.basis_eq.trans h.basis_eq
  quadrature_eq := h'.quadrature_eq.trans h.quadrature_eq
  looked_at d hd := by
    have hceiling : config.policies.limits.ceiling k d = config.policies.limits.ceiling m d := by
      unfold Limits.ceiling Mesh.maximumExtent
      rw [h.basis_eq]
    rw [h'.looked_at d hd, hceiling, h.looked_at d hd]
    by_cases hle : config.policies.limits.ceiling m d ≤ m.extents.get d
    · simp only [if_pos hle]
    · simp only [if_neg hle]
      split <;> omega
  aside d hd := (h'.aside d hd).trans (h.aside d hd)

end Lifts

/-- Acting on one step towards the ceiling takes the mesh that step and replaces nothing. -/
theorem lifts_of_apply {o : Outcome D} (h : (config.rise m).apply e m = .ok o) :
    o.element = e ∧ o.replacement = none ∧ config.Lifts m 1 o.mesh := by
  obtain ⟨helement, -, hreplacement, -⟩ := Decision.apply_eq_ok h
  obtain ⟨hextent, hbasis, hquadrature⟩ := Decision.mesh_of_apply h
  refine ⟨helement, ?_, {
    basis_eq := hbasis
    quadrature_eq := hquadrature
    looked_at := fun d hd => ?_
    aside := fun d hd => ?_ }⟩
  · rw [config.replacement_rise] at hreplacement
    exact (Except.ok.inj hreplacement).symm
  · rw [hextent, get_rise_of_looksAt hd]
    rcases config.policies.limits.upward_eq m d with ⟨hle, heq⟩ | ⟨hlt, heq⟩
    · rw [heq, if_pos hle]
      rfl
    · rw [heq, if_neg (Nat.not_le.2 hlt)]
      exact (Nat.min_eq_left hlt).symm
  · rw [hextent, get_rise_of_not_looksAt hd]
    rfl

namespace OnlyAdds

/-- Every cycle of an element by itself completes. -/
theorem exists_outcome (h : config.OnlyAdds) (e : Element D) (m : Mesh D) (feed : Feed D) :
    ∃ o, config.cycle { element := e } m feed = .ok (.completed o) ∧ o.element = e ∧
      o.replacement = none ∧ config.Lifts m 1 o.mesh := by
  obtain ⟨o, ho, happly⟩ :=
    Config.exists_cycle_isolated (h.proposal_eq e m) (config.attainable_rise m) feed
  exact ⟨o, ho, lifts_of_apply happly⟩

/-- A run stays with its element. -/
theorem leads (h : config.OnlyAdds) (hrun : config.Leads e m n c k) :
    c = e ∧ config.Lifts m n k := by
  induction hrun with
  | start => exact ⟨rfl, .refl config m⟩
  | @cycle n c c' k feed o hrun ho hc ih =>
      obtain ⟨rfl, hlifts⟩ := ih
      obtain ⟨o', ho', helement, hnone, hstep⟩ := h.exists_outcome c k feed
      obtain rfl := Config.eq_of_cycle ho ho'
      have hc := (Outcome.becomes_iff_of_remains hnone).1 hc
      exact ⟨hc.trans helement, hlifts.trans hstep⟩

theorem exists_leads (h : config.OnlyAdds) (e : Element D) (m : Mesh D) (n : Nat) :
    ∃ k, config.Leads e m n e k := by
  have hcycle : ∀ c k, c = e → ∃ (feed : Feed D) (o : Outcome D) (c' : Element D),
      config.cycle { element := c } k feed = .ok (.completed o) ∧ o.Becomes c' ∧ c' = e := by
    intro c k hc
    obtain ⟨o, ho, helement, hnone, -⟩ := h.exists_outcome c k fun _ => none
    exact ⟨_, o, e, ho, (Outcome.becomes_iff_of_remains hnone).2 (hc.symm.trans helement.symm), rfl⟩
  obtain ⟨_, k, hrun, rfl⟩ := Config.exists_leads_of (P := fun c _ => c = e) rfl hcycle n
  exact ⟨k, hrun⟩

/-- An element by itself climbs exactly to the ceiling.  There are runs of any length, and from
wherever a run has led the next cycle completes without a split or join, whatever it is told.  After
`n` cycles each extent that some criterion looks at is `n` higher or at the ceiling, if it was below
the ceiling to begin with, and all other extents are what they were. -/
theorem reaches_ceiling (h : config.OnlyAdds) (e : Element D) (m : Mesh D) (n : Nat) :
    (∃ k, config.Leads e m n e k) ∧
    ∀ c k, config.Leads e m n c k → c = e ∧ config.Lifts m n k ∧
      ∀ feed, ∃ o, config.cycle { element := c } k feed = .ok (.completed o) ∧
        o.replacement = none := by
  refine ⟨h.exists_leads e m n, fun c k hrun => ?_⟩
  obtain ⟨hc, hlifts⟩ := h.leads hrun
  refine ⟨hc, hlifts, fun feed => ?_⟩
  obtain ⟨o, ho, -, hnone, -⟩ := h.exists_outcome c k feed
  exact ⟨o, ho, hnone⟩

end OnlyAdds

end Config

section Strict

/-- A strict run that only changes resolutions.  Both criteria look at the first axis, one of them
at the second, and none at the third. -/
def strictRise : Config 3 where
  criteria := [.increaseResolution ⟨#v[true, true, false]⟩,
    .increaseResolution ⟨#v[true, false, false]⟩]
  policies := {
    limits := {
      minLevel := Vector.replicate 3 0
      maxLevel := Vector.replicate 3 7
      minExtent := Vector.replicate 3 1
      maxExtent := Vector.replicate 3 5
      minLevel_le := by decide
      maxLevel_le := by decide
      minExtent_le := by decide
      minExtent_pos := by decide }
    strict := true }
  rules := ⟨.resolutionOnly, .chebyshev, .gauss⟩
  supported := by decide
  fits := by decide +kernel
  agree := by decide +kernel

/-- Fewer points than the run allows along the first axis, more along the second. -/
def slantedMesh : Mesh 3 where
  extents := #v[3, 6, 4]
  basis := Vector.replicate 3 .chebyshev
  quadrature := Vector.replicate 3 .gauss
  supported := by decide
  minimum_le := by decide

/-- The element that is the whole block. -/
def wholeCube : Element 3 := .root 0 (Nat.zero_lt_succ 2)

theorem onlyAdds_strictRise : strictRise.OnlyAdds where
  kind_eq := by decide
  isotropy_eq := rfl

/-- After three cycles the first extent has met its ceiling and waits there.  The second was above
it and stays, and so does the third, at which nobody looks. -/
theorem reaches_ceiling_strictRise :
    ∃ k, strictRise.Leads wholeCube slantedMesh 3 wholeCube k ∧
      k.extents.get 0 = 5 ∧ k.extents.get 1 = 6 ∧ k.extents.get 2 = 4 := by
  obtain ⟨⟨k, hrun⟩, hall⟩ := onlyAdds_strictRise.reaches_ceiling wholeCube slantedMesh 3
  obtain ⟨-, hlifts, -⟩ := hall _ k hrun
  have hfirst := hlifts.looked_at 0 (by decide)
  have hsecond := hlifts.looked_at 1 (by decide)
  have hthird := hlifts.aside 2 (by decide)
  exact ⟨k, hrun, hfirst.trans (by decide +kernel), hsecond.trans (by decide +kernel), hthird⟩

end Strict

end AdaptiveMesh
