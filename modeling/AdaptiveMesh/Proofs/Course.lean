/-
The course to a target.

A target asks for one step along every axis that counts: a level before an extent, and up or
down as the case may be.  A step towards something that is within the limits crosses none of
them, even if it is taken from outside.  So a run that drives elements to such a target holds
no step back, and an element proposes what is left of its steps when joins beside a split are
dropped.  That is its course.

Away from the target some step of the course is always taken.  If a join has to wait, it waits
for a split.
-/
import AdaptiveMesh.Proofs.Enforcement
import AdaptiveMesh.Proofs.Outcome

namespace AdaptiveMesh

variable {D : Nat}

/-! ### Steps

A step looks at one axis and at nothing else.  The level is set right before the extent, so where an
extent is asked for the level is that of the target. -/

namespace Target

variable {t : Target D} {e : Element D} {m : Mesh D} {d : Fin D}

theorem step_eq_split_iff : t.step e m d = .split ↔ (e.segment d).level < t.levels.get d := by
  unfold step
  split
  · next h => exact iff_of_true rfl h
  · next h =>
    refine iff_of_false ?_ h
    repeat' split
    all_goals simp

theorem step_of_gt (h : t.levels.get d < (e.segment d).level) : t.step e m d = .join := by
  unfold step
  rw [if_neg (Nat.lt_asymm h), if_pos h]

/-- At the level of the target it is the extent that is set right. -/
theorem step_of_eq (h : (e.segment d).level = t.levels.get d) :
    t.step e m d = if m.extents.get d < t.extents.get d then .increaseResolution
      else if t.extents.get d < m.extents.get d then .decreaseResolution else .doNothing := by
  unfold step
  rw [if_neg (by omega), if_neg (by omega)]

theorem step_eq_join_iff : t.step e m d = .join ↔ t.levels.get d < (e.segment d).level := by
  refine ⟨fun hstep => ?_, step_of_gt⟩
  rcases Nat.lt_trichotomy (e.segment d).level (t.levels.get d) with hlt | heq | hgt
  · rw [step_eq_split_iff.2 hlt] at hstep
    contradiction
  · rw [step_of_eq heq] at hstep
    split at hstep
    · contradiction
    · split at hstep <;> contradiction
  · exact hgt

theorem step_ne_undefined : t.step e m d ≠ .undefined := by
  unfold step
  repeat' split
  all_goals simp

theorem step_eq_doNothing_iff : t.step e m d = .doNothing ↔
    (e.segment d).level = t.levels.get d ∧ m.extents.get d = t.extents.get d := by
  rcases Nat.lt_trichotomy (e.segment d).level (t.levels.get d) with hlt | heq | hgt
  · rw [step_eq_split_iff.2 hlt]
    exact iff_of_false (by simp) fun h => Nat.ne_of_lt hlt h.1
  · rw [step_of_eq heq]
    split
    · exact iff_of_false (by simp) fun h => by omega
    · split
      · exact iff_of_false (by simp) fun h => by omega
      · exact iff_of_true rfl ⟨heq, by omega⟩
  · rw [step_of_gt hgt]
    exact iff_of_false (by simp) fun h => Nat.ne_of_gt hgt h.1

/-- Points are only added below the target. -/
theorem lt_of_step_eq_increaseResolution (h : t.step e m d = .increaseResolution) :
    m.extents.get d < t.extents.get d := by
  unfold step at h
  repeat' split at h
  all_goals first | assumption | contradiction

/-- Points are only taken away above the target. -/
theorem lt_of_step_eq_decreaseResolution (h : t.step e m d = .decreaseResolution) :
    t.extents.get d < m.extents.get d := by
  unfold step at h
  repeat' split at h
  all_goals first | assumption | contradiction

/-- A step towards a level and an extent within some limits crosses none of them, wherever it is
taken. -/
theorem crossing?_step {l : Limits D}
    (hlevels : l.minLevel.get d ≤ t.levels.get d ∧ t.levels.get d ≤ l.maxLevel.get d)
    (hextents : max (l.minExtent.get d) (m.minimumExtent d) ≤ t.extents.get d ∧
      t.extents.get d ≤ min (l.maxExtent.get d) (m.maximumExtent d)) :
    l.crossing? e m d (t.step e m d) = none := by
  rcases Nat.lt_trichotomy (e.segment d).level (t.levels.get d) with hlt | heq | hgt
  · rw [step_eq_split_iff.2 hlt, Limits.crossing?_split_eq_none_iff]
    omega
  · rw [step_of_eq heq]
    split
    · rw [Limits.crossing?_increaseResolution_eq_none_iff]
      omega
    · split
      · rw [Limits.crossing?_decreaseResolution_eq_none_iff]
        omega
      · rfl
  · rw [step_of_gt hgt, Limits.crossing?_join_eq_none_iff]
    omega

/-! ### The course to the target -/

/-- The next step along the axes that count. -/
def steps (t : Target D) (e : Element D) (m : Mesh D) : Decision D :=
  Vector.ofFn fun d => if d ∈ t.scope then t.step e m d else .doNothing

/-- The next step along the axes that count, without joins beside a split. -/
def course (t : Target D) (e : Element D) (m : Mesh D) : Decision D :=
  (t.steps e m).dropJoinsBesideSplit

theorem get_steps_of_mem (hd : d ∈ t.scope) : (t.steps e m).get d = t.step e m d := by
  rw [steps, get_ofFn, if_pos hd]

theorem get_steps_of_not_mem (hd : d ∉ t.scope) : (t.steps e m).get d = .doNothing := by
  rw [steps, get_ofFn, if_neg hd]

theorem get_course_of_not_mem (hd : d ∉ t.scope) : (t.course e m).get d = .doNothing := by
  rw [course, Decision.get_dropJoinsBesideSplit, get_steps_of_not_mem hd, ite_self]

/-- An axis that counts takes its step or waits. -/
theorem get_course_eq (hd : d ∈ t.scope) :
    (t.course e m).get d = t.step e m d ∨ (t.course e m).get d = .doNothing := by
  rw [course, Decision.get_dropJoinsBesideSplit, get_steps_of_mem hd]
  split
  · exact Or.inr rfl
  · exact Or.inl rfl

/-- Away from the target some axis that counts takes its step. -/
theorem exists_get_course_eq_step (h : ¬ t.Reached e m) :
    ∃ d ∈ t.scope, (t.course e m).get d = t.step e m d ∧ t.step e m d ≠ .doNothing := by
  -- an axis that splits is one that takes its step, and if none splits no axis has to wait
  by_cases hs : (t.course e m).Has .split
  · obtain ⟨d, hd⟩ := hs
    have hscope : d ∈ t.scope := Classical.byContradiction fun hno => by
      rw [get_course_of_not_mem hno] at hd
      contradiction
    have hstep : t.step e m d = .split := by
      rcases get_course_eq hscope (e := e) (m := m) with heq | heq
      · rw [← heq, hd]
      · rw [hd] at heq
        contradiction
    exact ⟨d, hscope, by rw [hd, hstep], by simp [hstep]⟩
  · obtain ⟨d, hd⟩ := Classical.not_forall.1 h
    obtain ⟨hscope, hne⟩ := Classical.not_imp.1 hd
    refine ⟨d, hscope, ?_, hne⟩
    rw [course, Decision.has_split_dropJoinsBesideSplit_iff] at hs
    rw [course, Decision.dropJoinsBesideSplit_of_not_has_split hs, get_steps_of_mem hscope]

theorem course_of_reached (h : t.Reached e m) : t.course e m = .uniform .doNothing := by
  refine ext_get fun d => ?_
  rw [Decision.get_uniform]
  by_cases hd : d ∈ t.scope
  · rcases get_course_eq hd (e := e) (m := m) with heq | heq
    · rw [heq, h d hd]
    · exact heq
  · exact get_course_of_not_mem hd

end Target

/-! ### Runs that drive elements to a target -/

/-- A single proposal is not changed by putting it together with nothing. -/
theorem Decision.combineAll_singleton (flags : Decision D) : combineAll [flags] = .ok flags := by
  have hget : ∀ d, ((undecided : Decision D).get d).combine? (flags.get d)
      = some (flags.get d) := by
    intro d
    rw [undecided, get_uniform]
    rfl
  have hclash : (undecided : Decision D).clash? flags = none := by
    refine firstFound?_eq_none_iff.2 fun d => ?_
    rw [hget]
  have hcombine : combine undecided flags = .ok flags := by
    unfold combine
    rw [hclash]
    refine congrArg Except.ok (ext_get fun d => ?_)
    rw [get_ofFn, hget]
    rfl
  unfold combineAll
  rw [List.foldlM_cons, hcombine]
  rfl

/-- A target that is the only criterion, and stays once it is reached, proposes the next step along
the axes that count. -/
theorem Config.propose_of_criteria {config : Config D} {t : Target D} {e : Element D} {m : Mesh D}
    (hcriteria : config.criteria = [.driveToTarget t]) (hflags : t.flags = .uniform .doNothing) :
    config.propose e m
      = .ok (Vector.ofFn fun d => if d ∈ t.scope then t.step e m d else .undefined) := by
  have hstep : (Criterion.driveToTarget t).propose config.policies.limits e m
      = Vector.ofFn fun d => if d ∈ t.scope then t.step e m d else .undefined := by
    refine ext_get fun d => ?_
    unfold Criterion.propose
    dsimp only
    rw [get_ofFn, get_ofFn]
    by_cases hd : d ∈ t.scope
    · rw [if_pos hd, if_pos hd]
      split
      · next hreached => rw [hflags, Decision.get_uniform, hreached d hd]
      · rfl
    · rw [if_neg hd, if_neg hd]
  unfold propose
  rw [hcriteria, List.map_singleton, Decision.combineAll_singleton, hstep]
  rfl

/-- The mesh has the basis and the quadrature that the rules prescribe for new elements. -/
def Mesh.BuiltBy (m : Mesh D) (rules : Rules) : Prop :=
  ∀ d, m.basis.get d = rules.basis ∧ m.quadrature.get d = rules.quadrature

instance (m : Mesh D) (rules : Rules) : Decidable (m.BuiltBy rules) :=
  inferInstanceAs (Decidable (∀ d, m.basis.get d = rules.basis ∧
    m.quadrature.get d = rules.quadrature))

/-- A run whose only criterion is to drive elements to a target and to leave them there.  Its axes
are independent, it may carry out everything, and along the axes that count the target is within
its limits and those of its basis and quadrature. -/
structure Config.Drives (config : Config D) (t : Target D) : Prop where
  criteria_eq : config.criteria = [.driveToTarget t]
  flags_eq : t.flags = .uniform .doNothing
  isotropy_eq : config.policies.isotropy = .anisotropic
  mode_eq : config.rules.mode = .full
  levels : ∀ d ∈ t.scope, config.policies.limits.minLevel.get d ≤ t.levels.get d ∧
    t.levels.get d ≤ config.policies.limits.maxLevel.get d
  extents : ∀ d ∈ t.scope,
    max (config.policies.limits.minExtent.get d) config.rules.quadrature.minimumExtent
        ≤ t.extents.get d ∧
      t.extents.get d
        ≤ min (config.policies.limits.maxExtent.get d) config.rules.basis.maximumExtent

namespace Config.Drives

variable {config : Config D} {t : Target D} {e : Element D} {m : Mesh D}

theorem propose_eq (h : config.Drives t) : config.propose e m
    = .ok (Vector.ofFn fun d => if d ∈ t.scope then t.step e m d else .undefined) :=
  propose_of_criteria h.criteria_eq h.flags_eq

/-- Axes that do not count are left open by the target and closed by the policies. -/
theorem agree_eq (h : config.Drives t) : config.policies.agree e
    (Vector.ofFn fun d => if d ∈ t.scope then t.step e m d else .undefined)
      = .ok (t.steps e m) := by
  unfold Policies.agree
  rw [h.isotropy_eq]
  refine congrArg Except.ok (ext_get fun d => ?_)
  rw [Decision.resolve, get_ofFn, get_ofFn]
  by_cases hd : d ∈ t.scope
  · rw [if_pos hd, Target.get_steps_of_mem hd]
    exact Flag.resolve_of_ne Target.step_ne_undefined
  · rw [if_neg hd, Target.get_steps_of_not_mem hd]
    rfl

/-- Nothing is wrong with the steps to the target. -/
theorem topologyFault?_eq_none (h : config.Drives t) (hm : m.BuiltBy config.rules) :
    config.rules.topologyFault? e m (t.steps e m) = none := by
  refine Rules.topologyFault?_eq_none_iff.2 fun d _ => ⟨h.mode_eq, fun hd => ?_, ?_⟩
  · by_cases hscope : d ∈ t.scope
    · rw [Target.get_steps_of_mem hscope, Target.step_eq_join_iff] at hd
      exact Nat.zero_lt_of_lt hd
    · rw [Target.get_steps_of_not_mem hscope] at hd
      contradiction
  · rw [← (hm d).2]
    exact m.minimum_le d

/-- No limit is in the way of the steps to the target. -/
theorem crossing?_eq_none (h : config.Drives t) (hm : m.BuiltBy config.rules) (d : Fin D) :
    config.policies.limits.crossing? e m d ((t.steps e m).get d) = none := by
  by_cases hd : d ∈ t.scope
  · rw [Target.get_steps_of_mem hd]
    refine Target.crossing?_step (h.levels d hd) ?_
    rw [Mesh.minimumExtent, Mesh.maximumExtent, (hm d).1, (hm d).2]
    exact h.extents d hd
  · rw [Target.get_steps_of_not_mem hd]
    rfl

theorem proposal_eq (h : config.Drives t) (hm : m.BuiltBy config.rules) :
    config.proposal e m = .ok (t.course e m) := by
  rw [config.proposal_eq, h.propose_eq]
  exact Policies.enforce_of_agree h.agree_eq (h.topologyFault?_eq_none hm)
    (h.crossing?_eq_none hm)

end Config.Drives

end AdaptiveMesh
