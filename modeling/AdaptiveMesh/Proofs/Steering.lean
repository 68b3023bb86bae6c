/-
Steering towards a target.

A run that steers has a target and nothing else: one criterion that proposes the next step
along every axis, and no limits but those of the grid and the basis.  Such a run never
holds a step back, so what an element proposes is what the target asks of it.
Balancing may raise that, and it never takes it back; an element that is asked to split
splits, and one that is asked for another resolution gets it unless it splits.

On the way to the target an element that is nowhere too coarse has only joins left to do,
once its extents are right along the axes that do not join.  All such elements ask for the
same thing: to join wherever they are finer than the target.
-/
import AdaptiveMesh.Proofs.Course
import AdaptiveMesh.Proofs.Passes

namespace AdaptiveMesh

variable {D : Nat}

/-! ### What a target asks for

What an element is asked for depends on its mesh as well, and siblings may have different meshes.
The `approach` depends on the levels only, so all siblings share it.  Of an element that is nowhere
too coarse nothing else is asked, once its extents are right where its levels are. -/

namespace Target

variable {t : Target D} {e : Element D} {m : Mesh D} {d : Fin D}

/-- The next step along every axis, without joins beside a split. -/
def aim (t : Target D) (e : Element D) (m : Mesh D) : Decision D :=
  Decision.dropJoinsBesideSplit (Vector.ofFn (t.step e m))

theorem get_aim_eq_split_iff :
    (t.aim e m).get d = .split ↔ (e.segment d).level < t.levels.get d := by
  rw [aim, Decision.get_dropJoinsBesideSplit_eq_split_iff, get_ofFn, step_eq_split_iff]

/-- If every axis counts, the course is all that is asked for. -/
theorem course_eq_aim (h : t.scope = .all) : t.course e m = t.aim e m := by
  refine congrArg Decision.dropJoinsBesideSplit (ext_get fun d => ?_)
  have hd : d ∈ t.scope := by
    rw [h]
    exact get_replicate true d
  rw [get_steps_of_mem hd, get_ofFn]

/-- An element that is nowhere coarser than the target is asked for the next step along every
axis. -/
theorem get_aim_of_le (h : ∀ d, t.levels.get d ≤ (e.segment d).level) :
    (t.aim e m).get d = t.step e m d := by
  rw [aim, Decision.get_dropJoinsBesideSplit, get_ofFn, if_neg]
  rintro ⟨⟨c, hc⟩, -⟩
  rw [get_ofFn, step_eq_split_iff] at hc
  exact absurd (h c) (Nat.not_le.2 hc)

theorem get_aim_eq_join_iff (h : ∀ d, t.levels.get d ≤ (e.segment d).level) :
    (t.aim e m).get d = .join ↔ t.levels.get d < (e.segment d).level := by
  rw [get_aim_of_le h, step_eq_join_iff]

/-- Where the level is right and no other resolution is asked for, the extent is right. -/
theorem extent_eq_of_get_aim (h : ∀ d, t.levels.get d ≤ (e.segment d).level)
    (heq : (e.segment d).level = t.levels.get d)
    (hno : ¬ ((t.aim e m).get d).IsResolution) : m.extents.get d = t.extents.get d := by
  rw [get_aim_of_le h, step_of_eq heq] at hno
  split at hno
  · exact absurd (Or.inl rfl) hno
  · split at hno
    · exact absurd (Or.inr rfl) hno
    · omega

/-- To join along every axis that is finer than the target. -/
def approach (t : Target D) (e : Element D) : Decision D :=
  Vector.ofFn fun d => if t.levels.get d < (e.segment d).level then .join else .doNothing

theorem get_approach_eq_join_iff :
    (t.approach e).get d = .join ↔ t.levels.get d < (e.segment d).level := by
  unfold approach
  rw [get_ofFn]
  split <;> simp_all

theorem not_has_split_approach : ¬ (t.approach e).Has .split := by
  rintro ⟨d, hd⟩
  unfold approach at hd
  rw [get_ofFn] at hd
  split at hd <;> contradiction

/-- What is asked for depends on the levels only. -/
theorem approach_congr {c : Element D} (h : ∀ d, (c.segment d).level = (e.segment d).level) :
    t.approach c = t.approach e := by
  unfold approach
  simp only [h]

/-- An element that is nowhere too coarse, with the right extents where its levels are right, is
asked to join and nothing else. -/
theorem aim_eq_approach (hlevel : ∀ d, t.levels.get d ≤ (e.segment d).level)
    (hextent : ∀ d, (e.segment d).level = t.levels.get d → m.extents.get d = t.extents.get d) :
    t.aim e m = t.approach e := by
  refine ext_get fun d => ?_
  rw [get_aim_of_le hlevel, approach, get_ofFn]
  rcases Nat.lt_or_eq_of_le (hlevel d) with hlt | heq
  · rw [step_of_gt hlt, if_pos hlt]
  · rw [step_of_eq heq.symm, hextent d heq.symm, if_neg (Nat.lt_irrefl _),
      if_neg (Nat.lt_irrefl _), if_neg (Nat.not_lt.2 heq.ge)]

end Target

/-! ### Runs that steer

In unconnected blocks whatever touches an element lies in its own block and has the same axes.  So
levels are compared as they are, without an orientation to look through. -/

/-- A run whose only criterion is to steer towards a target and to stay there, with policies that
allow everything, and extents that its basis can carry. -/
structure Config.Steers (config : Config D) (t : Target D) : Prop where
  criteria_eq : config.criteria = [.driveToTarget t]
  flags_eq : t.flags = .uniform .doNothing
  scope_eq : t.scope = .all
  policies_eq : config.policies = {}
  mode_eq : config.rules.mode = .full
  minimum_le : ∀ d, config.rules.quadrature.minimumExtent ≤ t.extents.get d
  le_maximum : ∀ d, t.extents.get d ≤ config.rules.basis.maximumExtent

/-- All meshes have the basis and the quadrature that the rules prescribe for new elements. -/
def Forest.BuiltBy (f : Forest D) (rules : Rules) : Prop :=
  ∀ (e : Element D) (r : Record D), f.records[e]? = some r → ∀ d,
    r.mesh.basis.get d = rules.basis ∧ r.mesh.quadrature.get d = rules.quadrature

instance (f : Forest D) (rules : Rules) : Decidable (f.BuiltBy rules) :=
  decidable_of_iff (∀ q ∈ f.records.toList, ∀ d, q.2.mesh.basis.get d = rules.basis ∧
    q.2.mesh.quadrature.get d = rules.quadrature) (by
    unfold Forest.BuiltBy
    simp only [Prod.forall, Std.ExtTreeMap.mem_toList_iff_getElem?_eq_some])

/-- No face of a block is glued to anything. -/
def Layout.Unconnected (L : Layout D) : Prop :=
  ∀ b ∈ L.blocks, ∀ face : Face D, b.gluings[face] = none

namespace Config.Steers

variable {config : Config D} {t : Target D}

theorem unlimited (h : config.Steers t) : config.Unlimited where
  mode_eq := h.mode_eq
  isotropy_eq := by rw [h.policies_eq]
  limits_eq := by rw [h.policies_eq]

/-- To steer is to drive along every axis, without limits. -/
theorem drives (h : config.Steers t) : config.Drives t where
  criteria_eq := h.criteria_eq
  flags_eq := h.flags_eq
  isotropy_eq := h.unlimited.isotropy_eq
  mode_eq := h.mode_eq
  levels d _ := by
    rw [h.unlimited.limits_eq, Limits.loosest, get_replicate, get_replicate]
    exact ⟨Nat.zero_le _, t.levels_le d⟩
  extents d _ := by
    have hbasis := config.rules.basis.maximumExtent_le
    have hpos := t.extents_pos d
    have hmin := h.minimum_le d
    have hmax := h.le_maximum d
    rw [h.unlimited.limits_eq, Limits.loosest, get_replicate, get_replicate]
    omega

end Config.Steers

namespace Layout.Unconnected

variable {L : Layout D}

theorem across?_eq_none (h : L.Unconnected) (number : Nat) (face : Face D) :
    L.across? number face = none := by
  unfold across?
  cases hb : L.blocks[number]? with
  | none => rfl
  | some b => exact h b (List.mem_of_getElem? hb) face

/-- In unconnected blocks, what touches an element lies beside it in its own block. -/
theorem adjoins (h : L.Unconnected) {e c : Element D} {face : Face D} {o : Orientation D}
    (htouch : L.touching? e face c = some o) : e.Adjoins face c ∧ o = .aligned := by
  rcases touching?_eq_some.1 htouch with hadjoins | ⟨-, hacross, -⟩
  · exact hadjoins
  · rw [h.across?_eq_none] at hacross
    contradiction

end Layout.Unconnected

/-- Blocks are unconnected until they are glued. -/
theorem Layout.unconnected_ofExtents (extents : List (Vector Nat D)) :
    (Layout.ofExtents extents).Unconnected := by
  intro b hb face
  obtain ⟨_, -, rfl⟩ := List.mem_map.1 hb
  exact FaceTable.getElem_ofFn _ _

/-! ### What is asked for happens -/

namespace Forest

variable {f : Forest D} {config : Config D} {t : Target D} {e : Element D} {r : Record D}
  {flags : Decision D} {order : List (Element D)} {s : Settlement D} {o : Outcome D}

/-- In a run that steers an element proposes what the target asks of it. -/
theorem eq_aim_of_proposal (hsteers : config.Steers t) (hbuilt : f.BuiltBy config.rules)
    (h : f.proposal config e = .ok flags) :
    ∃ r, f.records[e]? = some r ∧ flags = t.aim e r.mesh := by
  obtain ⟨r, hr, h⟩ := bind_eq_ok.1 h
  have hr := record_eq_ok.1 hr
  rw [hsteers.drives.proposal_eq (hbuilt e r hr), Except.ok.injEq] at h
  exact ⟨r, hr, h.symm.trans (Target.course_eq_aim hsteers.scope_eq)⟩

/-- What settles in a run that steers was raised from what the target asks for. -/
theorem aim_raisedTo (hsteers : config.Steers t) (hbuilt : f.BuiltBy config.rules)
    (horder : ∀ e ∈ f, e ∈ order) (h : f.settlement config order = .ok s) (ho : o ∈ s.outcomes)
    (hr : f.records[o.element]? = some r) : (t.aim o.element r.mesh).RaisedTo o.flags := by
  have hpreserves : f.Preserves config fun e flags =>
      ∀ r, f.records[e]? = some r → (t.aim e r.mesh).RaisedTo flags := by
    intro decisions hpublished hall e r flags flags' hr hd hsettles r' hr'
    obtain rfl : r = r' := by rwa [hr, Option.some.injEq] at hr'
    exact (hall e flags hd r hr).trans ((hpublished.enforced e flags hd).raisedTo
      hsteers.unlimited hr hpublished.enforced hsettles)
  refine forall_outcomes horder (fun e flags hproposal r hr => ?_) hpreserves h o ho r hr
  obtain ⟨r', hr', rfl⟩ := eq_aim_of_proposal hsteers hbuilt hproposal
  obtain rfl : r = r' := by rwa [hr, Option.some.injEq] at hr'
  exact .refl _

end Forest

end AdaptiveMesh
