/-
Limits as an invariant of a run.

A forest is within limits when every element has a level, and every mesh an extent, that the
limits allow along each axis, the extents held between what the quadrature needs and what the
basis can carry as well.  Nothing that a run does leads out of them.  A settled decision was
enforced, on whichever way it got there, so it crosses no bound: wherever it moves a level or
an extent by one there is room for one more.  Only at the largest extent that can be counted
this fails: from there a run takes a step down for allowed, whatever the limits say.

Everything that is there after a round was made by acting on such a decision.  Children and
parents have the levels that were decided on, and an element that stays has its own.  Their
meshes are those of outcomes, except that of a parent, which along each axis has the extent
of one of the outcomes that were joined; there it matters that all meshes share one basis and
one quadrature.
-/
import AdaptiveMesh.Proofs.AtOnce

namespace AdaptiveMesh

variable {D : Nat}

theorem Element.get_levels (e : Element D) (d : Fin D) : e.levels.get d = (e.segment d).level :=
  get_ofFn _ d

/-! ### What limits allow

Not to cross a bound means that there is room for one more step, on the side to which the step
leads.  It does not bring back what is out of bounds already, so all that can be shown is that no
step leads out. -/

namespace Limits

variable {l : Limits D} {e : Element D} {m : Mesh D} {flags : Decision D} {o : Outcome D}

/-- Along every axis the level lies between the bounds. -/
def AllowLevels (l : Limits D) (levels : Vector Nat D) : Prop :=
  ∀ d : Fin D, l.minLevel.get d ≤ levels.get d ∧ levels.get d ≤ l.maxLevel.get d

instance (l : Limits D) (levels : Vector Nat D) : Decidable (l.AllowLevels levels) :=
  inferInstanceAs (Decidable (∀ d : Fin D, l.minLevel.get d ≤ levels.get d ∧
    levels.get d ≤ l.maxLevel.get d))

/-- Along every axis the extent lies between the bounds, those of basis and quadrature included. -/
def AllowMesh (l : Limits D) (m : Mesh D) : Prop :=
  ∀ d : Fin D, max (l.minExtent.get d) (m.minimumExtent d) ≤ m.extents.get d ∧
    m.extents.get d ≤ min (l.maxExtent.get d) (m.maximumExtent d)

instance (l : Limits D) (m : Mesh D) : Decidable (l.AllowMesh m) :=
  inferInstanceAs (Decidable (∀ d : Fin D, max (l.minExtent.get d) (m.minimumExtent d) ≤
    m.extents.get d ∧ m.extents.get d ≤ min (l.maxExtent.get d) (m.maximumExtent d)))

/-- A decision that crosses no bound leads to levels that are allowed. -/
theorem AllowLevels.desiredLevels (h : l.AllowLevels e.levels)
    (hnone : ∀ d, l.crossing? e m d (flags.get d) = none) :
    l.AllowLevels (e.desiredLevels flags) := by
  intro d
  have hd := h d
  have hcross := hnone d
  rw [Element.get_levels] at hd
  rw [Element.get_desiredLevels]
  cases hflag : flags.get d with
  | split =>
      rw [hflag, crossing?_split_eq_none_iff] at hcross
      simp only [Flag.levelFrom]
      omega
  | join =>
      rw [hflag, crossing?_join_eq_none_iff] at hcross
      simp only [Flag.levelFrom]
      omega
  | _ => exact hd

/-- Acting on a decision that crosses no bound leaves a mesh that is allowed. -/
theorem AllowMesh.apply (h : l.AllowMesh m) (hm : ∀ d, m.extents.get d < unbounded)
    (hnone : ∀ d, l.crossing? e m d (flags.get d) = none) (happly : flags.apply e m = .ok o) :
    l.AllowMesh o.mesh := by
  obtain ⟨hextent, hbasis, hquadrature⟩ := Decision.mesh_of_apply happly
  intro d
  have hd := h d
  have hcross := hnone d
  have hcount := hm d
  unfold Mesh.minimumExtent Mesh.maximumExtent at hd ⊢
  rw [hextent, hbasis, hquadrature]
  cases hflag : flags.get d with
  | increaseResolution =>
      rw [hflag, crossing?_increaseResolution_eq_none_iff, Mesh.maximumExtent] at hcross
      simp only [Flag.newExtent]
      omega
  | decreaseResolution =>
      rw [hflag, crossing?_decreaseResolution_eq_none_iff, Mesh.minimumExtent] at hcross
      simp only [Flag.newExtent]
      omega
  | _ => exact hd

end Limits

/-! ### Forests within limits -/

namespace Forest

variable {f : Forest D} {config : Config D} {final : Decisions D} {outcomes : List (Outcome D)}
  {o : Outcome D} {c p : Element D} {m : Mesh D} {l : Limits D} {basis : Vector Basis D}
  {quadrature : Vector Quadrature D}

/-- All meshes have one basis and one quadrature, and the limits allow all levels and extents. -/
structure Within (f : Forest D) (l : Limits D) (basis : Vector Basis D)
    (quadrature : Vector Quadrature D) : Prop where
  /-- The meshes share a basis and a quadrature. -/
  alike : ∀ e m, f.mesh? e = some m → m.basis = basis ∧ m.quadrature = quadrature
  /-- The levels are allowed. -/
  levels : ∀ e ∈ f, l.AllowLevels e.levels
  /-- The extents are allowed. -/
  extents : ∀ e m, f.mesh? e = some m → l.AllowMesh m

instance (f : Forest D) (l : Limits D) (basis : Vector Basis D)
    (quadrature : Vector Quadrature D) : Decidable (f.Within l basis quadrature) :=
  decidable_of_iff (∀ q ∈ f.records.toList, (q.2.mesh.basis = basis ∧
      q.2.mesh.quadrature = quadrature) ∧ l.AllowLevels q.1.levels ∧ l.AllowMesh q.2.mesh) (by
    simp only [Prod.forall, Std.ExtTreeMap.mem_toList_iff_getElem?_eq_some]
    constructor
    · intro h
      have hmesh : ∀ e m, f.mesh? e = some m → (m.basis = basis ∧ m.quadrature = quadrature) ∧
          l.AllowLevels e.levels ∧ l.AllowMesh m := by
        intro e m hm
        obtain ⟨r, hr, rfl⟩ := Option.map_eq_some_iff.1 hm
        exact h e r hr
      refine ⟨fun e m hm => (hmesh e m hm).1, fun e he => ?_, fun e m hm => (hmesh e m hm).2.2⟩
      obtain ⟨m, hm⟩ := mem_iff_mesh?.1 he
      exact (hmesh e m hm).2.1
    · intro h e r hr
      have hm := mesh?_of_record hr
      exact ⟨h.alike e _ hm, h.levels e (mem_of_record hr), h.extents e _ hm⟩)

namespace Settled

variable (h : Settled f config final outcomes)
  (hf : f.Within config.policies.limits basis quadrature)
  (hcount : ∀ e m, f.mesh? e = some m → ∀ d, m.extents.get d < unbounded)

include h hf hcount

/-- What an outcome says stays within the limits: the levels that were decided on, and the mesh. -/
theorem within (ho : o ∈ outcomes) :
    config.policies.limits.AllowLevels o.element.levels ∧
      config.policies.limits.AllowLevels (o.element.desiredLevels o.flags) ∧
      config.policies.limits.AllowMesh o.mesh ∧
      o.mesh.basis = basis ∧ o.mesh.quadrature = quadrature := by
  obtain ⟨r, hr, -, happly⟩ := h.acted o ho
  have hm := mesh?_of_record hr
  have hlevels := hf.levels _ (h.mem ho)
  have hnone := (h.enforced o ho).crossing?_eq_none hr
  obtain ⟨-, hbasis, hquadrature⟩ := Decision.mesh_of_apply happly
  obtain ⟨hb, hq⟩ := hf.alike _ _ hm
  exact ⟨hlevels, hlevels.desiredLevels hnone,
    (hf.extents _ _ hm).apply (hcount _ _ hm) hnone happly, hbasis.trans hb, hquadrature.trans hq⟩

/-- The merged mesh of elements that join stays within the limits. -/
theorem within_merged (hm : Merged outcomes p m) :
    config.policies.limits.AllowMesh m ∧ m.basis = basis ∧ m.quadrature = quadrature := by
  obtain ⟨first, hfirst, -, -, hbasis, hquadrature⟩ := hm.first
  obtain ⟨-, -, -, hb, hq⟩ := h.within hf hcount hfirst
  refine ⟨fun d => ?_, hbasis.trans hb, hquadrature.trans hq⟩
  -- along this axis the extent is that of one of the elements that join
  obtain ⟨o, ho, -, hextent⟩ := (hm.extents d).1
  obtain ⟨-, -, hallow, hbo, hqo⟩ := h.within hf hcount ho
  have hd := hallow d
  unfold Mesh.minimumExtent Mesh.maximumExtent at hd ⊢
  rw [hbo, hqo, hextent] at hd
  rw [hbasis, hquadrature, hb, hq]
  exact hd

/-- Whatever is there once all elements have acted on their decisions is within the limits. -/
theorem within_atOnce (hc : AtOnce outcomes c m) :
    config.policies.limits.AllowLevels c.levels ∧ config.policies.limits.AllowMesh m ∧
      m.basis = basis ∧ m.quadrature = quadrature := by
  cases hc with
  | kept ho _ _ =>
      obtain ⟨hlevels, -, hmesh⟩ := h.within hf hcount ho
      exact ⟨hlevels, hmesh⟩
  | child ho hs hl hc =>
      obtain ⟨-, hlevels, hmesh⟩ := h.within hf hcount ho
      refine ⟨fun d => ?_, hmesh⟩
      have hlevel := Element.levelFrom_of_mem_children hl ((h.enforced _ ho).not_has_join hs) hc d
      rw [Element.get_levels, hlevel, ← Element.get_desiredLevels]
      exact hlevels d
  | parent hcomplete hm =>
      obtain ⟨o, ho, ⟨hs, -, hp⟩, -⟩ := hcomplete
      obtain ⟨-, hlevels, -⟩ := h.within hf hcount ho
      refine ⟨fun d => ?_, h.within_merged hf hcount hm⟩
      rw [Element.get_levels, Element.levelFrom_of_parent hp hs, ← Element.get_desiredLevels]
      exact hlevels d
  | alone ho _ _ =>
      obtain ⟨hlevels, -, hmesh⟩ := h.within hf hcount ho
      exact ⟨hlevels, hmesh⟩

end Settled

/-! ### Rounds over forests that were reached -/

/-- A round leaves a forest within the limits of its run that was within them before, if there is
one more extent to count after each of its extents. -/
theorem Reachable.within_refineInOrder (hf : Reachable f)
    (hwithin : f.Within config.policies.limits basis quadrature)
    (hcount : ∀ e m, f.mesh? e = some m → ∀ d, m.extents.get d < unbounded)
    {order : List (Element D)} (horder : order.Perm f.elements) :
    (f.refineInOrder config order).2.Within config.policies.limits basis quadrature := by
  cases h : f.settlement config order with
  | error fault =>
      rw [refineInOrder_of_error h]
      exact hwithin
  | ok s =>
      obtain ⟨final, hsettled, hall⟩ := settled_of_settlement h
      have hcover := hall hf.sound fun e he => horder.mem_iff.2 (mem_elements.2 he)
      obtain ⟨-, hg⟩ := hf.sound.carryOut_of_settlement h
        { passes := s.passes, deferred := s.deferred }
      rw [refineInOrder_of_ok h]
      have hmesh := fun c m hm => hsettled.within_atOnce hwithin hcount
        ((hg.mesh?_eq_some_iff_atOnce hsettled (ascending_of_settlement h) hcover
          (c := c) (m := m)).1 hm)
      refine ⟨fun c m hm => (hmesh c m hm).2.2, fun c hc => ?_, fun c m hm => (hmesh c m hm).2.1⟩
      obtain ⟨m, hm⟩ := mem_iff_mesh?.1 hc
      exact (hmesh c m hm).1

section Ring

theorem splitRing_lt_unbounded (e : Element 2) (m : Mesh 2) (hm : splitRing.mesh? e = some m)
    (d : Fin 2) : m.extents.get d < unbounded := by
  have hall : ∀ q ∈ splitRing.records.toList, ∀ d, q.2.mesh.extents.get d < unbounded := by
    decide +kernel
  obtain ⟨r, hr, rfl⟩ := Option.map_eq_some_iff.1 hm
  exact hall (e, r) (Std.ExtTreeMap.mem_toList_iff_getElem?_eq_some.2 hr) d

/-- The elements of the split ring are split along the first axis, as far as the limits go. -/
theorem within_refineInOrder_splitRing :
    (splitRing.refine confinedConfig).2.Within confinedConfig.policies.limits
        (Vector.replicate 2 .legendre) (Vector.replicate 2 .gaussLobatto) ∧
      (splitRing.refine confinedConfig).2.size = 6 :=
  ⟨Reachable.within_refineInOrder reachable_splitRing (by decide +kernel) splitRing_lt_unbounded
    (.refl _), by decide +kernel⟩

end Ring

end Forest

end AdaptiveMesh
