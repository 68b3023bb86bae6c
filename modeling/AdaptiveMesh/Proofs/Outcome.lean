/-
What comes of a decision.

An outcome is the record of a decision that was acted on: the element and the flags it
was made from, a mesh, and a replacement that the flags determine.  These lemmas open a
finished cycle from its end.  However the cycle went, what completed it was acting on
some decision, and everything an outcome says can be traced back to that.
-/
import AdaptiveMesh.Proofs.Family
import AdaptiveMesh.Proofs.Traversal
import AdaptiveMesh.Round.Cycle

namespace AdaptiveMesh

variable {D : Nat}

/-! ### Meshes -/

/-- No basis carries more points than can be counted. -/
theorem Basis.maximumExtent_le (b : Basis) : b.maximumExtent ≤ unbounded := by
  cases b <;> decide

namespace Mesh

variable {m m' : Mesh D} {extents : Vector Nat D}

theorem maximumExtent_le (m : Mesh D) (d : Fin D) : m.maximumExtent d ≤ unbounded :=
  (m.basis.get d).maximumExtent_le

theorem withExtents_eq_ok (h : m.withExtents extents = .ok m') :
    m'.extents = extents ∧ m'.basis = m.basis ∧ m'.quadrature = m.quadrature := by
  unfold withExtents ofExtents at h
  split at h
  · contradiction
  · rw [← Except.ok.inj h]
    exact ⟨rfl, rfl, rfl⟩

/-- Extents that leave enough points make a mesh. -/
theorem exists_withExtents (h : ∀ d, m.minimumExtent d ≤ extents.get d) :
    ∃ m', m.withExtents extents = .ok m' := by
  have hnone : firstFound? (faultAt? extents m.basis m.quadrature) = none :=
    firstFound?_eq_none_iff.2 fun d => faultAt?_eq_none_iff.2 ⟨m.supported d, h d⟩
  unfold withExtents ofExtents
  split
  · next fault hfault =>
    rw [hnone] at hfault
    contradiction
  · exact ⟨_, rfl⟩

/-- Other extents make no mesh only if they are too few somewhere. -/
theorem withExtents_eq_error {fault : Fault D} (h : m.withExtents extents = .error fault) :
    ∃ d extent minimum, fault = .tooFewPoints d extent minimum := by
  unfold withExtents ofExtents at h
  split at h
  · next fault' hfound =>
    obtain rfl : fault' = fault := Except.error.inj h
    obtain ⟨d, hd, -⟩ := firstFound?_eq_some_iff.1 hfound
    unfold faultAt? at hd
    rw [if_pos (m.supported d)] at hd
    split at hd
    · contradiction
    · exact ⟨d, _, _, (Option.some.inj hd).symm⟩
  · contradiction

theorem withExtents_eq_ok_iff : m.withExtents extents = .ok m' ↔
    m'.extents = extents ∧ m'.basis = m.basis ∧ m'.quadrature = m.quadrature := by
  refine ⟨withExtents_eq_ok, fun ⟨hextents, hbasis, hquadrature⟩ => ?_⟩
  obtain ⟨m'', h⟩ : ∃ m'', m.withExtents extents = .ok m'' := exists_withExtents fun d => by
    unfold minimumExtent
    rw [← hextents, ← hquadrature]
    exact m'.minimum_le d
  obtain ⟨hextents', hbasis', hquadrature'⟩ := withExtents_eq_ok h
  rw [h]
  cases m'
  cases m''
  simp_all

end Mesh

/-! ### Acting on a decision -/

theorem Flag.newExtent_of_not_isResolution {a : Flag} (h : ¬ a.IsResolution) (n : Nat) :
    a.newExtent n = n := by
  cases a <;> simp_all [newExtent, IsResolution]

namespace Decision

variable {flags : Decision D} {e : Element D} {m : Mesh D} {o : Outcome D}

theorem apply_eq_ok (h : flags.apply e m = .ok o) :
    o.element = e ∧ o.flags = flags ∧ flags.replacement e = .ok o.replacement ∧
      m.withExtents (Vector.ofFn fun d => (flags.get d).newExtent (m.extents.get d))
        = .ok o.mesh := by
  unfold apply at h
  split at h
  · contradiction
  · obtain ⟨mesh, hmesh, h⟩ := bind_eq_ok.1 h
    obtain ⟨replacement, hrep, h⟩ := bind_eq_ok.1 h
    rw [mapError_eq_ok] at hmesh hrep
    rw [← pure_eq_ok.1 h]
    exact ⟨rfl, rfl, hrep, hmesh⟩

/-- Acting on a decision changes the extents as flagged, and nothing else about the mesh. -/
theorem mesh_of_apply (h : flags.apply e m = .ok o) :
    (∀ d, o.mesh.extents.get d = (flags.get d).newExtent (m.extents.get d)) ∧
      o.mesh.basis = m.basis ∧ o.mesh.quadrature = m.quadrature := by
  obtain ⟨hextents, halike⟩ := Mesh.withExtents_eq_ok (apply_eq_ok h).2.2.2
  refine ⟨fun d => ?_, halike⟩
  rw [hextents, get_ofFn]

/-- Acting on a decision keeps the mesh exactly if no axis changes its resolution. -/
theorem mesh_of_apply_eq_iff (h : flags.apply e m = .ok o) :
    o.mesh = m ↔ ∀ d, ¬ (flags.get d).IsResolution := by
  obtain ⟨hget, hbasis, hquadrature⟩ := mesh_of_apply h
  constructor
  · intro heq d hd
    have hpos := Nat.lt_of_lt_of_le (Quadrature.minimumExtent_pos _) (m.minimum_le d)
    have hextent := hget d
    rw [heq] at hextent
    rcases hd with hd | hd <;> rw [hd] at hextent <;> simp only [Flag.newExtent] at hextent <;>
      omega
  · intro hno
    have hsame : o.mesh.extents = m.extents := by
      refine ext_get fun d => ?_
      rw [hget, Flag.newExtent_of_not_isResolution (hno d)]
    cases hmesh : o.mesh
    cases m
    simp_all

theorem replacement_eq_split {children : List (Element D)}
    (h : flags.replacement e = .ok (some (.split children))) :
    flags.Has .split ∧ e.children flags = .ok children := by
  unfold replacement at h
  split at h
  · next hs =>
    obtain ⟨l, hl, h⟩ := bind_eq_ok.1 h
    obtain rfl : l = children := by simpa using pure_eq_ok.1 h
    exact ⟨hs, hl⟩
  · split at h
    · obtain ⟨p, -, h⟩ := bind_eq_ok.1 h
      exact absurd (pure_eq_ok.1 h) (by simp)
    · exact absurd (Except.ok.inj h) (by simp)

theorem replacement_eq_join {parent : Element D}
    (h : flags.replacement e = .ok (some (.join parent))) :
    ¬ flags.Has .split ∧ flags.Has .join ∧ e.parent flags = .ok parent := by
  unfold replacement at h
  split at h
  · obtain ⟨l, -, h⟩ := bind_eq_ok.1 h
    exact absurd (pure_eq_ok.1 h) (by simp)
  · next hs =>
    split at h
    · next hj =>
      obtain ⟨p, hp, h⟩ := bind_eq_ok.1 h
      obtain rfl : p = parent := by simpa using pure_eq_ok.1 h
      exact ⟨hs, hj, hp⟩
    · exact absurd (Except.ok.inj h) (by simp)

theorem replacement_eq_none (h : flags.replacement e = .ok none) :
    ¬ flags.Has .split ∧ ¬ flags.Has .join := by
  unfold replacement at h
  split at h
  · obtain ⟨l, -, h⟩ := bind_eq_ok.1 h
    exact absurd (pure_eq_ok.1 h) (by simp)
  · next hs =>
    split at h
    · obtain ⟨p, -, h⟩ := bind_eq_ok.1 h
      exact absurd (pure_eq_ok.1 h) (by simp)
    · next hj => exact ⟨hs, hj⟩

theorem replacement_eq_split_iff {children : List (Element D)} :
    flags.replacement e = .ok (some (.split children)) ↔
      flags.Has .split ∧ e.children flags = .ok children := by
  refine ⟨replacement_eq_split, fun ⟨hs, hl⟩ => ?_⟩
  unfold replacement
  rw [if_pos hs, hl]
  rfl

theorem replacement_eq_join_iff {parent : Element D} :
    flags.replacement e = .ok (some (.join parent)) ↔
      ¬ flags.Has .split ∧ flags.Has .join ∧ e.parent flags = .ok parent := by
  refine ⟨replacement_eq_join, fun ⟨hs, hj, hp⟩ => ?_⟩
  unfold replacement
  rw [if_neg hs, if_pos hj, hp]
  rfl

theorem replacement_eq_none_iff :
    flags.replacement e = .ok none ↔ ¬ flags.Has .split ∧ ¬ flags.Has .join := by
  refine ⟨replacement_eq_none, fun ⟨hs, hj⟩ => ?_⟩
  unfold replacement
  rw [if_neg hs, if_neg hj]

/-- Acting on a decision to stay changes nothing. -/
theorem unchanged_of_apply (h : flags.apply e m = .ok o) (hstay : ∀ d, flags.get d = .doNothing) :
    o.Unchanged m := by
  have hnot : ∀ flag, flag ≠ .doNothing → ¬ flags.Has flag := by
    rintro flag hne ⟨d, hd⟩
    exact hne (hd.symm.trans (hstay d))
  have hreplacement := (apply_eq_ok h).2.2.1
  rw [replacement_eq_none_iff.2 ⟨hnot .split (by simp), hnot .join (by simp)⟩,
    Except.ok.injEq] at hreplacement
  refine ⟨hreplacement.symm, (mesh_of_apply_eq_iff h).2 fun d => ?_⟩
  rw [hstay]
  simp [Flag.IsResolution]

/-- An element that acts on a decision has a finer level wherever it splits. -/
theorem level_lt_of_replacement {r : Option (Replacement D)} (h : flags.replacement e = .ok r)
    {d : Fin D} (hd : flags.get d = .split) : (e.segment d).level < maxLevel := by
  unfold replacement at h
  rw [if_pos ⟨d, hd⟩] at h
  obtain ⟨l, hl, -⟩ := bind_eq_ok.1 h
  exact (Element.children_eq_ok hl).1 d hd

end Decision

/-! ### Cycles

There are three ways to come by the decision that a rebalancing acts on, and `Settles` has a case
for each.  With the decision at hand, what comes of a rebalancing is a matter of acting on it. -/

section Cycle

variable {c : Cycle} {config : Config D} {s : Site D} {m : Mesh D} {flags : Decision D}
  {feed : Feed D} {e : Element D} {o : Outcome D}

/-- A proposal is what the policies leave of what the criteria propose. -/
theorem Config.proposal_eq (config : Config D) (e : Element D) (m : Mesh D) :
    config.proposal e m = config.propose e m >>= config.enforce e m := by
  unfold proposal Cycle.propose
  cases config.propose e m with
  | error fault => rfl
  | ok given =>
      show _ = config.enforce e m given
      dsimp only
      cases config.enforce e m given <;> rfl

theorem Config.proposal_eq_ok (h : config.proposal e m = .ok flags) :
    ∃ given, config.propose e m = .ok given ∧ config.enforce e m given = .ok flags := by
  rw [config.proposal_eq] at h
  exact bind_eq_ok.1 h

theorem Cycle.finish_eq (c : Cycle) (e : Element D) (m : Mesh D) (flags : Decision D) :
    (c.finish e m flags).1 = (flags.apply e m).map .completed := by
  unfold Cycle.finish
  dsimp only
  cases flags.apply e m <;> rfl

theorem Cycle.finish_eq_completed (h : (c.finish e m flags).1 = .ok (.completed o)) :
    flags.apply e m = .ok o := by
  rw [Cycle.finish_eq] at h
  cases happly : flags.apply e m with
  | error fault =>
      rw [happly] at h
      contradiction
  | ok outcome =>
      rw [happly] at h
      exact congrArg Except.ok (Status.completed.inj (Except.ok.inj h))

/-- The decision that a rebalancing acts on: what it was given if there is nothing to balance, what
balancing made of it if that changed nothing, and otherwise that enforced once more. -/
inductive Settles (config : Config D) (s : Site D) (m : Mesh D) (flags : Decision D)
    (feed : Feed D) : Decision D → Prop where
  | unbalanced (h : ¬ (config.rules.mode = .full ∧ s.neighbors ≠ ∅)) :
      Settles config s m flags feed flags
  | unchanged {revision : Revision D} (h : config.rules.mode = .full ∧ s.neighbors ≠ ∅)
      (balanced : s.balance config.policies.balanceNormal flags feed = .ok (.balanced revision))
      (same : revision.changed = false) : Settles config s m flags feed revision.flags
  | enforced {revision : Revision D} {final : Decision D}
      (h : config.rules.mode = .full ∧ s.neighbors ≠ ∅)
      (balanced : s.balance config.policies.balanceNormal flags feed = .ok (.balanced revision))
      (changed : revision.changed = true)
      (again : config.enforce s.element m revision.flags = .ok final) :
      Settles config s m flags feed final

/-- A rebalancing that completes has acted on a decision. -/
theorem rebalance_eq_completed (h : config.rebalance s m flags feed = .ok (.completed o)) :
    ∃ final, Settles config s m flags feed final ∧ final.apply s.element m = .ok o := by
  unfold Config.rebalance Cycle.rebalance Cycle.settle at h
  split at h
  · next hfull =>
    split at h
    · contradiction
    · exact absurd h (by simp)
    · next revision hbal =>
      split at h
      · next hchanged =>
        split at h
        · contradiction
        · next final hfinal =>
          exact ⟨final, .enforced hfull hbal hchanged hfinal, Cycle.finish_eq_completed h⟩
      · next hsame =>
        exact ⟨_, .unchanged hfull hbal (by simpa using hsame), Cycle.finish_eq_completed h⟩
  · next hnot => exact ⟨flags, .unbalanced hnot, Cycle.finish_eq_completed h⟩

/-- Rebalancing comes down to acting on the decision that it settles on. -/
theorem Settles.rebalance_eq {final : Decision D} (h : Settles config s m flags feed final) :
    config.rebalance s m flags feed = (final.apply s.element m).map .completed := by
  unfold Config.rebalance Cycle.rebalance Cycle.settle
  cases h with
  | unbalanced h => rw [if_neg h, Cycle.finish_eq]
  | unchanged h balanced same =>
      rw [if_pos h, balanced]
      simp only [same, Bool.false_eq_true, if_false]
      rw [Cycle.finish_eq]
  | enforced h balanced changed again =>
      rw [if_pos h, balanced]
      simp only [changed, if_true, again]
      rw [Cycle.finish_eq]

/-- Without anything to balance, rebalancing is acting on the decision. -/
theorem Config.rebalance_of_not_balancing (h : ¬ (config.rules.mode = .full ∧ s.neighbors ≠ ∅)) :
    config.rebalance s m flags feed = (flags.apply s.element m).map .completed :=
  (Settles.unbalanced h).rebalance_eq

/-! ### Waiting -/

theorem Cycle.finish_ne_deferred {missing : List (Element D)} :
    (c.finish e m flags).1 ≠ .ok (.deferred missing) := by
  unfold Cycle.finish
  dsimp only
  split <;> simp

theorem Site.mem_missing {n : Element D} :
    n ∈ s.missing feed ↔ n ∈ s.neighbors ∧ feed n = none := by
  unfold missing
  rw [List.mem_filter, Std.ExtTreeSet.mem_toList, Option.isNone_iff_eq_none]

theorem Site.missing_eq_nil_iff :
    s.missing feed = [] ↔ ∀ n ∈ s.neighbors, ∃ theirs, feed n = some theirs := by
  simp only [List.eq_nil_iff_forall_not_mem, mem_missing, not_and, ← Option.ne_none_iff_exists']

theorem Site.balance_eq_missing_iff {normal : Bool} {missing : List (Element D)} :
    s.balance normal flags feed = .ok (.missing missing) ↔
      missing = s.missing feed ∧ s.missing feed ≠ [] := by
  unfold Site.balance
  by_cases h : s.missing feed = []
  · rw [if_pos h]
    refine iff_of_false (fun hb => ?_) fun hb => hb.2 h
    obtain ⟨revision, -, hb⟩ := bind_eq_ok.1 hb
    exact absurd (pure_eq_ok.1 hb) (by simp)
  · rw [if_neg h, Except.ok.injEq, Balance.missing.injEq]
    exact ⟨fun hb => ⟨hb.symm, h⟩, fun hb => hb.1.symm⟩

/-- A rebalancing is put off exactly for the neighbours that have published nothing, unless there is
nothing to balance. -/
theorem rebalance_eq_deferred_iff {missing : List (Element D)} :
    config.rebalance s m flags feed = .ok (.deferred missing) ↔
      config.rules.mode = .full ∧ missing = s.missing feed ∧ s.missing feed ≠ [] := by
  have hwait : s.balance config.policies.balanceNormal flags feed = .ok (.missing missing) ↔
      missing = s.missing feed ∧ s.missing feed ≠ [] := Site.balance_eq_missing_iff
  unfold Config.rebalance Cycle.rebalance Cycle.settle
  by_cases hfull : config.rules.mode = .full ∧ s.neighbors ≠ ∅
  · rw [if_pos hfull, and_iff_right hfull.1, ← hwait]
    split
    · next hbal => simp [hbal]
    · next hbal => simp [hbal]
    · next hbal =>
      refine iff_of_false (fun h => ?_) (by simp [hbal])
      split at h
      · split at h
        · contradiction
        · exact Cycle.finish_ne_deferred h
      · exact Cycle.finish_ne_deferred h
  · rw [if_neg hfull]
    refine iff_of_false Cycle.finish_ne_deferred fun h => ?_
    obtain ⟨hmode, -, hne⟩ := h
    obtain ⟨n, hn⟩ := List.exists_mem_of_ne_nil _ hne
    refine hfull ⟨hmode, fun hempty => ?_⟩
    have hmem := (Site.mem_missing.1 hn).1
    rw [hempty] at hmem
    exact Std.ExtTreeSet.not_mem_empty hmem

end Cycle

end AdaptiveMesh
