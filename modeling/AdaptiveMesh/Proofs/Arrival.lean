/-
Driving one element to its target.

Take an element by itself and run cycle after cycle on it, each time going on with the mesh
that the last one left and with the element itself, its parent or any of its children.  What
is left to do is counted: along every axis of the scope, by how many levels and by how many
grid points the element is off.

A cycle takes one step along every axis that is off, except that joins wait while another
axis splits.  No limit is in the way of a step, since the steps lead towards a target that is
within the limits, and it does not matter whether the element has ever been within them.  So
each cycle counts down, by one along every axis that takes its step and by nothing along the
others, and some axis always takes its step: if one has to wait, another one splits.  When
nothing is left the target proposes to stay, and so the element does.
-/
import Mathlib.Data.Nat.Dist
import AdaptiveMesh.Proofs.Legality
import AdaptiveMesh.Proofs.Steering

namespace AdaptiveMesh

variable {D : Nat}

/-! ### What is left to do

The distance is the sum over the axes that count, not the largest of them.  An axis that has to wait
would keep the largest where it is, but it does not keep the sum from going down with another axis.
-/

/-- A decision leads from one element and mesh to another along every axis. -/
structure Decision.Moves (flags : Decision D) (e : Element D) (m : Mesh D) (c : Element D)
    (k : Mesh D) : Prop where
  /-- The level goes up with a split and down with a join. -/
  level_eq : ∀ d, (c.segment d).level = (flags.get d).levelFrom (e.segment d).level
  /-- The extent goes up and down with the resolution. -/
  extent_eq : ∀ d, k.extents.get d = (flags.get d).newExtent (m.extents.get d)

namespace Target

variable {t : Target D} {e c : Element D} {m k : Mesh D} {d : Fin D}

/-- How far an element is off along an axis, in levels and in grid points. -/
def distanceAt (t : Target D) (e : Element D) (m : Mesh D) (d : Fin D) : Nat :=
  Nat.dist (e.segment d).level (t.levels.get d) + Nat.dist (m.extents.get d) (t.extents.get d)

/-- How far an element is off along the axes that count. -/
def distance (t : Target D) (e : Element D) (m : Mesh D) : Nat :=
  ∑ d with d ∈ t.scope, t.distanceAt e m d

theorem distanceAt_eq_zero_iff : t.distanceAt e m d = 0 ↔ t.step e m d = .doNothing := by
  rw [step_eq_doNothing_iff]
  unfold distanceAt Nat.dist
  omega

/-- Nothing is left to do exactly at the target. -/
theorem distance_eq_zero_iff : t.distance e m = 0 ↔ t.Reached e m := by
  unfold distance Reached
  rw [Finset.sum_eq_zero_iff]
  simp only [Finset.mem_filter, Finset.mem_univ, true_and, distanceAt_eq_zero_iff]

/-! ### Coming nearer -/

theorem distanceAt_of_doNothing {flags : Decision D} (hmoves : flags.Moves e m c k)
    (hd : flags.get d = .doNothing) : t.distanceAt c k d = t.distanceAt e m d := by
  unfold distanceAt
  rw [hmoves.level_eq, hmoves.extent_eq, hd]
  rfl

/-- Whatever step is left along an axis, taking it comes nearer. -/
theorem distanceAt_lt_of_step {flags : Decision D} (hmoves : flags.Moves e m c k)
    (hd : flags.get d = t.step e m d) (hne : t.step e m d ≠ .doNothing) :
    t.distanceAt c k d < t.distanceAt e m d := by
  unfold distanceAt Nat.dist
  rw [hmoves.level_eq, hmoves.extent_eq, hd]
  rcases Nat.lt_trichotomy (e.segment d).level (t.levels.get d) with hlt | heq | hgt
  · rw [step_eq_split_iff.2 hlt]
    simp only [Flag.levelFrom, Flag.newExtent]
    omega
  · rw [step_of_eq heq] at hne ⊢
    by_cases hinc : m.extents.get d < t.extents.get d
    · rw [if_pos hinc]
      simp only [Flag.levelFrom, Flag.newExtent]
      omega
    by_cases hdec : t.extents.get d < m.extents.get d
    · rw [if_neg hinc, if_pos hdec]
      simp only [Flag.levelFrom, Flag.newExtent]
      omega
    · rw [if_neg hinc, if_neg hdec] at hne
      contradiction
  · rw [step_of_gt hgt]
    simp only [Flag.levelFrom, Flag.newExtent]
    omega

theorem distance_lt_of_course (hmoves : (t.course e m).Moves e m c k) (h : ¬ t.Reached e m) :
    t.distance c k < t.distance e m := by
  refine Finset.sum_lt_sum (fun d hd => ?_) ?_
  · have hscope : d ∈ t.scope := (Finset.mem_filter.1 hd).2
    rcases get_course_eq hscope (e := e) (m := m) with heq | heq
    · by_cases hstep : t.step e m d = .doNothing
      · exact (distanceAt_of_doNothing hmoves (heq.trans hstep)).le
      · exact (distanceAt_lt_of_step hmoves heq hstep).le
    · exact (distanceAt_of_doNothing hmoves heq).le
  · obtain ⟨d, hscope, heq, hstep⟩ := exists_get_course_eq_step h
    exact ⟨d, Finset.mem_filter.2 ⟨Finset.mem_univ d, hscope⟩,
      distanceAt_lt_of_step hmoves heq hstep⟩

end Target

/-! ### What becomes of an element

After a split the element goes on as one of its children, and nothing is known of which one.  What
the distance takes from an element are its levels, and in these all children are alike. -/

/-- An element may go on as the element after an outcome: it is one of the children if there was a
split, the parent if there was a join, and otherwise the element itself. -/
def Outcome.Becomes (o : Outcome D) (c : Element D) : Prop :=
  match o.replacement with
  | none => c = o.element
  | some (.split children) => c ∈ children
  | some (.join parent) => c = parent

theorem Outcome.becomes_iff_of_remains {o : Outcome D} {c : Element D} (h : o.replacement = none) :
    o.Becomes c ↔ c = o.element := by
  unfold Becomes
  rw [h]

namespace Decision

variable {flags : Decision D} {e c : Element D} {m : Mesh D} {o : Outcome D}

theorem exists_becomes (happly : flags.apply e m = .ok o) : ∃ c, o.Becomes c := by
  have hreplacement := (apply_eq_ok happly).2.2.1
  unfold Outcome.Becomes
  split
  · exact ⟨_, rfl⟩
  · next l hl =>
    rw [hl] at hreplacement
    exact List.exists_mem_of_ne_nil l
      (Element.children_ne_nil (replacement_eq_split hreplacement).2)
  · exact ⟨_, rfl⟩

/-- A decision that does not split and join at once leads to whatever becomes of the element. -/
theorem moves_of_becomes (happly : flags.apply e m = .ok o) (hflags : flags.OneWay)
    (hc : o.Becomes c) : flags.Moves e m c o.mesh := by
  obtain ⟨helement, -, hreplacement, -⟩ := apply_eq_ok happly
  refine ⟨fun d => ?_, fun d => ?_⟩
  · unfold Outcome.Becomes at hc
    split at hc
    · next hnone =>
      rw [hnone] at hreplacement
      obtain ⟨hs, hj⟩ := replacement_eq_none hreplacement
      rw [hc, helement, Flag.levelFrom_of_ne (fun hd => hs ⟨d, hd⟩) fun hd => hj ⟨d, hd⟩]
    · next l hl =>
      rw [hl] at hreplacement
      obtain ⟨hs, hchildren⟩ := replacement_eq_split hreplacement
      exact Element.levelFrom_of_mem_children hchildren (fun hj => hflags ⟨hs, hj⟩) hc d
    · next p hp =>
      rw [hp] at hreplacement
      obtain ⟨hs, -, hparent⟩ := replacement_eq_join hreplacement
      rw [hc]
      exact Element.levelFrom_of_parent hparent hs d
  · exact (mesh_of_apply happly).1 d

end Decision

/-- What an outcome does for an element on its way to a target: it comes nearer, whatever becomes of
it, until it stays, and axes that do not count are left alone. -/
structure Outcome.Nears (t : Target D) (e : Element D) (m : Mesh D) (o : Outcome D) : Prop where
  /-- The element goes on in some way. -/
  goes_on : ∃ c, o.Becomes c
  /-- As long as something is left to do, less is left. -/
  nearer : 0 < t.distance e m → ∀ c, o.Becomes c → t.distance c o.mesh < t.distance e m
  /-- When nothing is left to do, nothing is done. -/
  stays : t.distance e m = 0 →
    o.Unchanged m ∧ (∀ d, o.flags.get d = .doNothing) ∧ ∀ c, o.Becomes c → c = e
  /-- Levels and extents along other axes are what they were. -/
  aside : ∀ c, o.Becomes c → ∀ d, d ∉ t.scope →
    (c.segment d).level = (e.segment d).level ∧ o.mesh.extents.get d = m.extents.get d

/-- Following the course of a target does all this. -/
theorem Outcome.nears_of_apply {t : Target D} {e : Element D} {m : Mesh D} {o : Outcome D}
    (happly : (t.course e m).apply e m = .ok o) : o.Nears t e m := by
  have hmoves : ∀ c, o.Becomes c → (t.course e m).Moves e m c o.mesh :=
    fun c => Decision.moves_of_becomes happly Decision.oneWay_dropJoinsBesideSplit
  refine ⟨Decision.exists_becomes happly, fun hpos c hc => ?nearer, fun hzero => ?stays,
    fun c hc d hd => ?aside⟩
  case nearer =>
    exact Target.distance_lt_of_course (hmoves c hc)
      fun h => Nat.ne_of_gt hpos (Target.distance_eq_zero_iff.2 h)
  case stays =>
    obtain ⟨helement, hflags, -, -⟩ := Decision.apply_eq_ok happly
    have hstay : ∀ d, (t.course e m).get d = .doNothing := by
      intro d
      rw [Target.course_of_reached (Target.distance_eq_zero_iff.1 hzero), Decision.get_uniform]
    have hunchanged := Decision.unchanged_of_apply happly hstay
    refine ⟨hunchanged, fun d => by rw [hflags, hstay], fun c hc => ?_⟩
    exact ((Outcome.becomes_iff_of_remains hunchanged.1).1 hc).trans helement
  case aside =>
    have hstay := Target.get_course_of_not_mem hd (e := e) (m := m)
    rw [(hmoves c hc).level_eq, (hmoves c hc).extent_eq, hstay]
    exact ⟨rfl, rfl⟩

/-! ### Cycles of an element by itself

Without neighbours nothing is balanced and nobody is waited for, so a cycle is a proposal that is
acted on.  What could still be missing is the mesh: the limits say nothing of the extent that an
element starts from, so its steps need not be within them. -/

/-- No neighbours are listed for an element by itself. -/
theorem Site.neighbors_isolated (e : Element D) : ({ element := e } : Site D).neighbors = ∅ := by
  refine Std.ExtTreeSet.ext_mem fun c => iff_of_false (fun h => ?_) Std.ExtTreeSet.not_mem_empty
  rcases Std.ExtTreeSet.mem_union_iff.1 h with h | h
  · obtain ⟨face, k, hk, -⟩ := Neighborhood.mem_elements.1 h
    rw [Neighborhood.empty, FaceTable.getElem_ofFn] at hk
    contradiction
  · exact Std.ExtTreeSet.not_mem_empty h

/-- Without neighbours an element acts on its proposal. -/
theorem Config.cycle_isolated (config : Config D) (e : Element D) (m : Mesh D) (feed : Feed D) :
    config.cycle { element := e } m feed
      = config.proposal e m >>= fun flags => (flags.apply e m).map .completed := by
  rw [config.cycle_eq]
  refine congrArg _ (funext fun flags => ?_)
  exact Config.rebalance_of_not_balancing fun h => h.2 (Site.neighbors_isolated e)

/-- A cycle of an element by itself completes if there is a proposal whose extents can be
attained. -/
theorem Config.exists_cycle_isolated {config : Config D} {e : Element D} {m : Mesh D}
    {flags : Decision D} (h : config.proposal e m = .ok flags) (hattainable : flags.Attainable m)
    (feed : Feed D) :
    ∃ o, config.cycle { element := e } m feed = .ok (.completed o) ∧ flags.apply e m = .ok o := by
  obtain ⟨given, -, henforce⟩ := proposal_eq_ok h
  obtain ⟨o, ho⟩ := Decision.exists_apply henforce hattainable
  refine ⟨o, ?_, ho⟩
  rw [config.cycle_isolated, h]
  show (flags.apply e m).map Status.completed = _
  rw [ho]
  rfl

namespace Config.Drives

variable {config : Config D} {t : Target D} {e c : Element D} {m k : Mesh D} {n : Nat}

/-- Every extent on the way to the target can be attained, since it lies between the one that the
element starts from and the one that it is driven to. -/
theorem attainable_course (h : config.Drives t) (e : Element D) (hm : m.BuiltBy config.rules) :
    (t.course e m).Attainable m := by
  intro d
  by_cases hd : d ∈ t.scope
  · obtain ⟨hle, hge⟩ := h.extents d hd
    have hunbounded := config.rules.basis.maximumExtent_le
    rcases Target.get_course_eq hd (e := e) (m := m) with heq | heq <;> rw [heq]
    · refine ⟨fun hstep => ?_, fun hstep => ?_⟩
      · have hlt := Target.lt_of_step_eq_increaseResolution hstep
        omega
      · have hlt := Target.lt_of_step_eq_decreaseResolution hstep
        rw [Mesh.minimumExtent, (hm d).2]
        omega
    · simp
  · rw [Target.get_course_of_not_mem hd]
    simp

/-- A cycle of an element by itself always completes, and its outcome comes nearer to the target. -/
theorem exists_outcome (h : config.Drives t) (hm : m.BuiltBy config.rules) (feed : Feed D) :
    ∃ o, config.cycle { element := e } m feed = .ok (.completed o) ∧ o.Nears t e m ∧
      o.mesh.BuiltBy config.rules := by
  obtain ⟨o, ho, happly⟩ :=
    Config.exists_cycle_isolated (h.proposal_eq hm) (h.attainable_course e hm) feed
  refine ⟨o, ho, Outcome.nears_of_apply happly, ?_⟩
  obtain ⟨-, hbasis, hquadrature⟩ := Decision.mesh_of_apply happly
  unfold Mesh.BuiltBy
  rw [hbasis, hquadrature]
  exact hm

end Config.Drives

/-! ### Cycle after cycle

A run is a relation and not a function, since the child with which it goes on is left open and so is
what the element hears.  That every run can be continued is therefore proved besides what all runs
keep. -/

/-- What can have become of an element and its mesh after some number of cycles of the element by
itself, whatever it is told that others published. -/
inductive Config.Leads (config : Config D) (e : Element D) (m : Mesh D) :
    Nat → Element D → Mesh D → Prop where
  | start : Leads config e m 0 e m
  | cycle {n : Nat} {c c' : Element D} {k : Mesh D} {feed : Feed D} {o : Outcome D}
      (h : Leads config e m n c k)
      (ho : config.cycle { element := c } k feed = .ok (.completed o)) (hc : o.Becomes c') :
      Leads config e m (n + 1) c' o.mesh

/-- There are runs of any length if something holds from which every cycle completes and holds
again. -/
theorem Config.exists_leads_of {config : Config D} {e : Element D} {m : Mesh D}
    {P : Element D → Mesh D → Prop} (hstart : P e m)
    (hcycle : ∀ c k, P c k → ∃ (feed : Feed D) (o : Outcome D) (c' : Element D),
      config.cycle { element := c } k feed = .ok (.completed o) ∧ o.Becomes c' ∧ P c' o.mesh)
    (n : Nat) : ∃ c k, config.Leads e m n c k ∧ P c k := by
  induction n with
  | zero => exact ⟨e, m, .start, hstart⟩
  | succ n ih =>
      obtain ⟨c, k, hrun, hP⟩ := ih
      obtain ⟨feed, o, c', ho, hc, hP'⟩ := hcycle c k hP
      exact ⟨c', o.mesh, .cycle hrun ho hc, hP'⟩

theorem Config.eq_of_cycle {config : Config D} {s : Site D} {m : Mesh D} {feed : Feed D}
    {o o' : Outcome D} (h : config.cycle s m feed = .ok (.completed o))
    (h' : config.cycle s m feed = .ok (.completed o')) : o = o' := by
  rw [h, Except.ok.injEq, Status.completed.injEq] at h'
  exact h'

namespace Config.Drives

variable {config : Config D} {t : Target D} {e c : Element D} {m k : Mesh D} {n : Nat}

/-- What a run keeps: meshes are built as the rules say, axes that do not count are left alone, and
with each cycle there is less to do until nothing is left. -/
theorem leads (h : config.Drives t) (hm : m.BuiltBy config.rules) (hrun : config.Leads e m n c k) :
    k.BuiltBy config.rules ∧
    (∀ d, d ∉ t.scope →
      (c.segment d).level = (e.segment d).level ∧ k.extents.get d = m.extents.get d) ∧
    t.distance c k ≤ t.distance e m - n := by
  induction hrun with
  | start => exact ⟨hm, fun d _ => ⟨rfl, rfl⟩, Nat.le_refl _⟩
  | @cycle n c c' k feed o hrun ho hc ih =>
      obtain ⟨hk, haside, hle⟩ := ih
      obtain ⟨o', ho', hnears, hbuilt⟩ := h.exists_outcome hk feed
      obtain rfl := Config.eq_of_cycle ho ho'
      refine ⟨hbuilt, fun d hd => ?_, ?_⟩
      · obtain ⟨hlevel, hextent⟩ := hnears.aside c' hc d hd
        rw [hlevel, hextent]
        exact haside d hd
      -- the bound is what is left of the first distance: at the target the cycle must not add to it
      · rcases Nat.eq_zero_or_pos (t.distance c k) with hzero | hpos
        · obtain ⟨⟨-, hmesh⟩, -, hsame⟩ := hnears.stays hzero
          rw [hsame c' hc, hmesh, hzero]
          exact Nat.zero_le _
        · have hlt := hnears.nearer hpos c' hc
          omega

/-- There are runs of any length. -/
theorem exists_leads (h : config.Drives t) (hm : m.BuiltBy config.rules) (n : Nat) :
    ∃ c k, config.Leads e m n c k := by
  obtain ⟨c, k, hrun, -⟩ := Config.exists_leads_of (P := fun _ k => k.BuiltBy config.rules) hm
    (fun c k hk => by
      obtain ⟨o, ho, hnears, hbuilt⟩ := h.exists_outcome hk fun _ => none
      obtain ⟨c', hc⟩ := hnears.goes_on
      exact ⟨_, o, c', ho, hc, hbuilt⟩) n
  exact ⟨c, k, hrun⟩

/-- An element by itself that is driven to a target arrives and stays.  From wherever a run has led,
the next cycle completes; it comes nearer to the target until nothing is left to do, and then it
changes nothing.  Axes that do not count are left alone all along, and the element has arrived after
as many cycles as it was off in the beginning. -/
theorem arrives (h : config.Drives t) (hm : m.BuiltBy config.rules)
    (hrun : config.Leads e m n c k) :
    (∀ feed, ∃ o, config.cycle { element := c } k feed = .ok (.completed o) ∧ o.Nears t c k) ∧
    (∀ d, d ∉ t.scope →
      (c.segment d).level = (e.segment d).level ∧ k.extents.get d = m.extents.get d) ∧
    (t.distance e m ≤ n → t.distance c k = 0) := by
  obtain ⟨hk, haside, hle⟩ := h.leads hm hrun
  refine ⟨fun feed => ?_, haside, fun hn => by omega⟩
  obtain ⟨o, ho, hnears, -⟩ := h.exists_outcome hk feed
  exact ⟨o, ho, hnears⟩

end Config.Drives

section Outside

open Forest

/-- Levels `1` and `2`, extents `5` and `2`. -/
def innerTarget : Target 2 where
  extents := #v[5, 2]
  levels := #v[1, 2]
  extents_pos := by decide
  levels_le := by decide
  flags_ne := by decide

/-- A strict run towards that target, with limits that leave little room around it. -/
def innerDrive : Config 2 where
  criteria := [.driveToTarget innerTarget]
  policies := {
    limits := {
      minLevel := #v[0, 1]
      maxLevel := #v[2, 3]
      minExtent := #v[4, 2]
      maxExtent := #v[20, 2]
      minLevel_le := by decide
      maxLevel_le := by decide
      minExtent_le := by decide
      minExtent_pos := by decide }
    strict := true }
  rules := ⟨.full, .legendre, .gaussLobatto⟩
  supported := by decide
  fits := by decide +kernel
  agree := by decide +kernel

theorem drives_innerDrive : innerDrive.Drives innerTarget where
  criteria_eq := rfl
  flags_eq := rfl
  isotropy_eq := rfl
  mode_eq := rfl
  levels := by decide +kernel
  extents := by decide +kernel

/-- An element that is outside these limits along both axes, with level and extent alike, is off by
`7` and arrives in as many cycles. -/
theorem arrives_innerDrive :
    innerTarget.distance (square (3, 5) (0, 0)) squareMesh = 7 ∧
    ∃ c k, innerDrive.Leads (square (3, 5) (0, 0)) squareMesh 7 c k ∧
      innerTarget.distance c k = 0 := by
  have hoff : innerTarget.distance (square (3, 5) (0, 0)) squareMesh = 7 := by decide +kernel
  have hbuilt : squareMesh.BuiltBy innerDrive.rules := by decide +kernel
  obtain ⟨c, k, hrun⟩ := drives_innerDrive.exists_leads hbuilt 7
  exact ⟨hoff, c, k, hrun, (Config.Drives.arrives drives_innerDrive hbuilt hrun).2.2 hoff.le⟩

end Outside

end AdaptiveMesh
