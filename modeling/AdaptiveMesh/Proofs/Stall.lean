/-
Where a run that steers stalls.

A round leaves a forest as it is exactly if it is idle: no mesh changes, no element splits
and no family is complete.  In a run that steers every element that is too coarse splits,
and every extent that is wrong at the right level changes, so an idle round has only joins
left to do.

There are two ways for a round to be idle then.  Either every element is at the target, or
every join is given up because some sibling is missing.  The second one takes two axes at
least.  Along a single axis an element that no other is finer than has its siblings at
hand, and they settle on joining.
-/
import AdaptiveMesh.Proofs.AtOnce
import AdaptiveMesh.Proofs.Siblings

namespace AdaptiveMesh

namespace Forest

variable {D : Nat} {f g : Forest D} {config : Config D} {t : Target D} {e p : Element D}
  {l : List (Element D)} {final : Decisions D} {outcomes : List (Outcome D)}
  {order : List (Element D)} {s : Settlement D}

/-! ### Idle rounds

Nothing is said about steering yet.  In any run a round leaves the forest as it is only if it has
nothing to carry out.  Steps that undo each other would be another way, but no two steps of a round
say something about one element, so whatever a step changes stays changed. -/

/-- With these outcomes a round has nothing to carry out. -/
structure Idle (f : Forest D) (outcomes : List (Outcome D)) : Prop where
  /-- No mesh changes. -/
  mesh?_eq : ∀ o ∈ outcomes, f.mesh? o.element = some o.mesh
  /-- No element splits. -/
  not_split : ∀ o ∈ outcomes, ¬ o.flags.Has .split
  /-- No family joins. -/
  incomplete : ∀ p, ¬ Complete outcomes p

namespace Settled

/-- An element that is left as it was neither split nor joined its siblings. -/
theorem idle (h : Settled f config final outcomes) (hg : CarriedOut f (steps outcomes) f) :
    f.Idle outcomes := by
  have hthere : ∀ step, Planned outcomes step → ∀ o ∈ outcomes,
      ¬ step.Leaves o.element none := by
    intro step hp o ho hl
    obtain ⟨m, hm⟩ := mem_iff_mesh?.1 (h.mem ho)
    rw [hg.mesh?_of_leaves step (mem_steps.2 hp) _ _ hl] at hm
    contradiction
  have hsplit : ∀ o ∈ outcomes, ¬ o.flags.Has .split := by
    intro o ho hs
    obtain ⟨children, hl⟩ := Element.exists_children (h.canSplit ho)
    have hr := (h.replacement_eq_iff ho).2 (Decision.replacement_eq_split_iff.2 ⟨hs, hl⟩)
    exact hthere _ (.split ho hr) o ho .split
  have hincomplete : ∀ p, ¬ Complete outcomes p := by
    intro p hc
    obtain ⟨first, others, hj⟩ := h.exists_joining_of_complete hc
    have hfirst := (h.mem_joining_iff.1 (hj ▸ List.mem_cons_self)).1
    exact hthere _ (.join hj) first hfirst
      (.sibling ((h.complete_iff hj).1 hc) List.mem_cons_self)
  refine ⟨fun o ho => ?_, hsplit, hincomplete⟩
  cases hr : o.replacement with
  | none => exact hg.mesh?_of_leaves _ (mem_steps.2 (.remain ho hr)) _ _ .remain
  | some replacement =>
      cases replacement with
      | split children =>
          exact absurd (Decision.replacement_eq_split ((h.replacement_eq_iff ho).1 hr)).1
            (hsplit o ho)
      | join p =>
          obtain ⟨first, others, hj, hm⟩ := exists_joining ho hr
          refine hg.mesh?_of_leaves _ (mem_steps.2 (.join hj)) _ _ (.givenUp ?_ hm)
          exact fun hagreed => hincomplete p ((h.complete_iff hj).2 hagreed)

/-- A round changes nothing exactly if it is idle. -/
theorem eq_iff_idle (h : Settled f config final outcomes) (hf : f.Sound)
    (hg : CarriedOut f (steps outcomes) g) : g = f ↔ f.Idle outcomes := by
  refine ⟨fun heq => h.idle (heq ▸ hg), fun hidle => hg.unique ?_⟩
  refine ⟨hf, rfl, fun step hs c v hl => ?_, fun c _ => rfl⟩
  cases mem_steps.1 hs with
  | remain ho hr =>
      cases hl
      exact hidle.mesh?_eq _ ho
  | split ho hr =>
      exact absurd (Decision.replacement_eq_split ((h.replacement_eq_iff ho).1 hr)).1
        (hidle.not_split _ ho)
  | join hj =>
      have hnot := fun hagreed => hidle.incomplete _ ((h.complete_iff hj).2 hagreed)
      cases hl with
      | sibling hagreed => exact absurd hagreed hnot
      | parent hagreed => exact absurd hagreed hnot
      | givenUp _ hm =>
          rw [← hj, h.mem_joining_iff] at hm
          exact hidle.mesh?_eq _ hm.1

end Settled

/-! ### What an idle round has left to do

In an idle round nothing splits, so no element is too coarse, and no mesh changes, so extents are
right where levels are.  What is left are joins, and away from the target there are some.  An
element than which none is finer would carry its join out if all its siblings were there, so it
lacks one. -/

/-- Every element has the levels and the extents of the target. -/
def AtTarget (f : Forest D) (t : Target D) : Prop :=
  ∀ (e : Element D) (r : Record D), f.records[e]? = some r →
    ∀ d, (e.segment d).level = t.levels.get d ∧ r.mesh.extents.get d = t.extents.get d

instance (f : Forest D) (t : Target D) : Decidable (f.AtTarget t) :=
  decidable_of_iff (∀ q ∈ f.records.toList, ∀ d, (q.1.segment d).level = t.levels.get d ∧
    q.2.mesh.extents.get d = t.extents.get d) (by
    unfold AtTarget
    simp only [Prod.forall, Std.ExtTreeMap.mem_toList_iff_getElem?_eq_some])

theorem AtTarget.level_eq (h : f.AtTarget t) (he : e ∈ f) (d : Fin D) :
    (e.segment d).level = t.levels.get d := by
  obtain ⟨r, hr⟩ := mem_iff_exists_record.1 he
  exact (h e r hr d).1

theorem AtTarget.onlyJoins (h : f.AtTarget t) : f.OnlyJoins t where
  level_le _ he d := (h.level_eq he d).ge
  extents_eq e r hr d _ := (h e r hr d).2

/-- On the way to the target, what is not at it joins. -/
theorem OnlyJoins.exists_lt (h : f.OnlyJoins t) (hnot : ¬ f.AtTarget t) :
    ∃ e ∈ f, ∃ d, t.levels.get d < (e.segment d).level := by
  by_contra hno
  push Not at hno
  refine hnot fun e r hr d => ?_
  have he := mem_of_record hr
  have heq := Nat.le_antisymm (hno e he d) (h.level_le e he d)
  exact ⟨heq, h.extents_eq e r hr d heq⟩

/-- The run stalls away from the target: only joins are left to do, and each of them is given up. -/
structure Stalled (f : Forest D) (t : Target D) (outcomes : List (Outcome D)) : Prop where
  /-- There is more than one axis. -/
  two_le : 2 ≤ D
  /-- No element is coarser than the target, and extents are right where levels are. -/
  onlyJoins : f.OnlyJoins t
  /-- Deepest elements lack a sibling that they would join with. -/
  lacking : ∀ e, f.Deepest e → (∃ d, t.levels.get d < (e.segment d).level) →
    ∃ l, e.siblings (t.approach e) = .ok l ∧ ∃ c ∈ l, c ∉ f
  /-- Nothing was raised to a split. -/
  not_split : ∀ o ∈ outcomes, ¬ o.flags.Has .split
  /-- No family joins. -/
  incomplete : ∀ p, ¬ Complete outcomes p

/-- What the target asks for along the axes that are too fine can be had. -/
theorem exists_siblings_approach (t : Target D) (e : Element D) :
    ∃ p l, e.parent (t.approach e) = .ok p ∧ e.siblings (t.approach e) = .ok l := by
  obtain ⟨p, hp⟩ := Element.exists_parent fun d hd =>
    Nat.zero_lt_of_lt (Target.get_approach_eq_join_iff.1 hd)
  obtain ⟨l, hl, -⟩ := Element.siblings_of_parent hp
  exact ⟨p, l, hp, hl⟩

section Steers

variable (hf : f.Sound) (hfree : f.layout.Unconnected) (hsteers : config.Steers t)
  (hbuilt : f.BuiltBy config.rules) (horder : ∀ e ∈ f, e ∈ order)
  (hs : f.settlement config order = .ok s) (h : Settled f config final s.outcomes)
  (hcover : ∀ e ∈ f, ∃ o ∈ s.outcomes, o.element = e)

include hsteers hbuilt horder hs h

/-- With only joins left to do, no mesh changes unless an element splits. -/
theorem OnlyJoins.idle (hjoins : f.OnlyJoins t)
    (hsplit : ∀ o ∈ s.outcomes, ¬ o.flags.Has .split)
    (hincomplete : ∀ p, ¬ Complete s.outcomes p) : f.Idle s.outcomes := by
  refine ⟨fun o ho => ?_, hsplit, hincomplete⟩
  obtain ⟨r, hr⟩ := mem_iff_exists_record.1 (h.mem ho)
  have hraised := aim_raisedTo hsteers hbuilt horder hs ho hr
  rw [Target.aim_eq_approach (hjoins.level_le _ (mem_of_record hr))
    (hjoins.extents_eq _ r hr)] at hraised
  rw [h.mesh?_eq_iff ho]
  intro d hd
  rcases hraised d with heq | ⟨-, heq⟩ | ⟨-, heq⟩
  · rw [heq, Target.approach, get_ofFn] at hd
    split at hd <;> rcases hd with hd | hd <;> contradiction
  · rw [heq] at hd
    rcases hd with hd | hd <;> contradiction
  · exact hsplit o ho ⟨d, heq⟩

include hf hfree in
/-- At the target a round is idle. -/
theorem AtTarget.idle (htarget : f.AtTarget t) : f.Idle s.outcomes := by
  have hno : ∀ e ∈ f, ¬ (t.approach e).Has .join := by
    rintro e he ⟨d, hd⟩
    exact absurd (Target.get_approach_eq_join_iff.1 hd) (Nat.not_lt.2 (htarget.level_eq he d).le)
  -- an element that does not join has no siblings but itself, so they are all there
  have hflags : ∀ o ∈ s.outcomes, o.flags = t.approach o.element := by
    intro o ho
    have ho' := h.mem ho
    have hdeepest : f.Deepest o.element := ⟨ho', fun c hc d =>
      (htarget.level_eq hc d).trans_le (htarget.level_eq ho' d).ge⟩
    obtain ⟨-, l, -, hl⟩ := exists_siblings_approach t o.element
    exact eq_approach_of_deepest hf hfree hsteers hdeepest hl
      (fun c hc => Element.eq_of_mem_siblings hl (hno _ ho') hc ▸ ho') htarget.onlyJoins hbuilt
      horder hs ho (Element.mem_siblings_self hl)
  refine htarget.onlyJoins.idle hsteers hbuilt horder hs h (fun o ho => ?_) ?_
  · rw [hflags o ho]
    exact Target.not_has_split_approach
  · rintro p ⟨o, ho, ⟨-, hj, -⟩, -⟩
    rw [hflags o ho] at hj
    exact hno _ (h.mem ho) hj

include hcover

/-- In an idle round nothing but joins is left to do. -/
theorem Idle.onlyJoins (hidle : f.Idle s.outcomes) : f.OnlyJoins t := by
  have hlevel : ∀ e ∈ f, ∀ d, t.levels.get d ≤ (e.segment d).level := by
    intro e he d
    obtain ⟨o, ho, rfl⟩ := hcover e he
    obtain ⟨r, hr⟩ := mem_iff_exists_record.1 he
    refine Nat.le_of_not_lt fun hlt => hidle.not_split o ho ⟨d, ?_⟩
    exact (aim_raisedTo hsteers hbuilt horder hs ho hr).get_eq_split
      (Target.get_aim_eq_split_iff.2 hlt)
  refine ⟨hlevel, fun e r hr d heq => ?_⟩
  obtain ⟨o, ho, rfl⟩ := hcover e (mem_of_record hr)
  have hle := hlevel _ (mem_of_record hr)
  -- at the right level the target asks for no join, so nothing was raised but to a split
  have hflag : o.flags.get d = (t.aim o.element r.mesh).get d :=
    (aim_raisedTo hsteers hbuilt horder hs ho hr).get_eq
      (fun hd => hidle.not_split o ho ⟨d, hd⟩)
      fun hd => absurd ((Target.get_aim_eq_join_iff hle).1 hd) (Nat.not_lt.2 heq.le)
  have hkept := (h.mesh?_eq_iff ho).1 (hidle.mesh?_eq o ho) d
  rw [hflag] at hkept
  exact Target.extent_eq_of_get_aim hle heq hkept

include hf hfree

/-- If the siblings of a deepest element are all there, they join. -/
theorem Deepest.complete (he : f.Deepest e) (hjoins : f.OnlyJoins t)
    (hfiner : ∃ d, t.levels.get d < (e.segment d).level) (hp : e.parent (t.approach e) = .ok p)
    (hl : e.siblings (t.approach e) = .ok l) (hall : ∀ c ∈ l, c ∈ f) :
    Complete s.outcomes p := by
  have hflags : ∀ o ∈ s.outcomes, o.element ∈ l → o.flags = t.approach e := fun o ho hmem =>
    eq_approach_of_deepest hf hfree hsteers he hl hall hjoins hbuilt horder hs ho hmem
  have hinto : ∀ o ∈ s.outcomes, o.element ∈ l → o.JoinsInto p := by
    intro o ho hmem
    unfold Outcome.JoinsInto
    rw [hflags o ho hmem]
    exact ⟨Target.not_has_split_approach,
      hfiner.imp fun d hd => Target.get_approach_eq_join_iff.2 hd,
      Element.parent_of_mem_siblings hp hl hmem⟩
  obtain ⟨p', hp', hchildren⟩ := Element.siblings_eq_ok hl
  obtain rfl : p = p' := by rwa [hp, Except.ok.injEq] at hp'
  obtain ⟨o, ho, rfl⟩ := hcover e he.1
  have hel := Element.mem_siblings_self hl
  refine ⟨o, ho, hinto o ho hel, l, ?_, fun c => ⟨fun hc => ?_, ?_⟩⟩
  · rw [hflags o ho hel]
    exact hl
  · obtain ⟨o', ho', rfl⟩ := hcover c (hall c hc)
    exact ⟨o', ho', hinto o' ho' hc, rfl⟩
  · rintro ⟨o', ho', hjoin, rfl⟩
    obtain ⟨x, hx⟩ := o'.element.exists_covers
    exact hf.mem_children_of_covers hchildren hall (h.mem ho') hx
      (Element.covers_of_parent hjoin.2.2 hx)

/-- A run that steers is idle at the target, or it has stalled. -/
theorem idle_iff : f.Idle s.outcomes ↔ f.AtTarget t ∨ f.Stalled t s.outcomes := by
  constructor
  · intro hidle
    have hjoins := hidle.onlyJoins hsteers hbuilt horder hs h hcover
    refine or_iff_not_imp_left.2 fun hnot => ?_
    have hlacking : ∀ e, f.Deepest e → (∃ d, t.levels.get d < (e.segment d).level) →
        ∃ l, e.siblings (t.approach e) = .ok l ∧ ∃ c ∈ l, c ∉ f := by
      intro e he hfiner
      obtain ⟨p, l, hp, hl⟩ := exists_siblings_approach t e
      refine ⟨l, hl, ?_⟩
      by_contra hno
      push Not at hno
      exact hidle.incomplete p
        (he.complete hf hfree hsteers hbuilt horder hs h hcover hjoins hfiner hp hl hno)
    refine ⟨?_, hjoins, hlacking, hidle.not_split, hidle.incomplete⟩
    -- along a single axis a deepest element would have its siblings
    obtain ⟨e, he, d, hfiner⟩ := hjoins.exists_lt hnot
    by_contra hone
    have hsub : Subsingleton (Fin D) := Fin.subsingleton_iff_le_one.2 (by omega)
    obtain ⟨c, hc⟩ := exists_deepest he
    obtain ⟨l, hl, c', hc', hmissing⟩ :=
      hlacking c hc ⟨d, Nat.lt_of_lt_of_le hfiner (hc.2 e he d)⟩
    exact hmissing (hf.mem_of_mem_siblings hc hl hc')
  · rintro (htarget | hstalled)
    · exact htarget.idle hf hfree hsteers hbuilt horder hs h
    · exact hstalled.onlyJoins.idle hsteers hbuilt horder hs h hstalled.not_split
        hstalled.incomplete

end Steers

/-! ### Rounds over forests that were reached -/

/-- A round of a run that steers leaves the forest as it is exactly if every element is at the
target or the run has stalled. -/
theorem Reachable.refineInOrder_eq_self_iff (hf : Reachable f) (hfree : f.layout.Unconnected)
    (hbuilt : f.BuiltBy config.rules) (hsteers : config.Steers t)
    (horder : order.Perm f.elements) {summary : Summary}
    (hok : (f.refineInOrder config order).1 = .ok summary) :
    ∃ s, f.settlement config order = .ok s ∧
      ((f.refineInOrder config order).2 = f ↔ f.AtTarget t ∨ f.Stalled t s.outcomes) := by
  obtain ⟨s, final, hs, hsettled, hcover, hg⟩ := hf.sound.exists_settled horder hok
  refine ⟨s, hs, ?_⟩
  rw [hsettled.eq_iff_idle hf.sound hg, idle_iff hf.sound hfree hsteers hbuilt
    (fun e he => horder.mem_iff.2 (mem_elements.2 he)) hs hsettled hcover]

section Uneven

/-- The target of a run towards a single element. -/
def whole : Target 2 :=
  (Target.ofValues squareMesh.extents (Vector.replicate 2 0) (.uniform .doNothing)
    .all).toOption.get (by decide +kernel)

theorem steers_coarsest : coarsest.Steers whole where
  criteria_eq := by decide +kernel
  flags_eq := by decide +kernel
  scope_eq := by decide +kernel
  policies_eq := by decide +kernel
  mode_eq := by decide +kernel
  minimum_le := by decide +kernel
  le_maximum := by decide +kernel

/-- A single block that is one element. -/
def wholeForest : Forest 2 :=
  (ofLayout (Layout.ofExtents [squareMesh.extents]) .legendre .gaussLobatto).toOption.get
    (by decide +kernel)

/-- The block cut along the first axis, and its upper half along the second one. -/
def unevenForest : Forest 2 :=
  (wholeForest.cut (square (0, 0) (0, 0)) 0).cut (square (1, 1) (0, 0)) 1

theorem reachable_unevenForest : Reachable unevenForest := by
  have hstart : ofLayout (Layout.ofExtents [squareMesh.extents]) .legendre .gaussLobatto
      = .ok wholeForest := by decide +kernel
  exact .cut (.cut (.start (.ofExtents _) hstart) _ _) _ _

theorem unconnected_unevenForest : unevenForest.layout.Unconnected := by
  have hlayout : unevenForest.layout = Layout.ofExtents [squareMesh.extents] := by decide +kernel
  rw [hlayout]
  exact Layout.unconnected_ofExtents _

theorem builtBy_unevenForest : unevenForest.BuiltBy coarsest.rules := by decide +kernel

theorem refineInOrder_unevenForest :
    unevenForest.refineInOrder coarsest unevenForest.elements
      = (.ok { passes := 1, abandonedJoins := 1 }, unevenForest) := by
  decide +kernel

/-- The half and the two quarters all want to join into the block, but the half lacks the other half
and the quarters lack two more quarters. -/
theorem refineInOrder_eq_self_iff_unevenForest :
    ∃ s, unevenForest.settlement coarsest unevenForest.elements = .ok s ∧
      unevenForest.Stalled whole s.outcomes := by
  obtain ⟨s, hs, hiff⟩ := Reachable.refineInOrder_eq_self_iff reachable_unevenForest
    unconnected_unevenForest builtBy_unevenForest steers_coarsest (.refl _)
    (congrArg Prod.fst refineInOrder_unevenForest)
  refine ⟨s, hs, (hiff.1 (congrArg Prod.snd refineInOrder_unevenForest)).resolve_left ?_⟩
  decide +kernel

/-- A run can stall before it is at its target. -/
theorem not_atTarget_of_refine_unevenForest :
    Reachable unevenForest ∧ unevenForest.layout = Layout.ofExtents [squareMesh.extents] ∧
      unevenForest.BuiltBy coarsest.rules ∧ coarsest.Steers whole ∧
      (∃ summary, (unevenForest.refine coarsest).1 = .ok summary) ∧
      (unevenForest.refine coarsest).2 = unevenForest ∧ ¬ unevenForest.AtTarget whole :=
  ⟨reachable_unevenForest, by decide +kernel, builtBy_unevenForest, steers_coarsest,
    ⟨_, congrArg Prod.fst refineInOrder_unevenForest⟩,
    congrArg Prod.snd refineInOrder_unevenForest, by decide +kernel⟩

end Uneven

end Forest

end AdaptiveMesh
