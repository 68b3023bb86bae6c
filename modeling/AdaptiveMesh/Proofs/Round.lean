/-
A round, from what was decided to what was done.

Every step of a round is about outcomes: an element that remains or splits about its
own, a join about those of all elements that want the same parent.  So the outcome of
an element tells which step the element is a subject of, and as an element has one
outcome it is a subject of one step.  That makes the steps of a settled round feasible,
and a round fails, if at all, before it has changed anything.
-/
import AdaptiveMesh.Proofs.CarryOut

namespace AdaptiveMesh

namespace Forest

variable {D : Nat}

/-! ### The steps of a round -/

/-- How a step comes from the outcomes of a round. -/
inductive Planned (outcomes : List (Outcome D)) : Step D → Prop where
  | remain {o : Outcome D} (ho : o ∈ outcomes) (h : o.replacement = none) :
      Planned outcomes (.remain o)
  | split {o : Outcome D} {children : List (Element D)} (ho : o ∈ outcomes)
      (h : o.replacement = some (.split children)) :
      Planned outcomes (.split o.element children o.mesh)
  | join {p : Element D} {first : Outcome D} {others : List (Outcome D)}
      (h : joining outcomes p = first :: others) : Planned outcomes (.join p first others)

variable {f : Forest D} {config : Config D} {final : Decisions D} {outcomes : List (Outcome D)}
  {o : Outcome D} {e p : Element D} {step a b : Step D}

theorem mem_joining : o ∈ joining outcomes p ↔ o ∈ outcomes ∧ o.replacement = some (.join p) := by
  unfold joining
  rw [List.mem_filter, decide_eq_true_eq]

theorem mem_parents : p ∈ parents outcomes ↔ ∃ o ∈ outcomes, o.replacement = some (.join p) := by
  unfold parents
  rw [ElementSet.mem_ofList, List.mem_filterMap]
  refine exists_congr fun o => and_congr_right fun _ => ?_
  split
  · next q hq => rw [hq]; simp
  · next hq => exact iff_of_false (by simp) fun h => hq p h

theorem mem_steps : step ∈ steps outcomes ↔ Planned outcomes step := by
  unfold steps
  rw [List.mem_append, List.mem_append, List.mem_filterMap, List.mem_filterMap,
    List.mem_filterMap]
  constructor
  · rintro ((⟨o, ho, h⟩ | ⟨o, ho, h⟩) | ⟨p, -, h⟩)
    · split at h
      · next hnone => exact Option.some.inj h ▸ .remain ho hnone
      · contradiction
    · split at h
      · next hsplit => exact Option.some.inj h ▸ .split ho hsplit
      · contradiction
    · split at h
      · contradiction
      · next hjoin => exact Option.some.inj h ▸ .join hjoin
  · intro h
    cases h with
    | remain ho h => exact Or.inl (Or.inl ⟨_, ho, if_pos h⟩)
    | split ho h => exact Or.inl (Or.inr ⟨_, ho, by rw [h]⟩)
    | join h =>
        obtain ⟨ho, hp⟩ := mem_joining.1 (h ▸ List.mem_cons_self)
        exact Or.inr ⟨_, Std.ExtTreeSet.mem_toList.2 (mem_parents.2 ⟨_, ho, hp⟩), by rw [h]⟩

/-- The step that an outcome belongs to. -/
def stepOf (outcomes : List (Outcome D)) (o : Outcome D) : Step D :=
  match o.replacement with
  | none => .remain o
  | some (.split children) => .split o.element children o.mesh
  | some (.join p) =>
    match joining outcomes p with
    | [] => .remain o
    | first :: others => .join p first others

/-- A subject of a step has an outcome that belongs to the step. -/
theorem Planned.exists_outcome (h : Planned outcomes step) (he : e ∈ step.subjects) :
    ∃ o ∈ outcomes, o.element = e ∧ step = stepOf outcomes o := by
  cases h with
  | @remain o ho h =>
      refine ⟨o, ho, (List.mem_singleton.1 he).symm, ?_⟩
      unfold stepOf
      rw [h]
  | @split o children ho h =>
      refine ⟨o, ho, (List.mem_singleton.1 he).symm, ?_⟩
      unfold stepOf
      rw [h]
  | @join p first others h =>
      obtain ⟨o, ho, rfl⟩ := List.mem_map.1 he
      rw [← h] at ho
      obtain ⟨ho, hp⟩ := mem_joining.1 ho
      refine ⟨o, ho, rfl, ?_⟩
      unfold stepOf
      rw [hp]
      dsimp only
      rw [h]

namespace Settled

/-- Two steps with a common subject are one step. -/
theorem eq_of_mem_subjects (h : Settled f config final outcomes) (ha : Planned outcomes a)
    (hb : Planned outcomes b) (hea : e ∈ a.subjects) (heb : e ∈ b.subjects) : a = b := by
  obtain ⟨o, ho, hoe, rfl⟩ := ha.exists_outcome hea
  obtain ⟨o', ho', hoe', rfl⟩ := hb.exists_outcome heb
  rw [h.eq_of_element ho ho' (hoe.trans hoe'.symm)]

theorem pairwise_steps (h : Settled f config final outcomes) :
    (steps outcomes).Pairwise fun a b => a ≠ b := by
  have hsubjects : ∀ {o o' : Outcome D} {a b : Step D}, o.element ≠ o'.element →
      a.subjects = [o.element] → b.subjects = [o'.element] → a ≠ b := by
    rintro o o' a b hne ha hb rfl
    rw [ha] at hb
    exact hne (List.singleton_inj.1 hb)
  unfold steps
  refine List.pairwise_append.2 ⟨List.pairwise_append.2 ⟨?_, ?_, ?_⟩, ?_, ?_⟩
  · refine List.pairwise_filterMap.2 (h.distinct.imp fun {o o'} hne a ha b hb => ?_)
    split at ha <;> split at hb <;> simp only [Option.some.injEq, reduceCtorEq] at ha hb
    exact hsubjects hne (ha ▸ rfl) (hb ▸ rfl)
  · refine List.pairwise_filterMap.2 (h.distinct.imp fun {o o'} hne a ha b hb => ?_)
    split at ha <;> split at hb <;> simp only [Option.some.injEq, reduceCtorEq] at ha hb
    exact hsubjects hne (ha ▸ rfl) (hb ▸ rfl)
  · intro a ha b hb
    obtain ⟨o, -, ha⟩ := List.mem_filterMap.1 ha
    obtain ⟨o', -, hb⟩ := List.mem_filterMap.1 hb
    split at ha <;> split at hb <;> simp only [Option.some.injEq, reduceCtorEq] at ha hb
    rw [← ha, ← hb]
    exact fun heq => by contradiction
  · refine List.pairwise_filterMap.2
      (Std.ExtTreeSet.ordered_toList.imp fun {p q} hpq a ha b hb => ?_)
    split at ha <;> split at hb <;> simp only [Option.some.injEq, reduceCtorEq] at ha hb
    rw [← ha, ← hb]
    intro heq
    obtain rfl : p = q := by injection heq
    rw [Std.ReflOrd.compare_self] at hpq
    contradiction
  · intro a ha b hb
    obtain ⟨p, -, hb⟩ := List.mem_filterMap.1 hb
    split at hb <;> simp only [Option.some.injEq, reduceCtorEq] at hb
    rw [← hb]
    rintro rfl
    rcases List.mem_append.1 ha with ha | ha
    · obtain ⟨o, -, ha⟩ := List.mem_filterMap.1 ha
      split at ha <;> simp at ha
    · obtain ⟨o, -, ha⟩ := List.mem_filterMap.1 ha
      split at ha <;> simp at ha

theorem valid_of_planned (h : Settled f config final outcomes) (hp : Planned outcomes step) :
    step.Valid := by
  cases hp with
  | remain ho _ => exact trivial
  | split ho hr =>
      have hrep := h.replacement ho
      rw [hr] at hrep
      exact ⟨_, Decision.replacement_eq_split hrep⟩
  | @join p first others hj =>
      constructor
      · intro o ho
        rw [← hj] at ho
        obtain ⟨ho, hr⟩ := mem_joining.1 ho
        have hrep := h.replacement ho
        rw [hr] at hrep
        exact (Decision.replacement_eq_join hrep).2
      · rw [← hj]
        exact List.Pairwise.sublist List.filter_sublist h.distinct

/-- The steps of a settled round can be carried out. -/
theorem feasible (h : Settled f config final outcomes) : Feasible f (steps outcomes) where
  valid step hs := h.valid_of_planned (mem_steps.1 hs)
  subjects_mem step hs e he := by
    obtain ⟨o, ho, rfl, -⟩ := (mem_steps.1 hs).exists_outcome he
    exact h.mem ho
  disjoint := by
    refine h.pairwise_steps.imp_of_mem fun {a b} ha hb hne e hea heb => ?_
    exact hne (h.eq_of_mem_subjects (mem_steps.1 ha) (mem_steps.1 hb) hea heb)

end Settled

/-! ### The round -/

theorem refineInOrder_of_error {order : List (Element D)} {fault : Fault D}
    (h : f.settlement config order = .error fault) :
    f.refineInOrder config order = (.error fault, f) := by
  unfold refineInOrder
  rw [h]

theorem refineInOrder_of_ok {order : List (Element D)} {s : Settlement D}
    (h : f.settlement config order = .ok s) :
    f.refineInOrder config order
      = f.carryOut { passes := s.passes, deferred := s.deferred } (steps s.outcomes) := by
  unfold refineInOrder
  rw [h]

/-- A round that settles is carried out. -/
theorem Sound.carryOut_of_settlement (hf : f.Sound) {order : List (Element D)} {s : Settlement D}
    (h : f.settlement config order = .ok s) (start : Summary) :
    (∃ summary, (f.carryOut start (steps s.outcomes)).1 = .ok summary) ∧
      CarriedOut f (steps s.outcomes) (f.carryOut start (steps s.outcomes)).2 := by
  obtain ⟨final, hset, -⟩ := settled_of_settlement h
  exact hset.feasible.carryOut hf

/-- Behind a round that succeeds are decisions that settled, with an outcome for every element, and
their steps are carried out. -/
theorem Sound.exists_settled (hf : f.Sound) {order : List (Element D)}
    (horder : order.Perm f.elements) {summary : Summary}
    (hok : (f.refineInOrder config order).1 = .ok summary) :
    ∃ s final, f.settlement config order = .ok s ∧ Settled f config final s.outcomes ∧
      (∀ e ∈ f, ∃ o ∈ s.outcomes, o.element = e) ∧
      CarriedOut f (steps s.outcomes) (f.refineInOrder config order).2 := by
  cases h : f.settlement config order with
  | error fault =>
      rw [refineInOrder_of_error h] at hok
      contradiction
  | ok s =>
      obtain ⟨final, hsettled, hall⟩ := settled_of_settlement h
      obtain ⟨-, hg⟩ := hf.carryOut_of_settlement h { passes := s.passes, deferred := s.deferred }
      rw [refineInOrder_of_ok h]
      exact ⟨s, final, rfl, hsettled,
        hall hf fun e he => horder.mem_iff.2 (mem_elements.2 he), hg⟩

theorem Sound.refineInOrder (hf : f.Sound) (config : Config D) (order : List (Element D)) :
    (f.refineInOrder config order).2.Sound := by
  cases h : f.settlement config order with
  | error fault =>
      rw [refineInOrder_of_error h]
      exact hf
  | ok s =>
      rw [refineInOrder_of_ok h]
      exact (hf.carryOut_of_settlement h _).2.sound

/-- A step of a run that succeeds is performed without a fault in the forest before it. -/
theorem exists_perform_of_carryOut {s summary : Summary} {before after : List (Step D)}
    (h : (f.carryOut s (before ++ step :: after)).1 = .ok summary) :
    ∃ g counted next,
      f.carryOut s before = (.ok counted, g) ∧ g.perform counted step = .ok next := by
  induction before generalizing f s with
  | nil =>
      unfold carryOut at h
      cases hp : f.perform s step with
      | error fault =>
          simp only [List.nil_append, hp] at h
          contradiction
      | ok next => exact ⟨f, s, next, rfl, hp⟩
  | cons a before ih =>
      unfold carryOut at h ⊢
      cases hp : f.perform s a with
      | error fault =>
          simp only [List.cons_append, hp] at h
          contradiction
      | ok next =>
          simp only [List.cons_append, hp] at h
          exact ih h

end Forest

end AdaptiveMesh
