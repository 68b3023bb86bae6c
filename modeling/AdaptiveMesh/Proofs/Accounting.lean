/-
What a round counts.

A round counts the elements that it splits, the parents that it joins and the elements that it
leaves in place with another mesh.  The first two tell how the forests before and after differ: an
element was split exactly if its children are in its place, and a parent was joined exactly if it
is in the place of several elements.  The third does not quite.  An element that gives up joining
stays, with what its decision makes of its mesh, and a mesh that changes in this way is not
counted.

The steps of a round have their subjects to themselves, so what a step finds is what was there
before the round.  Therefore each counter is the number of steps that add to it, and different
steps stand for different elements.
-/
import Mathlib.Data.Set.Card
import AdaptiveMesh.Proofs.Passes
import AdaptiveMesh.Proofs.Stall

namespace AdaptiveMesh

namespace Forest

variable {D : Nat}

/-! ### Before and after

These are readings of two forests, the one before a round and the one after it.  They look at
elements and meshes only and know nothing of steps, so that a summary can be held against them.
That an element gives up joining does not show in the forests and is read off the outcomes. -/

/-- The element is there before and after, with another mesh. -/
def Remeshed (f g : Forest D) (e : Element D) : Prop :=
  ∃ m m', f.mesh? e = some m ∧ g.mesh? e = some m' ∧ m ≠ m'

/-- The element has been replaced by its children. -/
def SplitUp (f g : Forest D) (e : Element D) : Prop :=
  e ∈ f ∧ e ∉ g ∧ ∃ (flags : Decision D) (l : List (Element D)), flags.Has .split ∧
    e.children flags = .ok l ∧ ∀ c ∈ l, c ∈ g

/-- The element is new and has replaced several elements. -/
def JoinedUp (f g : Forest D) (p : Element D) : Prop :=
  p ∉ f ∧ p ∈ g ∧ ∃ a ∈ f, ∃ b ∈ f, a ≠ b ∧ a.Overlaps p ∧ b.Overlaps p

/-- The element gives up joining. -/
def Abandons (outcomes : List (Outcome D)) (e : Element D) : Prop :=
  ∃ o ∈ outcomes, o.element = e ∧ GivesUp outcomes o

variable {f g : Forest D} {config : Config D} {final : Decisions D} {outcomes : List (Outcome D)}
  {o first : Outcome D} {others : List (Outcome D)} {e p : Element D} {step : Step D}
  {l : List (Step D)} {counted counted' : Summary}

/-! ### Counters

A step adds one to a counter or nothing, and which of the two it is can be told from the forest
before the round: by the time of its turn nothing has happened to the elements that the step is
about.  So the induction over the steps carries along that their subjects are what they were at the
start, and the three counters are instances of one statement. -/

instance : Decidable (Agreed first others) :=
  match h : first.element.siblings first.flags with
  | .ok _ => decidable_of_iff _ (agreed_iff h)
  | .error _ => .isFalse fun ⟨_, hl, _⟩ => by
      rw [h] at hl
      contradiction

namespace Step

/-- The element that a step splits. -/
def splits? : Step D → Option (Element D)
  | .split e _ _ => some e
  | _ => none

/-- The parent that a step joins. -/
def joins? : Step D → Option (Element D)
  | .join p first others => if Agreed first others then some p else none
  | _ => none

/-- The element that a step leaves in place with another mesh. -/
def remeshes? (f : Forest D) : Step D → Option (Element D)
  | .remain o => if f.mesh? o.element = some o.mesh then none else some o.element
  | _ => none

theorem splits?_eq_some_iff :
    step.splits? = some e ↔ ∃ children m, step = .split e children m := by
  cases step <;> simp [splits?]

theorem joins?_eq_some_iff :
    step.joins? = some p ↔ ∃ first others, step = .join p first others ∧ Agreed first others := by
  cases step with
  | join q first others =>
    simp only [joins?, Option.ite_none_right_eq_some, Option.some.injEq, join.injEq]
    constructor
    · rintro ⟨h, rfl⟩
      exact ⟨first, others, ⟨rfl, rfl, rfl⟩, h⟩
    · rintro ⟨_, _, ⟨rfl, rfl, rfl⟩, h⟩
      exact ⟨h, rfl⟩
  | _ => simp [joins?]

theorem remeshes?_eq_some_iff : step.remeshes? f = some e ↔
    ∃ o, step = .remain o ∧ o.element = e ∧ f.mesh? e ≠ some o.mesh := by
  cases step with
  | remain o =>
    simp only [remeshes?, Option.ite_none_left_eq_some, Option.some.injEq, remain.injEq]
    constructor
    · rintro ⟨h, rfl⟩
      exact ⟨o, rfl, rfl, h⟩
    · rintro ⟨_, rfl, rfl, h⟩
      exact ⟨h, rfl⟩
  | _ => simp [remeshes?]

end Step

/-- A counter to which every step adds what it stands for counts the steps of a run.  What a step
finds of its subjects is what was there at the start. -/
theorem Feasible.count_eq {start : Forest D} {n : Summary → Nat} {k : Step D → Option (Element D)}
    (hf : f.Sound) (h : Feasible f l)
    (hsame : ∀ step ∈ l, ∀ e ∈ step.subjects, f.mesh? e = start.mesh? e)
    (hstep : ∀ step ∈ l, ∀ {g g' : Forest D} {before after : Summary},
      (∀ e ∈ step.subjects, e ∈ g ∧ g.mesh? e = start.mesh? e) → Performed g before step g' after →
      n after = n before + (k step).toList.length)
    (hok : (f.carryOut counted l).1 = .ok counted') :
    n counted' = n counted + (l.filterMap k).length := by
  induction l generalizing f counted with
  | nil =>
      obtain rfl := Except.ok.inj hok
      rfl
  | cons step rest ih =>
      have hsubjects := h.subjects_mem step List.mem_cons_self
      obtain ⟨g, next, hperform, hg⟩ :=
        hf.perform (s := counted) (h.valid step List.mem_cons_self) hsubjects
      unfold Forest.carryOut at hok
      rw [hperform] at hok
      have hhead := hstep step List.mem_cons_self
        (fun e he => ⟨hsubjects e he, hsame step List.mem_cons_self e he⟩)
        (performed_of_perform hperform)
      -- the step touches no subject of a later one
      have hrest : ∀ b ∈ rest, ∀ e ∈ b.subjects, g.mesh? e = start.mesh? e := by
        intro b hb e he
        rw [← hsame b (List.mem_cons_of_mem step hb) e he]
        refine hg.mesh?_of_untouched e fun a ha v => ?_
        obtain rfl := List.mem_singleton.1 ha
        exact h.not_leaves_of_mem_subjects hf hb he v
      have htail := ih hg.sound (h.tail hf hg) hrest
        (fun b hb => hstep b (List.mem_cons_of_mem step hb)) hok
      rw [htail, hhead, List.filterMap_cons]
      cases k step with
      | none => rfl
      | some e => simp only [Option.toList_some, List.length_cons, List.length_nil]; omega

section Counters

variable (hf : f.Sound) (h : Feasible f l) (hok : (f.carryOut counted l).1 = .ok counted')

include hf h hok

theorem Feasible.splits_eq :
    counted'.splits = counted.splits + (l.filterMap Step.splits?).length := by
  refine h.count_eq hf (fun _ _ _ _ => rfl) (fun step _ {g g' before after} _ hperformed => ?_) hok
  cases hperformed <;> rfl

theorem Feasible.joins_eq :
    counted'.joins = counted.joins + (l.filterMap Step.joins?).length := by
  refine h.count_eq hf (fun _ _ _ _ => rfl) (fun step _ {g g' before after} _ hperformed => ?_) hok
  cases hperformed with
  | joined hagreed =>
    rw [Step.joins?, if_pos hagreed]
    rfl
  | abandoned hnot =>
    rw [Step.joins?, if_neg hnot]
    rfl
  | _ => rfl

theorem Feasible.refined_eq :
    counted'.refined = counted.refined + (l.filterMap (Step.remeshes? f)).length := by
  refine h.count_eq hf (fun _ _ _ _ => rfl)
    (fun step _ {g g' before after} hsame hperformed => ?_) hok
  cases hperformed with
  | @kept o hkept =>
    obtain ⟨hmem, heq⟩ := hsame o.element (List.mem_singleton_self _)
    obtain ⟨m, hm⟩ := mem_iff_mesh?.1 hmem
    rw [Step.remeshes?, if_pos (heq ▸ hkept.resolve_left (by simp [hm]))]
    rfl
  | @refined o hrefined =>
    obtain ⟨-, heq⟩ := hsame o.element (List.mem_singleton_self _)
    rw [Step.remeshes?, if_neg fun hkept => hrefined (Or.inr (heq.trans hkept))]
    rfl
  | _ => rfl

end Counters

/-! ### What the steps stand for

Readings and steps are matched both ways.  From a step it is a matter of what the step leaves.  A
reading only gives an element to start from, and what has become of it has to be found out: each
element has an outcome, and `Fate` lists what can become of that.  The cells tell which of the cases
agree with the reading. -/

/-- What becomes of the element of an outcome: it is gone, or it stays with the mesh of the
outcome. -/
inductive Fate (outcomes : List (Outcome D)) (o : Outcome D) : Option (Mesh D) → Prop where
  | remains (h : Planned outcomes (.remain o)) : Fate outcomes o (some o.mesh)
  | splits {children : List (Element D)} (h : Planned outcomes (.split o.element children o.mesh)) :
      Fate outcomes o none
  | joins {p : Element D} {first : Outcome D} {others : List (Outcome D)}
      (hj : joining outcomes p = first :: others) (ho : o ∈ first :: others)
      (h : Agreed first others) : Fate outcomes o none
  | givesUp (h : GivesUp outcomes o) : Fate outcomes o (some o.mesh)

theorem CarriedOut.exists_fate (hg : CarriedOut f (steps outcomes) g) (ho : o ∈ outcomes) :
    ∃ v, Fate outcomes o v ∧ g.mesh? o.element = v := by
  cases hr : o.replacement with
  | none =>
      have hp := Planned.remain ho hr
      exact ⟨_, .remains hp, hg.mesh?_of_leaves _ (mem_steps.2 hp) _ _ .remain⟩
  | some replacement =>
      cases replacement with
      | split children =>
          have hp := Planned.split ho hr
          exact ⟨_, .splits hp, hg.mesh?_of_leaves _ (mem_steps.2 hp) _ _ .split⟩
      | join p =>
          obtain ⟨first, others, hj, hm⟩ := exists_joining ho hr
          have hp := mem_steps.2 (Planned.join hj)
          by_cases hagreed : Agreed first others
          · exact ⟨_, .joins hj hm hagreed, hg.mesh?_of_leaves _ hp _ _ (.sibling hagreed hm)⟩
          · exact ⟨_, .givesUp ⟨p, first, others, hj, hm, hagreed⟩,
              hg.mesh?_of_leaves _ hp _ _ (.givenUp hagreed hm)⟩

section Settled

variable (hf : f.Sound) (h : Settled f config final outcomes)
  (hg : CarriedOut f (steps outcomes) g) (hcover : ∀ e ∈ f, ∃ o ∈ outcomes, o.element = e)

include hf h hg

/-- The parent of siblings that agreed takes their place. -/
theorem Settled.mem_of_agreed (hj : joining outcomes p = first :: others)
    (hagreed : Agreed first others) : p ∉ f ∧ p ∈ g := by
  have hp := mem_steps.2 (Planned.join hj)
  obtain ⟨m, hm⟩ := exists_withExtents_largestExtents first others
  have hmesh := hg.mesh?_of_leaves _ hp _ _ (.parent hagreed hm)
  refine ⟨fun hpf => ?_, mem_iff_mesh?.2 ⟨m, hmesh⟩⟩
  -- a parent that was there would be one of the siblings, and they are gone
  have hmem := Step.Leaves.mem_subjects hf (h.valid_of_planned (.join hj))
    (h.feasible.subjects_mem _ hp) (.parent hagreed hm) hpf
  obtain ⟨o, ho, rfl⟩ := List.mem_map.1 hmem
  rw [hg.mesh?_of_leaves _ hp _ _ (.sibling hagreed ho)] at hmesh
  contradiction

include hcover

theorem Settled.splitUp_iff : f.SplitUp g e ↔
    ∃ step, Planned outcomes step ∧ step.splits? = some e := by
  constructor
  · rintro ⟨he, hgone, flags, l, hs, hl, hall⟩
    obtain ⟨o, ho, rfl⟩ := hcover e he
    obtain ⟨v, hfate, hv⟩ := hg.exists_fate ho
    cases hfate with
    | remains => exact absurd (mem_iff_mesh?.2 ⟨_, hv⟩) hgone
    | splits hp => exact ⟨_, hp, rfl⟩
    | @joins p first others hj hm hagreed =>
        -- the parent would share its cells with the children
        obtain ⟨-, hj', hp⟩ := (h.mem_joining_iff.1 (hj ▸ hm)).2
        obtain ⟨c, hc⟩ := List.exists_mem_of_ne_nil l (Element.children_ne_nil hl)
        obtain ⟨x, hx⟩ := c.exists_covers
        have hpx := Element.covers_of_parent hp (Element.covers_of_mem_children hl hc hx)
        have hpg := (h.mem_of_agreed hf hg hj hagreed).2
        obtain rfl := hg.sound.eq_of_covers c (hall c hc) p hpg x hx hpx
        obtain ⟨d, hd⟩ := hj'
        have hup := Element.level_of_parent hp d
        have hdown := Element.level_of_mem_children hl hc d
        rw [if_pos hd] at hup
        split at hdown <;> omega
    | givesUp => exact absurd (mem_iff_mesh?.2 ⟨_, hv⟩) hgone
  · rintro ⟨step, hp, hstep⟩
    obtain ⟨children, m, rfl⟩ := Step.splits?_eq_some_iff.1 hstep
    have hmem := mem_steps.2 hp
    obtain ⟨flags, hs, hl⟩ := h.valid_of_planned hp
    refine ⟨h.feasible.subjects_mem _ hmem e (List.mem_singleton_self e), fun he => ?_, flags,
      children, hs, hl, fun c hc => mem_iff_mesh?.2 ⟨m, hg.mesh?_of_leaves _ hmem _ _ (.child hc)⟩⟩
    obtain ⟨m', hm'⟩ := mem_iff_mesh?.1 he
    rw [hg.mesh?_of_leaves _ hmem _ _ .split] at hm'
    contradiction

theorem Settled.joinedUp_iff : f.JoinedUp g p ↔
    ∃ step, Planned outcomes step ∧ step.joins? = some p := by
  constructor
  · rintro ⟨hnew, hpg, a, ha, b, hb, hne, hap, hbp⟩
    obtain ⟨m, hm⟩ := mem_iff_mesh?.1 hpg
    obtain ⟨step, hp, hl⟩ := (hg.mesh?_eq_some_iff hcover).1 hm
    have hsub := h.feasible.subjects_mem _ (mem_steps.2 hp)
    cases hl with
    | remain => exact absurd (hsub _ (List.mem_singleton_self _)) hnew
    | @child e _ children _ hc =>
        -- whatever overlapped a child was the element itself
        obtain ⟨flags, -, hchildren⟩ := h.valid_of_planned hp
        have heq : ∀ c ∈ f, c.Overlaps p → c = e := by
          intro c hcf hov
          obtain ⟨x, hx, hpx⟩ := Element.overlaps_iff_exists_covers.1 hov
          exact hf.eq_of_covers c hcf e (hsub _ (List.mem_singleton_self _)) x hx
            (Element.covers_of_mem_children hchildren hc hpx)
        exact absurd ((heq a ha hap).trans (heq b hb hbp).symm) hne
    | parent hagreed => exact ⟨_, hp, if_pos hagreed⟩
    | givenUp _ ho => exact absurd (hsub _ (List.mem_map_of_mem ho)) hnew
  · rintro ⟨step, hp, hstep⟩
    obtain ⟨first, others, rfl, hagreed⟩ := Step.joins?_eq_some_iff.1 hstep
    obtain ⟨l, flags, hs, hl, -, hmem⟩ := (h.valid_of_planned hp).children_of_agreed hagreed
    have hin : ∀ c ∈ l, c ∈ f ∧ c.Overlaps p := by
      intro c hc
      obtain ⟨o, ho, rfl⟩ := (hmem c).1 hc
      obtain ⟨x, hx⟩ := o.element.exists_covers
      exact ⟨h.feasible.subjects_mem _ (mem_steps.2 hp) _ (List.mem_map_of_mem ho),
        Element.overlaps_of_covers hx (Element.covers_of_mem_children hl hc hx)⟩
    obtain ⟨a, ha, b, hb, hne⟩ := Element.exists_ne_of_children hl hs
    have hj : joining outcomes p = first :: others := by
      cases hp with
      | join hj => exact hj
    obtain ⟨hnew, hpg⟩ := h.mem_of_agreed hf hg hj hagreed
    exact ⟨hnew, hpg, a, (hin a ha).1, b, (hin b hb).1, hne, (hin a ha).2, (hin b hb).2⟩

omit hf in
theorem Settled.remeshed_iff : f.Remeshed g e ∧ ¬ Abandons outcomes e ↔
    ∃ step, Planned outcomes step ∧ step.remeshes? f = some e := by
  constructor
  · rintro ⟨⟨m, m', hm, hm', hne⟩, hnot⟩
    obtain ⟨o, ho, rfl⟩ := hcover e (mem_iff_mesh?.2 ⟨m, hm⟩)
    obtain ⟨v, hfate, hv⟩ := hg.exists_fate ho
    rw [hm'] at hv
    cases hfate with
    | remains hp =>
        refine ⟨_, hp, Step.remeshes?_eq_some_iff.2 ⟨o, rfl, rfl, ?_⟩⟩
        rw [hm, ← hv]
        exact fun heq => hne (Option.some.inj heq)
    | splits => contradiction
    | joins => contradiction
    | givesUp hgive => exact absurd ⟨o, ho, rfl, hgive⟩ hnot
  · rintro ⟨step, hp, hstep⟩
    obtain ⟨o, rfl, rfl, hne⟩ := Step.remeshes?_eq_some_iff.1 hstep
    cases hp with
    | remain ho hr =>
        obtain ⟨m, hm⟩ := mem_iff_mesh?.1 (h.mem ho)
        refine ⟨⟨m, o.mesh, hm, ?_, fun heq => hne (heq ▸ hm)⟩, ?_⟩
        · exact hg.mesh?_of_leaves _ (mem_steps.2 (.remain ho hr)) _ _ .remain
        · rintro ⟨o', ho', heq, hgive⟩
          obtain rfl := h.eq_of_element ho' ho heq
          obtain ⟨p, hp⟩ := hgive.exists_replacement
          rw [hr] at hp
          contradiction

end Settled

/-! ### Different steps stand for different elements

A summary counts steps, the readings count elements.  Both come to the same number because no two
steps stand for one element: they would have it as a common subject, or they would join the same
parent, and those who join into one parent are all put into one step. -/

/-- What distinct steps stand for is as many elements as there are such steps. -/
theorem ncard_eq_length {k : Step D → Option (Element D)} {P : Element D → Prop}
    (h : Settled f config final outcomes)
    (hk : ∀ a b e, Planned outcomes a → Planned outcomes b → k a = some e → k b = some e → a = b)
    (hP : ∀ e, P e ↔ ∃ step, Planned outcomes step ∧ k step = some e) :
    {e | P e}.ncard = ((steps outcomes).filterMap k).length := by
  have hnodup : ((steps outcomes).filterMap k).Nodup := by
    refine List.pairwise_filterMap.2 (h.pairwise_steps.imp_of_mem fun {a b} ha hb hne => ?_)
    rintro e hea c hcb rfl
    exact hne (hk a b e (mem_steps.1 ha) (mem_steps.1 hb) hea hcb)
  have hset : {e | P e} = ((steps outcomes).filterMap k).toFinset := by
    ext e
    simp only [Set.mem_ofPred_eq, hP, List.coe_toFinset, List.mem_filterMap, mem_steps]
  rw [hset, Set.ncard_coe_finset, List.toFinset_card_of_nodup hnodup]

/-- What a summary says of the forests before and after a round. -/
structure Accounts (f g : Forest D) (outcomes : List (Outcome D)) (summary : Summary) : Prop where
  /-- The splits are the elements that have been replaced by their children. -/
  splits : summary.splits = {e | f.SplitUp g e}.ncard
  /-- The joins are the elements that have replaced several others. -/
  joins : summary.joins = {p | f.JoinedUp g p}.ncard
  /-- The refined elements are those with another mesh that do not give up joining. -/
  refined : summary.refined = {e | f.Remeshed g e ∧ ¬ Abandons outcomes e}.ncard

theorem Settled.accounts (hf : f.Sound) (h : Settled f config final outcomes)
    (hcover : ∀ e ∈ f, ∃ o ∈ outcomes, o.element = e) {start summary : Summary}
    (hok : (f.carryOut start (steps outcomes)).1 = .ok summary)
    (hg : CarriedOut f (steps outcomes) g)
    (hstart : start.splits = 0 ∧ start.joins = 0 ∧ start.refined = 0) :
    Accounts f g outcomes summary := by
  constructor
  · rw [h.feasible.splits_eq hf hok, hstart.1, Nat.zero_add]
    refine (ncard_eq_length h (fun a b e ha hb hea heb => ?_)
      fun e => h.splitUp_iff hf hg hcover).symm
    obtain ⟨_, _, rfl⟩ := Step.splits?_eq_some_iff.1 hea
    obtain ⟨_, _, rfl⟩ := Step.splits?_eq_some_iff.1 heb
    exact h.eq_of_mem_subjects ha hb (List.mem_singleton_self e) (List.mem_singleton_self e)
  · rw [h.feasible.joins_eq hf hok, hstart.2.1, Nat.zero_add]
    refine (ncard_eq_length h (fun a b e ha hb hea heb => ?_)
      fun e => h.joinedUp_iff hf hg hcover).symm
    obtain ⟨_, _, rfl, -⟩ := Step.joins?_eq_some_iff.1 hea
    obtain ⟨_, _, rfl, -⟩ := Step.joins?_eq_some_iff.1 heb
    cases ha with
    | join hj =>
        cases hb with
        | join hj' =>
            rw [hj, List.cons.injEq] at hj'
            rw [hj'.1, hj'.2]
  · rw [h.feasible.refined_eq hf hok, hstart.2.2, Nat.zero_add]
    refine (ncard_eq_length h (fun a b e ha hb hea heb => ?_)
      fun e => h.remeshed_iff hg hcover).symm
    obtain ⟨_, rfl, rfl, -⟩ := Step.remeshes?_eq_some_iff.1 hea
    obtain ⟨_, rfl, heq, -⟩ := Step.remeshes?_eq_some_iff.1 heb
    exact h.eq_of_mem_subjects ha hb (List.mem_singleton_self _) (List.mem_singleton.2 heq.symm)

/-! ### Summaries of rounds

One reads a summary to learn whether a round has done anything.  A counter at zero means that there
was nobody to count, as there is only a finite number of elements that could have been.  What
escapes all counters is a mesh that an element takes on while it gives up joining. -/

theorem finite_of_mem {P : Element D → Prop} (hP : ∀ e, P e → e ∈ f) : {e | P e}.Finite :=
  f.elements.toFinset.finite_toSet.subset fun e he =>
    List.mem_toFinset.2 (mem_elements.2 (hP e he))

/-- Elements of a forest are counted as none exactly if there are none. -/
theorem ncard_eq_zero_iff {P : Element D → Prop} (hP : ∀ e, P e → e ∈ f) :
    {e | P e}.ncard = 0 ↔ ∀ e, ¬ P e := by
  rw [Set.ncard_eq_zero (finite_of_mem hP), Set.eq_empty_iff_forall_notMem]
  rfl

theorem Remeshed.mem (h : f.Remeshed g e) : e ∈ f := by
  obtain ⟨m, -, hm, -⟩ := h
  exact mem_iff_mesh?.2 ⟨m, hm⟩

namespace Accounts

variable {summary : Summary} (h : Accounts f g outcomes summary)

include h

theorem splits_eq_zero_iff : summary.splits = 0 ↔ ∀ e, ¬ f.SplitUp g e := by
  rw [h.splits]
  exact ncard_eq_zero_iff fun e he => he.1

theorem joins_eq_zero_iff : summary.joins = 0 ↔ ∀ p, ¬ f.JoinedUp g p := by
  rw [h.joins]
  exact ncard_eq_zero_iff fun p hp => hp.2.1

theorem refined_eq_zero_iff :
    summary.refined = 0 ↔ ∀ e, f.Remeshed g e → Abandons outcomes e := by
  rw [h.refined, ncard_eq_zero_iff fun e he => he.1.mem]
  simp only [not_and, not_not]

/-- The refined elements are all that have another mesh exactly if none of these gives up
joining. -/
theorem refined_eq_iff : summary.refined = {e | f.Remeshed g e}.ncard ↔
    ∀ e, f.Remeshed g e → ¬ Abandons outcomes e := by
  rw [h.refined]
  have hsub : {e | f.Remeshed g e ∧ ¬ Abandons outcomes e} ⊆ {e | f.Remeshed g e} :=
    fun e he => he.1
  constructor
  · intro heq e he
    have hsame := Set.eq_of_subset_of_ncard_le hsub heq.ge (finite_of_mem fun e he => he.mem)
    exact (hsame ▸ he : e ∈ {e | f.Remeshed g e ∧ ¬ Abandons outcomes e}).2
  · intro hnot
    exact congrArg Set.ncard (hsub.antisymm fun e he => ⟨he, hnot e he⟩)

/-- A forest is unchanged exactly if nothing is counted and no element that gives up joining has
another mesh. -/
theorem eq_iff (hf : f.Sound) (hsettled : Settled f config final outcomes)
    (hg : CarriedOut f (steps outcomes) g) (hcover : ∀ e ∈ f, ∃ o ∈ outcomes, o.element = e) :
    g = f ↔ summary.refined = 0 ∧ summary.splits = 0 ∧ summary.joins = 0 ∧
      ∀ e, f.Remeshed g e → ¬ Abandons outcomes e := by
  rw [h.refined_eq_zero_iff, h.splits_eq_zero_iff, h.joins_eq_zero_iff]
  constructor
  · rintro rfl
    have hsame : ∀ e, ¬ g.Remeshed g e := by
      rintro e ⟨m, m', hm, hm', hne⟩
      exact hne (Option.some.inj (hm.symm.trans hm'))
    exact ⟨fun e he => absurd he (hsame e), fun e he => he.2.1 he.1, fun p hp => hp.1 hp.2.1,
      fun e he => absurd he (hsame e)⟩
  · rintro ⟨hrefined, hsplits, hjoins, hnot⟩
    have hmesh : ∀ e, ¬ f.Remeshed g e := fun e he => hnot e he (hrefined e he)
    have hsplits : ∀ step, Planned outcomes step → step.splits? = none := fun step hp =>
      Option.eq_none_iff_forall_not_mem.2 fun e he =>
        hsplits e ((hsettled.splitUp_iff hf hg hcover).2 ⟨step, hp, he⟩)
    have hjoins : ∀ step, Planned outcomes step → step.joins? = none := fun step hp =>
      Option.eq_none_iff_forall_not_mem.2 fun p hp' =>
        hjoins p ((hsettled.joinedUp_iff hf hg hcover).2 ⟨step, hp, hp'⟩)
    refine (hsettled.eq_iff_idle hf hg).2 ⟨fun o ho => ?_, fun o ho hs => ?_, fun p hc => ?_⟩
    · obtain ⟨m, hm⟩ := mem_iff_mesh?.1 (hsettled.mem ho)
      obtain ⟨v, hfate, hv⟩ := hg.exists_fate ho
      have hkept : v = some o.mesh := by
        cases hfate with
        | remains => rfl
        | splits hp => exact absurd (hsplits _ hp) (by simp [Step.splits?])
        | joins hj _ hagreed => exact absurd (hjoins _ (.join hj)) (by simp [Step.joins?, hagreed])
        | givesUp => rfl
      by_contra hne
      exact hmesh o.element ⟨m, o.mesh, hm, hv.trans hkept, fun heq => hne (heq ▸ hm)⟩
    · obtain ⟨children, hl⟩ := Element.exists_children (hsettled.canSplit ho)
      have hr := (hsettled.replacement_eq_iff ho).2 (Decision.replacement_eq_split_iff.2 ⟨hs, hl⟩)
      exact absurd (hsplits _ (.split ho hr)) (by simp [Step.splits?])
    · obtain ⟨first, others, hj⟩ := hsettled.exists_joining_of_complete hc
      have hagreed := (hsettled.complete_iff hj).1 hc
      exact absurd (hjoins _ (.join hj)) (by simp [Step.joins?, hagreed])

end Accounts

/-! ### Rounds over forests that were reached -/

/-- What the summary of a round says.  The splits are the elements that have been replaced by their
children, the joins those that have replaced several others.  The refined elements are the ones
with another mesh, but for those that give up joining; so they are all of them, and a summary with
nothing in it tells that the forest is unchanged, exactly if no element that gives up joining has
another mesh. -/
theorem Reachable.refineInOrder_accounts (hf : Reachable f) {order : List (Element D)}
    (horder : order.Perm f.elements) {summary : Summary}
    (hok : (f.refineInOrder config order).1 = .ok summary) :
    ∃ s g, f.settlement config order = .ok s ∧ (f.refineInOrder config order).2 = g ∧
      summary.splits = {e | f.SplitUp g e}.ncard ∧
      summary.joins = {p | f.JoinedUp g p}.ncard ∧
      summary.refined = {e | f.Remeshed g e ∧ ¬ Abandons s.outcomes e}.ncard ∧
      (summary.refined = {e | f.Remeshed g e}.ncard ↔
        ∀ e, f.Remeshed g e → ¬ Abandons s.outcomes e) ∧
      (g = f ↔ summary.refined = 0 ∧ summary.splits = 0 ∧ summary.joins = 0 ∧
        ∀ e, f.Remeshed g e → ¬ Abandons s.outcomes e) := by
  obtain ⟨s, final, hs, hsettled, hcover, hg⟩ := hf.sound.exists_settled horder hok
  rw [refineInOrder_of_ok hs] at hok
  have ha := hsettled.accounts hf.sound hcover hok hg ⟨rfl, rfl, rfl⟩
  exact ⟨s, _, hs, rfl, ha.splits, ha.joins, ha.refined, ha.refined_eq_iff,
    ha.eq_iff hf.sound hsettled hg hcover⟩

section Uneven

/-- A single element with one point more along the second axis. -/
def longerTarget : Target 2 :=
  (Target.ofValues #v[3, 4] (Vector.replicate 2 0) (.uniform .doNothing) .all).toOption.get
    (by decide +kernel)

/-- A run towards that element. -/
def longer : Config 2 :=
  (Config.ofParts [.driveToTarget longerTarget] {}
    ⟨.full, .legendre, .gaussLobatto⟩).toOption.get (by decide +kernel)

theorem refineInOrder_longer :
    (unevenForest.refineInOrder longer unevenForest.elements).1
      = .ok { passes := 1, abandonedJoins := 1 } := by
  decide +kernel

/-- The half that is whole lacks the other half to join with, but it gets the point that it asks
for. -/
theorem remeshed_longer :
    unevenForest.Remeshed (unevenForest.refine longer).2 (square (1, 0) (0, 0)) := by
  have hextents : unevenForest.mesh? (square (1, 0) (0, 0)) = some squareMesh ∧
      ((unevenForest.refine longer).2.mesh? (square (1, 0) (0, 0))).map (·.extents)
        = some #v[3, 4] := by
    decide +kernel
  obtain ⟨m, hm, hlonger⟩ := Option.map_eq_some_iff.1 hextents.2
  refine ⟨squareMesh, m, hextents.1, hm, ?_⟩
  rintro rfl
  exact absurd hlonger (by decide +kernel)

/-- Some element that gives up joining has another mesh, since nothing else would have escaped the
summary. -/
theorem refineInOrder_accounts_unevenForest :
    ∃ s, unevenForest.settlement longer unevenForest.elements = .ok s ∧
      ∃ e, unevenForest.Remeshed (unevenForest.refine longer).2 e ∧ Abandons s.outcomes e := by
  obtain ⟨s, g, hs, hg, -, -, -, -, hunchanged⟩ :=
    Reachable.refineInOrder_accounts reachable_unevenForest (.refl _) refineInOrder_longer
  refine ⟨s, hs, ?_⟩
  by_contra hno
  have hsame := hunchanged.2 ⟨rfl, rfl, rfl, fun e he hgive => hno ⟨e, hg ▸ he, hgive⟩⟩
  obtain ⟨m, m', hm, hm', hne⟩ := remeshed_longer
  have hm' : g.mesh? (square (1, 0) (0, 0)) = some m' := hg ▸ hm'
  rw [hsame, hm] at hm'
  exact hne (Option.some.inj hm')

/-- A summary can have nothing in it although a mesh has changed. -/
theorem summary_omits_mesh_unevenForest :
    Reachable unevenForest ∧ ∃ summary, (unevenForest.refine longer).1 = .ok summary ∧
      (summary.refined = 0 ∧ summary.splits = 0 ∧ summary.joins = 0) ∧
      summary.refined ≠ {e | unevenForest.Remeshed (unevenForest.refine longer).2 e}.ncard ∧
      (unevenForest.refine longer).2 ≠ unevenForest := by
  refine ⟨reachable_unevenForest, _, refineInOrder_longer, ⟨rfl, rfl, rfl⟩, fun hzero => ?_,
    fun hsame => ?_⟩
  · exact (ncard_eq_zero_iff fun e he => he.mem).1 hzero.symm _ remeshed_longer
  · obtain ⟨m, m', hm, hm', hne⟩ := remeshed_longer
    rw [hsame, hm] at hm'
    exact hne (Option.some.inj hm')

end Uneven

end Forest

end AdaptiveMesh
