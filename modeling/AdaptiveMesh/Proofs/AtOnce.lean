/-
A round as one step.

A round carries out its steps one after another, and each of them is looked up in the forest
that the steps before it left.  Yet it comes to the same as if all elements acted on
their decisions at once.  `AtOnce` is that reading: it speaks of the decisions and of
nothing that is ever between them, and says of every element with which mesh it is there
when the round is over.

Every element is a subject of some step, and a step leaves something of each of its
subjects.  So the elements that are there afterwards are exactly those that some step
leaves, and no order of the steps makes a difference.
-/
import Mathlib.Order.Bounds.Basic
import AdaptiveMesh.Proofs.GradedRound

namespace AdaptiveMesh

/-- The element joins, into this parent. -/
def Outcome.JoinsInto {D : Nat} (o : Outcome D) (p : Element D) : Prop :=
  ¬ o.flags.Has .split ∧ o.flags.Has .join ∧ o.element.parent o.flags = .ok p

namespace Forest

variable {D : Nat}

/-! ### All decisions at once -/

/-- The outcomes of a forest: of each element the one that acts on its decision. -/
structure OutcomesOf (f : Forest D) (outcomes : List (Outcome D)) : Prop where
  /-- The outcomes are those of all elements. -/
  mem_iff : ∀ e, e ∈ f ↔ ∃ o ∈ outcomes, o.element = e
  /-- An element has one outcome only. -/
  unique : ∀ o ∈ outcomes, ∀ o' ∈ outcomes, o.element = o'.element → o = o'
  /-- An outcome is what acting on its decision comes to. -/
  applied : ∀ o ∈ outcomes, ∀ r, f.records[o.element]? = some r →
    o.flags.apply o.element r.mesh = .ok o

/-- The elements that join into a parent are exactly the siblings of one of them. -/
def Complete (outcomes : List (Outcome D)) (p : Element D) : Prop :=
  ∃ o ∈ outcomes, o.JoinsInto p ∧ ∃ l, o.element.siblings o.flags = .ok l ∧
    ∀ c, c ∈ l ↔ ∃ o' ∈ outcomes, o'.JoinsInto p ∧ o'.element = c

/-- The mesh of a parent in place of the elements that join into it: along each axis as fine as the
finest of them, on the basis and quadrature of the first. -/
structure Merged (outcomes : List (Outcome D)) (p : Element D) (m : Mesh D) : Prop where
  /-- Along each axis the extent is the largest of all. -/
  extents : ∀ d, IsGreatest {n | ∃ o ∈ outcomes, o.JoinsInto p ∧ o.mesh.extents.get d = n}
    (m.extents.get d)
  /-- Basis and quadrature are those of the first element. -/
  first : ∃ o ∈ outcomes, o.JoinsInto p ∧
    (∀ o' ∈ outcomes, o'.JoinsInto p → (compare o.element o'.element).isLE) ∧
    m.basis = o.mesh.basis ∧ m.quadrature = o.mesh.quadrature

/-- The element is there, with this mesh, once all elements have acted on their decisions. -/
inductive AtOnce (outcomes : List (Outcome D)) : Element D → Mesh D → Prop where
  /-- An element that neither splits nor joins has its new mesh. -/
  | kept {o : Outcome D} (ho : o ∈ outcomes) (hs : ¬ o.flags.Has .split)
      (hj : ¬ o.flags.Has .join) : AtOnce outcomes o.element o.mesh
  /-- The children of an element that splits start from its new mesh. -/
  | child {o : Outcome D} {children : List (Element D)} {c : Element D} (ho : o ∈ outcomes)
      (hs : o.flags.Has .split) (hl : o.element.children o.flags = .ok children)
      (hc : c ∈ children) : AtOnce outcomes c o.mesh
  /-- A parent into which all siblings join takes their place. -/
  | parent {p : Element D} {m : Mesh D} (h : Complete outcomes p) (hm : Merged outcomes p m) :
      AtOnce outcomes p m
  /-- An element whose siblings do not all join has its new mesh. -/
  | alone {o : Outcome D} {p : Element D} (ho : o ∈ outcomes) (hp : o.JoinsInto p)
      (h : ¬ Complete outcomes p) : AtOnce outcomes o.element o.mesh

variable {f g g' : Forest D} {config : Config D} {final : Decisions D}
  {outcomes : List (Outcome D)} {o first : Outcome D} {others : List (Outcome D)}
  {p c : Element D} {m : Mesh D}

/-! ### Groups of siblings

A step that joins starts from a parent and has the elements that want to join into it.  `Complete`
starts from one of them and asks for its siblings.  It comes to the same, since elements that join
into one parent have the same siblings. -/

namespace Settled

theorem replacement_eq_iff (h : Settled f config final outcomes) (ho : o ∈ outcomes)
    {replacement : Option (Replacement D)} :
    o.replacement = replacement ↔ o.flags.replacement o.element = .ok replacement := by
  rw [h.replacement ho, Except.ok.injEq]

theorem replacement_eq_join_iff (h : Settled f config final outcomes) (ho : o ∈ outcomes) :
    o.replacement = some (.join p) ↔ o.JoinsInto p := by
  rw [h.replacement_eq_iff ho, Decision.replacement_eq_join_iff]
  rfl

theorem mem_joining_iff (h : Settled f config final outcomes) :
    o ∈ joining outcomes p ↔ o ∈ outcomes ∧ o.JoinsInto p := by
  rw [mem_joining]
  exact and_congr_right fun ho => h.replacement_eq_join_iff ho

/-- It does not matter whose siblings are asked for. -/
theorem complete_iff (h : Settled f config final outcomes)
    (hj : joining outcomes p = first :: others) : Complete outcomes p ↔ Agreed first others := by
  have hgroup : ∀ c, (∃ o ∈ first :: others, o.element = c) ↔
      ∃ o ∈ outcomes, o.JoinsInto p ∧ o.element = c := by
    intro c
    simp only [← hj, h.mem_joining_iff, and_assoc]
  obtain ⟨hfirst, hinto⟩ := h.mem_joining_iff.1 (hj ▸ List.mem_cons_self)
  constructor
  · rintro ⟨o, ho, hp, l, hl, hmem⟩
    have hin : first.element ∈ l := (hmem _).2 ⟨first, hfirst, hinto, rfl⟩
    exact ⟨l, Element.siblings_eq_of_mem hp.2.2 hinto.2.2 hl hin,
      fun c => (hmem c).trans (hgroup c).symm⟩
  · rintro ⟨l, hl, hmem⟩
    exact ⟨first, hfirst, hinto, l, hl, fun c => (hmem c).trans (hgroup c)⟩

theorem exists_joining_of_complete (h : Settled f config final outcomes)
    (hc : Complete outcomes p) : ∃ first others, joining outcomes p = first :: others := by
  obtain ⟨o, ho, hp, -⟩ := hc
  obtain ⟨first, others, hj, -⟩ := exists_joining ho ((h.replacement_eq_join_iff ho).2 hp)
  exact ⟨first, others, hj⟩

end Settled

/-! ### Merged meshes

A join goes through its group and keeps the larger extent each time, and it starts from the first
outcome of the group.  The result is stated without that order: along each axis it is the largest
extent there is. -/

/-- Counting up maxima ends with the largest of the numbers. -/
theorem isGreatest_foldl_max {α : Type} (k : α → Nat) (l : List α) (n : Nat) :
    IsGreatest {x | n = x ∨ ∃ a ∈ l, k a = x} (l.foldl (fun n a => max n (k a)) n) := by
  induction l generalizing n with
  | nil => exact ⟨Or.inl rfl, by simp [upperBounds]⟩
  | cons a l ih =>
      obtain ⟨hmem, hbound⟩ := ih (max n (k a))
      have hmax : max n (k a) ≤ l.foldl (fun n a => max n (k a)) (max n (k a)) :=
        hbound (Or.inl rfl)
      constructor
      · rcases hmem with heq | ⟨b, hb, heq⟩
        · rw [List.foldl_cons, ← heq]
          rcases Nat.le_total n (k a) with hle | hle
          · exact Or.inr ⟨a, List.mem_cons_self, (Nat.max_eq_right hle).symm⟩
          · exact Or.inl (Nat.max_eq_left hle).symm
        · exact Or.inr ⟨b, List.mem_cons_of_mem a hb, heq⟩
      · rintro x (rfl | ⟨b, hb, rfl⟩)
        · exact Nat.le_trans (Nat.le_max_left n (k a)) hmax
        · rcases List.mem_cons.1 hb with rfl | hb
          · exact Nat.le_trans (Nat.le_max_right n (k b)) hmax
          · exact hbound (Or.inr ⟨b, hb, rfl⟩)

/-- The extents that a join computes are the largest of the group. -/
theorem isGreatest_largestExtents (first : Outcome D) (others : List (Outcome D)) (d : Fin D) :
    IsGreatest {n | ∃ o ∈ first :: others, o.mesh.extents.get d = n}
      ((largestExtents first others).get d) := by
  unfold largestExtents
  rw [get_ofFn]
  simp only [List.mem_cons, exists_eq_or_imp]
  exact isGreatest_foldl_max (fun o : Outcome D => o.mesh.extents.get d) others
    (first.mesh.extents.get d)

/-- What a join makes of the meshes of its group is the merged mesh. -/
theorem Settled.merged_iff (h : Settled f config final outcomes)
    (hascending : Ascending (outcomes.map (·.element)))
    (hj : joining outcomes p = first :: others) : Merged outcomes p m ↔
      first.mesh.withExtents (largestExtents first others) = .ok m := by
  have hgroup : ∀ o, o ∈ first :: others ↔ o ∈ outcomes ∧ o.JoinsInto p := by
    intro o
    rw [← hj, h.mem_joining_iff]
  have hgreatest := isGreatest_largestExtents first others
  simp only [hgroup, and_assoc] at hgreatest
  -- outcomes are ascending, so the first of the group is its lowest element
  have hlowest : ∀ o ∈ outcomes, o.JoinsInto p → (compare first.element o.element).isLE := by
    intro o ho hp
    have hsorted : (first :: others).Pairwise fun a b => compare a.element b.element = .lt := by
      rw [← hj]
      exact List.Pairwise.sublist List.filter_sublist (List.pairwise_map.1 hascending)
    rcases List.mem_cons.1 ((hgroup o).2 ⟨ho, hp⟩) with rfl | ho
    · rw [Std.ReflOrd.compare_self]
      rfl
    · rw [(List.pairwise_cons.1 hsorted).1 o ho]
      rfl
  obtain ⟨hfirst, hinto⟩ := (hgroup first).1 List.mem_cons_self
  rw [Mesh.withExtents_eq_ok_iff]
  constructor
  · rintro ⟨hextents, o, ho, hp, hle, hbasis, hquadrature⟩
    obtain rfl : o = first := by
      refine h.eq_of_element ho hfirst (Std.LawfulEqOrd.compare_eq_iff_eq.1 ?_)
      exact Std.OrientedCmp.isLE_antisymm (hle first hfirst hinto) (hlowest o ho hp)
    exact ⟨ext_get fun d => (hextents d).unique (hgreatest d), hbasis, hquadrature⟩
  · rintro ⟨hextents, hbasis, hquadrature⟩
    refine ⟨fun d => ?_, first, hfirst, hinto, hlowest, hbasis, hquadrature⟩
    rw [hextents]
    exact hgreatest d

/-! ### What the steps of a round leave -/

theorem Settled.atOnce_iff (h : Settled f config final outcomes)
    (hascending : Ascending (outcomes.map (·.element))) :
    AtOnce outcomes c m ↔ ∃ step, Planned outcomes step ∧ step.Leaves c (some m) := by
  constructor
  · intro hc
    cases hc with
    | @kept o ho hs hj =>
        have hr := (h.replacement_eq_iff ho).2 (Decision.replacement_eq_none_iff.2 ⟨hs, hj⟩)
        exact ⟨_, .remain ho hr, .remain⟩
    | @child o children c ho hs hl hc =>
        have hr := (h.replacement_eq_iff ho).2 (Decision.replacement_eq_split_iff.2 ⟨hs, hl⟩)
        exact ⟨_, .split ho hr, .child hc⟩
    | parent hcomplete hm =>
        obtain ⟨first, others, hj⟩ := h.exists_joining_of_complete hcomplete
        exact ⟨_, .join hj, .parent ((h.complete_iff hj).1 hcomplete)
          ((h.merged_iff hascending hj).1 hm)⟩
    | @alone o p ho hp hnot =>
        obtain ⟨first, others, hj, hm⟩ := exists_joining ho ((h.replacement_eq_join_iff ho).2 hp)
        exact ⟨_, .join hj, .givenUp (fun hagreed => hnot ((h.complete_iff hj).2 hagreed)) hm⟩
  · rintro ⟨step, hp, hl⟩
    cases hp with
    | remain ho hr =>
        cases hl
        obtain ⟨hs, hj⟩ := Decision.replacement_eq_none ((h.replacement_eq_iff ho).1 hr)
        exact .kept ho hs hj
    | split ho hr =>
        cases hl with
        | child hc =>
            obtain ⟨hs, hl⟩ := Decision.replacement_eq_split ((h.replacement_eq_iff ho).1 hr)
            exact .child ho hs hl hc
    | join hj =>
        cases hl with
        | parent hagreed hm =>
            exact .parent ((h.complete_iff hj).2 hagreed) ((h.merged_iff hascending hj).2 hm)
        | givenUp hnot hm =>
            rw [← hj, h.mem_joining_iff] at hm
            exact .alone hm.1 hm.2 fun hcomplete => hnot ((h.complete_iff hj).1 hcomplete)

/-- Something is left of every element with an outcome. -/
theorem exists_leaves (ho : o ∈ outcomes) :
    ∃ step, Planned outcomes step ∧ ∃ v, step.Leaves o.element v := by
  cases hr : o.replacement with
  | none => exact ⟨_, .remain ho hr, _, .remain⟩
  | some replacement =>
      cases replacement with
      | split children => exact ⟨_, .split ho hr, _, .split⟩
      | join p =>
          obtain ⟨first, others, hj, hm⟩ := exists_joining ho hr
          by_cases hagreed : Agreed first others
          · exact ⟨_, .join hj, _, .sibling hagreed hm⟩
          · exact ⟨_, .join hj, _, .givenUp hagreed hm⟩

namespace CarriedOut

variable {l l' : List (Step D)}

/-- What is there after a round is what some step left. -/
theorem mesh?_eq_some_iff (hg : CarriedOut f (steps outcomes) g)
    (hall : ∀ e ∈ f, ∃ o ∈ outcomes, o.element = e) :
    g.mesh? c = some m ↔ ∃ step, Planned outcomes step ∧ step.Leaves c (some m) := by
  constructor
  · intro hm
    by_cases hleft : ∃ step, Planned outcomes step ∧ ∃ v, step.Leaves c v
    · obtain ⟨step, hp, v, hl⟩ := hleft
      rw [hg.mesh?_of_leaves step (mem_steps.2 hp) c v hl] at hm
      exact ⟨step, hp, hm ▸ hl⟩
    · rw [hg.mesh?_of_untouched c fun step hs v hl => hleft ⟨step, mem_steps.1 hs, v, hl⟩] at hm
      obtain ⟨o, ho, rfl⟩ := hall c (mem_iff_mesh?.2 ⟨m, hm⟩)
      exact absurd (exists_leaves ho) hleft
  · rintro ⟨step, hp, hl⟩
    exact hg.mesh?_of_leaves step (mem_steps.2 hp) c _ hl

/-- What is there after a round is what is there once all elements have acted on their decisions. -/
theorem mesh?_eq_some_iff_atOnce (hg : CarriedOut f (steps outcomes) g)
    (h : Settled f config final outcomes) (hascending : Ascending (outcomes.map (·.element)))
    (hall : ∀ e ∈ f, ∃ o ∈ outcomes, o.element = e) :
    g.mesh? c = some m ↔ AtOnce outcomes c m :=
  (hg.mesh?_eq_some_iff hall).trans (h.atOnce_iff hascending).symm

/-- Steps leave one forest only. -/
theorem unique (hg : CarriedOut f l g) (hg' : CarriedOut f l g') : g = g' := by
  refine hg.sound.eq_of_mesh? hg'.sound (hg.layout_eq.trans hg'.layout_eq.symm) fun c => ?_
  by_cases hleft : ∃ step ∈ l, ∃ v, step.Leaves c v
  · obtain ⟨step, hs, v, hl⟩ := hleft
    rw [hg.mesh?_of_leaves step hs c v hl, hg'.mesh?_of_leaves step hs c v hl]
  · have hnot : ∀ step ∈ l, ∀ v, ¬ step.Leaves c v := fun step hs v hl => hleft ⟨step, hs, v, hl⟩
    rw [hg.mesh?_of_untouched c hnot, hg'.mesh?_of_untouched c hnot]

theorem perm (hg : CarriedOut f l g) (hl : l.Perm l') : CarriedOut f l' g where
  sound := hg.sound
  layout_eq := hg.layout_eq
  mesh?_of_leaves step hs := hg.mesh?_of_leaves step (hl.mem_iff.2 hs)
  mesh?_of_untouched c hc := hg.mesh?_of_untouched c fun step hs => hc step (hl.mem_iff.1 hs)

end CarriedOut

/-- Steps that can be carried out can be carried out in any order. -/
theorem Feasible.perm {l l' : List (Step D)} (h : Feasible f l) (hl : l.Perm l') :
    Feasible f l' where
  valid step hs := h.valid step (hl.mem_iff.2 hs)
  subjects_mem step hs := h.subjects_mem step (hl.mem_iff.2 hs)
  disjoint := (hl.pairwise_iff fun hab e hb ha => hab e ha hb).1 h.disjoint

/-- In whatever order the steps of a round are carried out, they leave the same forest. -/
theorem Feasible.carryOut_perm (hf : f.Sound) {l l' : List (Step D)} (h : Feasible f l)
    (hl : l'.Perm l) (start start' : Summary) :
    ∃ summary, f.carryOut start' l' = (.ok summary, (f.carryOut start l).2) := by
  obtain ⟨-, hg⟩ := h.carryOut (s := start) hf
  obtain ⟨⟨summary, hok⟩, hg'⟩ := (h.perm hl.symm).carryOut (s := start') hf
  exact ⟨summary, Prod.ext hok ((hg'.perm hl).unique hg)⟩

/-! ### Rounds over forests that were reached -/

/-- A round that succeeds has the same effect as letting all elements act on their decisions at
once, and so have its steps in any order. -/
theorem Reachable.refineInOrder_atOnce (hf : Reachable f) {order : List (Element D)}
    (horder : order.Perm f.elements) {summary : Summary}
    (hok : (f.refineInOrder config order).1 = .ok summary) :
    ∃ s, f.settlement config order = .ok s ∧ f.OutcomesOf s.outcomes ∧
      (∀ c r, (f.refineInOrder config order).2.records[c]? = some r ↔
        AtOnce s.outcomes c r.mesh ∧ r.neighborhood =
          f.layout.neighborhoodAmong c (f.refineInOrder config order).2.elements) ∧
      ∀ start, ∀ l : List (Step D), l.Perm (steps s.outcomes) →
        ∃ summary', f.carryOut start l = (.ok summary', (f.refineInOrder config order).2) := by
  obtain ⟨s, final, h, hsettled, hcover, hg⟩ := hf.sound.exists_settled horder hok
  refine ⟨s, h, ?_, fun c r => ?_, fun start l hl => ?_⟩
  · refine ⟨fun e => ⟨hcover e, ?_⟩, fun o ho o' ho' => hsettled.eq_of_element ho ho',
      fun o ho r hr => ?_⟩
    · rintro ⟨o, ho, rfl⟩
      exact hsettled.mem ho
    · obtain ⟨r', hr', -, happly⟩ := hsettled.acted o ho
      rw [hr, Option.some.injEq] at hr'
      exact hr' ▸ happly
  · rw [hg.sound.getElem?_eq_some_iff, hg.mesh?_eq_some_iff hcover,
      hsettled.atOnce_iff (ascending_of_settlement h), hg.layout_eq]
  · rw [refineInOrder_of_ok h]
    exact hsettled.feasible.carryOut_perm hf.sound hl _ start

/-- In the mixed forest two elements join, and the steps may as well be carried out backwards. -/
theorem refineInOrder_atOnce_mixedForest :
    ∃ s, mixedForest.settlement coarsest mixedForest.elements = .ok s ∧
      AtOnce s.outcomes (square (1, 0) (0, 0)) squareMesh ∧
      ∃ summary, mixedForest.carryOut {} (steps s.outcomes).reverse
        = (.ok summary, (mixedForest.refine coarsest).2) := by
  obtain ⟨s, hs, -, hrecords, hperm⟩ := Reachable.refineInOrder_atOnce reachable_mixedForest
    (.refl _) refineInOrder_mixedForest
  refine ⟨s, hs, ?_, hperm _ _ (List.reverse_perm _)⟩
  have hmesh : (mixedForest.refineInOrder coarsest mixedForest.elements).2.mesh?
      (square (1, 0) (0, 0)) = some squareMesh := by
    decide +kernel
  obtain ⟨r, hr, hrm⟩ := Option.map_eq_some_iff.1 hmesh
  exact hrm ▸ ((hrecords _ r).1 hr).1

end Forest

end AdaptiveMesh
