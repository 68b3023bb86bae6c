/-
Carrying out what was decided.

The steps of a round are carried out one after another, and each of them may fail.
None does: a step needs the elements it is about, its subjects, and the steps of a
round have their subjects to themselves.  `Feasible` is what lets the loop go on, and
carrying out one step leaves the rest feasible.

`Step.Leaves` says what a step leaves in place of an element.  No two steps of a round
say something about one element, so what a whole round leaves is what its steps leave.
-/
import Mathlib.Data.List.Nodup
import AdaptiveMesh.Proofs.Settlement
import AdaptiveMesh.Proofs.SplitJoin

namespace AdaptiveMesh

namespace Forest

variable {D : Nat}

/-! ### Steps -/

/-- The siblings of the first element are exactly the elements that want to join. -/
def Agreed (first : Outcome D) (others : List (Outcome D)) : Prop :=
  ∃ l, first.element.siblings first.flags = .ok l ∧
    ∀ c, c ∈ l ↔ ∃ o ∈ first :: others, o.element = c

namespace Step

/-- The elements that a step is about. -/
def subjects : Step D → List (Element D)
  | .remain o => [o.element]
  | .split e _ _ => [e]
  | .join _ first others => (first :: others).map (·.element)

/-- The parts of a step belong together. -/
def Valid : Step D → Prop
  | .remain _ => True
  | .split e children _ => ∃ flags : Decision D, flags.Has .split ∧ e.children flags = .ok children
  | .join p first others =>
    (∀ o ∈ first :: others, o.flags.Has .join ∧ o.element.parent o.flags = .ok p) ∧
      (first :: others).Pairwise fun a b => a.element ≠ b.element

/-- What a step leaves in place of an element: an element with a mesh, or nothing.  Of an element it
does not touch it says nothing at all. -/
inductive Leaves : Step D → Element D → Option (Mesh D) → Prop where
  | remain {o : Outcome D} : Leaves (.remain o) o.element (some o.mesh)
  | split {e : Element D} {children : List (Element D)} {m : Mesh D} :
      Leaves (.split e children m) e none
  | child {e c : Element D} {children : List (Element D)} {m : Mesh D} (hc : c ∈ children) :
      Leaves (.split e children m) c (some m)
  | sibling {p : Element D} {first o : Outcome D} {others : List (Outcome D)}
      (h : Agreed first others) (ho : o ∈ first :: others) :
      Leaves (.join p first others) o.element none
  | parent {p : Element D} {first : Outcome D} {others : List (Outcome D)} {m : Mesh D}
      (h : Agreed first others)
      (hm : first.mesh.withExtents (largestExtents first others) = .ok m) :
      Leaves (.join p first others) p (some m)
  | givenUp {p : Element D} {first o : Outcome D} {others : List (Outcome D)}
      (h : ¬ Agreed first others) (ho : o ∈ first :: others) :
      Leaves (.join p first others) o.element (some o.mesh)

end Step

variable {f g : Forest D} {e c : Element D} {m : Mesh D} {step : Step D}
  {rest : List (Step D)} {outcomes : List (Outcome D)} {o first : Outcome D}
  {others : List (Outcome D)} {p : Element D} {s : Summary}

namespace Step

/-- The children that a valid step joins, once all of them agreed. -/
theorem Valid.children_of_agreed (hv : (Step.join p first others).Valid)
    (h : Agreed first others) :
    ∃ l flags, Decision.Has flags .split ∧ p.children flags = .ok l ∧
      first.element.siblings first.flags = .ok l ∧
      ∀ c, c ∈ l ↔ ∃ o ∈ first :: others, o.element = c := by
  obtain ⟨hj, hp⟩ := hv.1 first List.mem_cons_self
  obtain ⟨l, hl, hchildren, -⟩ := Element.siblings_of_parent hp
  obtain ⟨l', hl', hmem⟩ := h
  rw [hl, Except.ok.injEq] at hl'
  rw [← hl'] at hmem
  exact ⟨l, _, Decision.has_split_unjoin_iff.2 hj, hchildren, hl, hmem⟩

/-- What a step removes is one of its subjects. -/
theorem Leaves.mem_subjects_of_none (h : step.Leaves c none) : c ∈ step.subjects := by
  cases h with
  | split => exact List.mem_singleton_self c
  | sibling h ho => exact List.mem_map_of_mem ho

/-- What a step adds was not there before. -/
theorem Leaves.mem_subjects (hg : g.Sound) (hv : step.Valid) (hsub : ∀ e ∈ step.subjects, e ∈ g)
    {v : Option (Mesh D)} (h : step.Leaves c v) (hc : c ∈ g) : c ∈ step.subjects := by
  cases h with
  | remain => exact List.mem_singleton_self _
  | split => exact List.mem_singleton_self _
  | child hm =>
      obtain ⟨flags, -, hl⟩ := hv
      have he := hsub _ (List.mem_singleton_self _)
      exact (exchange_children he hl fun _ => Iff.rfl).mem_removed hg hm hc
  | sibling h ho => exact List.mem_map_of_mem ho
  | parent h hm =>
      obtain ⟨l, flags, -, hl, -, hmem⟩ := hv.children_of_agreed h
      have hlg : ∀ c ∈ l, c ∈ g := by
        intro c hc
        obtain ⟨o, ho, rfl⟩ := (hmem c).1 hc
        exact hsub _ (List.mem_map_of_mem ho)
      obtain ⟨o, ho, heq⟩ := (hmem _).1
        ((exchange_parent hl hlg).mem_removed hg (List.mem_singleton_self _) hc)
      exact heq ▸ List.mem_map_of_mem ho
  | givenUp h ho => exact List.mem_map_of_mem ho

end Step

/-! ### One step -/

/-- The forest after some steps, each of which left what it says. -/
structure CarriedOut (f : Forest D) (steps : List (Step D)) (g : Forest D) : Prop where
  /-- The forest is sound again. -/
  sound : g.Sound
  /-- The blocks are as before. -/
  layout_eq : g.layout = f.layout
  /-- Every step left what it says. -/
  mesh?_of_leaves : ∀ step ∈ steps, ∀ c v, step.Leaves c v → g.mesh? c = v
  /-- Nothing happens to an element that no step is about. -/
  mesh?_of_untouched : ∀ c, (∀ step ∈ steps, ∀ v, ¬ step.Leaves c v) → g.mesh? c = f.mesh? c

theorem Sound.perform_remain (hf : f.Sound) (ho : o.element ∈ f) :
    ∃ g s', f.perform s (.remain o) = .ok (g, s') ∧ CarriedOut f [.remain o] g := by
  obtain ⟨m, hm⟩ := mem_iff_mesh?.1 ho
  have huntouched : ∀ c, (∀ step ∈ [Step.remain o], ∀ v, ¬ step.Leaves c v) → o.element ≠ c := by
    rintro c h rfl
    exact h _ (List.mem_singleton_self _) _ .remain
  have hleaves : ∀ g : Forest D, g.mesh? o.element = some o.mesh →
      ∀ step ∈ [Step.remain o], ∀ c v, step.Leaves c v → g.mesh? c = v := by
    intro g hg step hstep c v h
    obtain rfl := List.mem_singleton.1 hstep
    cases h
    exact hg
  unfold perform
  dsimp only
  by_cases hsame : f.mesh? o.element = none ∨ f.mesh? o.element = some o.mesh
  · rw [if_pos hsame]
    have hmesh := hsame.resolve_left (by simp [hm])
    exact ⟨f, s, rfl, hf, rfl, hleaves f hmesh, fun _ _ => rfl⟩
  · rw [if_neg hsame]
    refine ⟨_, _, rfl, hf.setMesh, rfl, hleaves _ ?_, fun c h => ?_⟩
    · rw [mesh?_setMesh, if_pos rfl, hm]
      rfl
    · rw [mesh?_setMesh, if_neg (huntouched c h)]

theorem Sound.perform_split (hf : f.Sound) {children : List (Element D)}
    (hv : (Step.split e children m).Valid) (he : e ∈ f) :
    ∃ g s', f.perform s (.split e children m) = .ok (g, s') ∧
      CarriedOut f [.split e children m] g := by
  obtain ⟨flags, hs, hl⟩ := hv
  obtain ⟨edit, hedit, hx⟩ := hf.exists_split he hs hl m
  refine ⟨edit.forest, _, bind_eq_ok.2 ⟨edit, hedit, rfl⟩, hx.sound, hx.layout_eq,
    fun step hstep c v h => ?_, fun c h => ?_⟩
  · obtain rfl := List.mem_singleton.1 hstep
    rw [hx.mesh?_eq]
    cases h with
    | split => rw [if_neg (Element.not_mem_children hl hs), if_pos (List.mem_singleton_self e)]
    | child hc => rw [if_pos hc]
  · have h := h _ (List.mem_singleton_self _)
    rw [hx.mesh?_eq, if_neg fun hc => h _ (.child hc), if_neg]
    intro hc
    obtain rfl := List.mem_singleton.1 hc
    exact h _ .split

/-! ### Joins

A join cannot fail over its mesh: the largest extents are no smaller than those of the first
element, which had enough points.  And to give a join up is to set some meshes, which makes no
demands on the forest. -/

theorem le_foldl_max {α : Type} (k : α → Nat) (l : List α) (n : Nat) :
    n ≤ l.foldl (fun n a => max n (k a)) n := by
  induction l generalizing n with
  | nil => exact Nat.le_refl n
  | cons a l ih => exact Nat.le_trans (Nat.le_max_left n (k a)) (ih _)

/-- The largest extents are no smaller than those of the first mesh, which has enough points. -/
theorem exists_withExtents_largestExtents (first : Outcome D) (others : List (Outcome D)) :
    ∃ m, first.mesh.withExtents (largestExtents first others) = .ok m := by
  refine Mesh.exists_withExtents fun d => Nat.le_trans (first.mesh.minimum_le d) ?_
  unfold largestExtents
  rw [get_ofFn]
  exact le_foldl_max (fun o : Outcome D => o.mesh.extents.get d) others _

section SetMeshes

variable {l : List (Outcome D)}

theorem Sound.foldl_setMesh (hf : f.Sound) :
    (l.foldl (fun f o => f.setMesh o.element o.mesh) f).Sound := by
  induction l generalizing f with
  | nil => exact hf
  | cons o l ih => exact ih hf.setMesh

theorem layout_foldl_setMesh :
    (l.foldl (fun f o => f.setMesh o.element o.mesh) f).layout = f.layout := by
  induction l generalizing f with
  | nil => rfl
  | cons o l ih => exact ih

theorem mesh?_foldl_setMesh_of_ne (h : ∀ o ∈ l, o.element ≠ c) :
    (l.foldl (fun f o => f.setMesh o.element o.mesh) f).mesh? c = f.mesh? c := by
  induction l generalizing f with
  | nil => rfl
  | cons o l ih =>
      obtain ⟨ho, hl⟩ := List.forall_mem_cons.1 h
      rw [List.foldl_cons, ih hl, mesh?_setMesh, if_neg ho]

theorem mesh?_foldl_setMesh (hl : l.Pairwise fun a b => a.element ≠ b.element) (ho : o ∈ l)
    (hf : o.element ∈ f) :
    (l.foldl (fun f o => f.setMesh o.element o.mesh) f).mesh? o.element = some o.mesh := by
  induction l generalizing f with
  | nil => contradiction
  | cons a l ih =>
      obtain ⟨ha, hl⟩ := List.pairwise_cons.1 hl
      rw [List.foldl_cons]
      rcases List.mem_cons.1 ho with rfl | ho
      · obtain ⟨m, hm⟩ := mem_iff_mesh?.1 hf
        rw [mesh?_foldl_setMesh_of_ne fun b hb => (ha b hb).symm, mesh?_setMesh, if_pos rfl, hm]
        rfl
      · exact ih hl ho (mem_setMesh.2 hf)

end SetMeshes

theorem agreed_iff {l : List (Element D)} (hl : first.element.siblings first.flags = .ok l) :
    (Std.ExtTreeSet.ofList l : ElementSet D)
      = Std.ExtTreeSet.ofList ((first :: others).map (·.element)) ↔ Agreed first others := by
  rw [ElementSet.ofList_eq_ofList_iff]
  simp only [List.mem_map]
  constructor
  · exact fun h => ⟨l, hl, h⟩
  · rintro ⟨l', hl', h⟩
    rw [hl, Except.ok.injEq] at hl'
    exact hl' ▸ h

theorem Sound.perform_join_of_agreed (hf : f.Sound) (hv : (Step.join p first others).Valid)
    (hsub : ∀ o ∈ first :: others, o.element ∈ f) (h : Agreed first others) :
    ∃ g s', f.perform s (.join p first others) = .ok (g, s') ∧
      CarriedOut f [.join p first others] g := by
  obtain ⟨l, flags, hs, hchildren, hl, hmem⟩ := hv.children_of_agreed h
  have hin : ∀ c ∈ l, c ∈ f := by
    intro c hc
    obtain ⟨o, ho, rfl⟩ := (hmem c).1 hc
    exact hsub o ho
  obtain ⟨m, hm⟩ := exists_withExtents_largestExtents first others
  obtain ⟨edit, hedit, hx⟩ := hf.exists_join hs hchildren hin m
  have hperform : f.perform s (.join p first others) = .ok (edit.forest, { s with
      joins := s.joins + 1
      changes := s.changes + edit.changes.length }) := by
    refine bind_eq_ok.2 ⟨l, mapError_eq_ok.2 hl, ?_⟩
    rw [if_pos ((agreed_iff hl).2 h)]
    exact bind_eq_ok.2 ⟨m, mapError_eq_ok.2 hm, bind_eq_ok.2 ⟨edit, hedit, rfl⟩⟩
  refine ⟨_, _, hperform, hx.sound, hx.layout_eq, fun step hstep c v hc => ?_, fun c hc => ?_⟩
  · obtain rfl := List.mem_singleton.1 hstep
    rw [hx.mesh?_eq]
    cases hc with
    | sibling _ ho =>
        have hol := (hmem _).2 ⟨_, ho, rfl⟩
        rw [if_neg, if_pos hol]
        intro hp
        rw [List.mem_singleton.1 hp] at hol
        exact Element.not_mem_children hchildren hs hol
    | parent _ hm' =>
        rw [hm, Except.ok.injEq] at hm'
        rw [if_pos (List.mem_singleton_self p), hm']
    | givenUp h' => exact absurd h h'
  · have hc := hc _ (List.mem_singleton_self _)
    rw [hx.mesh?_eq, if_neg, if_neg]
    · intro hcl
      obtain ⟨o, ho, rfl⟩ := (hmem c).1 hcl
      exact hc _ (.sibling h ho)
    · intro hp
      obtain rfl := List.mem_singleton.1 hp
      exact hc _ (.parent h hm)

theorem Sound.perform_join_of_not_agreed (hf : f.Sound) (hv : (Step.join p first others).Valid)
    (hsub : ∀ o ∈ first :: others, o.element ∈ f) (h : ¬ Agreed first others) :
    ∃ g s', f.perform s (.join p first others) = .ok (g, s') ∧
      CarriedOut f [.join p first others] g := by
  obtain ⟨l, hl, -⟩ := Element.siblings_of_parent (hv.1 first List.mem_cons_self).2
  have hperform : f.perform s (.join p first others) =
      .ok ((first :: others).foldl (fun f o => f.setMesh o.element o.mesh) f,
        { s with abandonedJoins := s.abandonedJoins + 1 }) := by
    refine bind_eq_ok.2 ⟨l, mapError_eq_ok.2 hl, ?_⟩
    rw [if_neg fun heq => h ((agreed_iff hl).1 heq)]
    rfl
  refine ⟨_, _, hperform, hf.foldl_setMesh, layout_foldl_setMesh, fun step hstep c v hc => ?_,
    fun c hc => ?_⟩
  · obtain rfl := List.mem_singleton.1 hstep
    cases hc with
    | sibling h' => exact absurd h' h
    | parent h' => exact absurd h' h
    | givenUp _ ho => exact mesh?_foldl_setMesh hv.2 ho (hsub _ ho)
  · refine mesh?_foldl_setMesh_of_ne ?_
    rintro o ho rfl
    exact hc _ (List.mem_singleton_self _) _ (.givenUp h ho)

/-- A valid step is carried out in every sound forest that has its subjects. -/
theorem Sound.perform (hf : f.Sound) (hv : step.Valid) (hsub : ∀ e ∈ step.subjects, e ∈ f) :
    ∃ g s', f.perform s step = .ok (g, s') ∧ CarriedOut f [step] g := by
  cases step with
  | remain o => exact hf.perform_remain (hsub _ (List.mem_singleton_self _))
  | split e children m => exact hf.perform_split hv (hsub _ (List.mem_singleton_self _))
  | join p first others =>
      have hsub : ∀ o ∈ first :: others, o.element ∈ f := fun o ho =>
        hsub _ (List.mem_map_of_mem ho)
      by_cases h : Agreed first others
      · exact hf.perform_join_of_agreed hv hsub h
      · exact hf.perform_join_of_not_agreed hv hsub h

/-! ### A run of steps

The induction is on the steps, with `Feasible` as the invariant.  A step removes its own subjects
only, so those of the steps that are still to come are all there when their turn comes. -/

/-- What lets steps be carried out one after another. -/
structure Feasible (f : Forest D) (steps : List (Step D)) : Prop where
  /-- The parts of every step belong together. -/
  valid : ∀ step ∈ steps, step.Valid
  /-- The subjects of every step are there. -/
  subjects_mem : ∀ step ∈ steps, ∀ e ∈ step.subjects, e ∈ f
  /-- No two steps share a subject. -/
  disjoint : steps.Pairwise fun a b => ∀ e ∈ a.subjects, e ∉ b.subjects

namespace Feasible

/-- A step touches no subject of a later one. -/
theorem not_leaves_of_mem_subjects (hf : f.Sound) (h : Feasible f (step :: rest)) {b : Step D}
    (hb : b ∈ rest) (hc : c ∈ b.subjects) (v : Option (Mesh D)) : ¬ step.Leaves c v := by
  intro hl
  have hin := h.subjects_mem b (List.mem_cons_of_mem step hb) c hc
  have hstep := hl.mem_subjects hf (h.valid step List.mem_cons_self)
    (h.subjects_mem step List.mem_cons_self) hin
  exact (List.pairwise_cons.1 h.disjoint).1 b hb c hstep hc

/-- After one step the rest can be carried out as before. -/
theorem tail (hf : f.Sound) (h : Feasible f (step :: rest)) (hg : CarriedOut f [step] g) :
    Feasible g rest where
  valid b hb := h.valid b (List.mem_cons_of_mem step hb)
  subjects_mem b hb e he := by
    have hin := h.subjects_mem b (List.mem_cons_of_mem step hb) e he
    rw [mem_iff_mesh?] at hin ⊢
    rw [hg.mesh?_of_untouched e fun a ha v => ?_]
    · exact hin
    · obtain rfl := List.mem_singleton.1 ha
      exact h.not_leaves_of_mem_subjects hf hb he v
  disjoint := (List.pairwise_cons.1 h.disjoint).2

/-- Two steps do not both leave something in place of one element. -/
theorem not_leaves_of_leaves (hf : f.Sound) (h : Feasible f (step :: rest))
    (hg : CarriedOut f [step] g) {v w : Option (Mesh D)} (hl : step.Leaves c v) {b : Step D}
    (hb : b ∈ rest) : ¬ b.Leaves c w := by
  intro hbl
  have hrest := h.tail hf hg
  by_cases hc : c ∈ f
  · have hcb := hbl.mem_subjects hf (h.valid b (List.mem_cons_of_mem step hb))
      (h.subjects_mem b (List.mem_cons_of_mem step hb)) hc
    exact h.not_leaves_of_mem_subjects hf hb hcb v hl
  · -- the first step added the element, so a later step would have it among its subjects
    cases v with
    | none => exact hc (h.subjects_mem step List.mem_cons_self c hl.mem_subjects_of_none)
    | some m =>
        have hcg : c ∈ g :=
          mem_iff_mesh?.2 ⟨m, hg.mesh?_of_leaves step (List.mem_singleton_self _) c _ hl⟩
        have hcb := hbl.mem_subjects hg.sound (hrest.valid b hb) (hrest.subjects_mem b hb) hcg
        exact h.not_leaves_of_mem_subjects hf hb hcb (some m) hl

theorem carriedOut_cons (hf : f.Sound) (h : Feasible f (step :: rest))
    (hg : CarriedOut f [step] g) {g' : Forest D} (hg' : CarriedOut g rest g') :
    CarriedOut f (step :: rest) g' where
  sound := hg'.sound
  layout_eq := hg'.layout_eq.trans hg.layout_eq
  mesh?_of_leaves a ha c v hl := by
    rcases List.mem_cons.1 ha with rfl | ha
    · rw [hg'.mesh?_of_untouched c fun b hb w => h.not_leaves_of_leaves hf hg hl hb]
      exact hg.mesh?_of_leaves a (List.mem_singleton_self _) c v hl
    · exact hg'.mesh?_of_leaves a ha c v hl
  mesh?_of_untouched c hc := by
    rw [hg'.mesh?_of_untouched c fun b hb => hc b (List.mem_cons_of_mem step hb)]
    refine hg.mesh?_of_untouched c fun b hb => ?_
    obtain rfl := List.mem_singleton.1 hb
    exact hc b List.mem_cons_self

/-- Feasible steps are all carried out. -/
theorem carryOut (hf : f.Sound) {steps : List (Step D)} (h : Feasible f steps) :
    (∃ s', (f.carryOut s steps).1 = .ok s') ∧ CarriedOut f steps (f.carryOut s steps).2 := by
  induction steps generalizing f s with
  | nil =>
      refine ⟨⟨s, rfl⟩, hf, rfl, fun step hstep => ?_, fun c _ => rfl⟩
      contradiction
  | cons step rest ih =>
      obtain ⟨g, s', hperform, hg⟩ := hf.perform (s := s) (h.valid step List.mem_cons_self)
        (h.subjects_mem step List.mem_cons_self)
      unfold Forest.carryOut
      rw [hperform]
      obtain ⟨hok, hg'⟩ := ih hg.sound (s := s') (h.tail hf hg)
      exact ⟨hok, h.carriedOut_cons hf hg hg'⟩

end Feasible

end Forest

end AdaptiveMesh
