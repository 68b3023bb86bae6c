/-
Siblings that join together.

When all siblings are there, an element that adjoins one of them where the parent goes on
is a sibling itself: it covers a cell of the parent, and each of those belongs to a
sibling.  That is a fact about cells, and it carries everything here.

Consider an element that no other element is finer than, along any axis.  In a run that
steers and has only joins left to do, nothing leads beyond the levels of this element, so
nothing can make it or its siblings split or stay.  If its siblings are all there, they
all join: this is kept by every balancing, whatever the other elements do.  Along a single
axis the siblings of such an element are always there.
-/
import AdaptiveMesh.Proofs.Steering

namespace AdaptiveMesh

namespace Forest

variable {D : Nat} {f : Forest D} {config : Config D} {t : Target D} {e c n p : Element D}
  {flags : Decision D} {l : List (Element D)} {face : Face D} {x : Cell D}
  {order : List (Element D)} {s : Settlement D} {o : Outcome D}

/-! ### Where all siblings are there

These are facts about how elements tile a block, whatever the run.  A deepest element is where they
are put to use.  Along a single axis nothing but its sibling can lie in the place of the sibling,
since nothing is finer, and what is coarser would take up the place of the deepest element too. -/

/-- If all children of an element are there, whatever else covers a cell of it is one of them. -/
theorem Sound.mem_children_of_covers (hf : f.Sound) (hl : p.children flags = .ok l)
    (hall : ∀ c ∈ l, c ∈ f) (hn : n ∈ f) (hx : n.Covers x) (hp : p.Covers x) : n ∈ l := by
  obtain ⟨c, hc, hcx⟩ := (Element.covers_iff_exists_mem_children hl).1 hp
  rwa [hf.eq_of_covers n hn c (hall c hc) x hx hcx]

/-- If all siblings are there, whatever adjoins one of them where its parent goes on is another. -/
theorem Sound.mem_siblings_of_adjoins (hf : f.Sound) (hl : e.siblings flags = .ok l)
    (hall : ∀ c ∈ l, c ∈ f) (hn : n ∈ f) (hadjoins : e.Adjoins face n)
    (hsibling : e.HasPotentialSibling face) (hj : flags.get face.axis = .join) : n ∈ l := by
  obtain ⟨p, hp, hchildren⟩ := Element.siblings_eq_ok hl
  obtain ⟨-, x, y, hx, hy, hblock, hplace, hfollows⟩ := Element.adjoins_iff.1 hadjoins
  refine hf.mem_children_of_covers hchildren hall hn hy ⟨?_, fun d => ?_⟩
  · rw [hblock]
    exact (Element.covers_of_parent hp hx).1
  · by_cases hd : d = face.axis
    · have hparent := (Element.parent_eq_ok hp).2 face.axis
      rw [if_pos hj] at hparent
      rw [hd]
      exact Segment.covers_parent_of_follows hparent hsibling (hx.2 _) hfollows
    · rw [hplace d hd]
      exact (Element.covers_of_parent hp hx).2 d

/-- No element is finer than this one, along any axis. -/
def Deepest (f : Forest D) (e : Element D) : Prop :=
  e ∈ f ∧ ∀ c ∈ f, ∀ d, (c.segment d).level ≤ (e.segment d).level

instance (f : Forest D) (e : Element D) : Decidable (f.Deepest e) :=
  decidable_of_iff (e ∈ f ∧ ∀ c ∈ f.elements, ∀ d, (c.segment d).level ≤ (e.segment d).level)
    (by simp only [Deepest, mem_elements])

/-- Along a single axis, the siblings of a deepest element are there. -/
theorem Sound.mem_of_mem_siblings [Subsingleton (Fin D)] (hf : f.Sound) (he : f.Deepest e)
    (hl : e.siblings flags = .ok l) (hc : c ∈ l) : c ∈ f := by
  obtain ⟨p, hp, hchildren⟩ := Element.siblings_eq_ok hl
  obtain ⟨x, hx⟩ := c.exists_covers
  have hpx : p.Covers x := Element.covers_of_mem_children hchildren hc hx
  have hblock : x.block < f.layout.blocks.length := by
    rw [← hpx.1, (Element.parent_eq_ok hp).1]
    exact hf.block_lt e he.1
  obtain ⟨n, hn, hnx⟩ := hf.covered x hblock
  by_cases hsame : ∀ d, (n.segment d).level = (c.segment d).level
  · rwa [← Element.eq_of_covers hsame hnx hx]
  · -- an element that is coarser than the sibling covers all of the parent, this element included
    have hcoarser : ∀ d, (n.segment d).level ≤ (p.segment d).level := by
      intro d
      push Not at hsame
      obtain ⟨d', hne⟩ := hsame
      obtain rfl := Subsingleton.elim d d'
      rw [Element.level_of_mem_siblings hl hc] at hne
      have hle := he.2 n hn d
      have hlevel := Element.level_of_parent hp d
      split at hlevel <;> omega
    obtain ⟨y, hy⟩ := e.exists_covers
    have hpy := Element.covers_of_parent hp hy
    have hny := Element.covers_of_level_le hcoarser hnx hpx hpy
    obtain rfl := hf.eq_of_covers n hn e he.1 y hny hy
    exact absurd (fun d => (Element.level_of_mem_siblings hl hc d).symm) hsame

/-- Along a single axis, one of the elements is deepest. -/
theorem exists_deepest [Subsingleton (Fin D)] (he : e ∈ f) : ∃ c, f.Deepest c := by
  obtain ⟨c, hc, hmax⟩ := Finset.exists_max_image f.elements.toFinset
    (fun c => (c.segment ⟨0, c.dimension_pos⟩).level) ⟨e, List.mem_toFinset.2 (mem_elements.2 he)⟩
  refine ⟨c, mem_elements.1 (List.mem_toFinset.1 hc), fun c' hc' d => ?_⟩
  obtain rfl := Subsingleton.elim d ⟨0, c.dimension_pos⟩
  exact hmax c' (List.mem_toFinset.2 (mem_elements.2 hc'))

/-! ### With only joins left to do

Two things are kept by the passes, the second by means of the first.  No decision leads beyond the
levels of the deepest element, so none of its siblings is raised for the sake of a neighbour.  Then
each of the siblings sees the others ask for what it asks for itself, and none is left behind. -/

/-- On the way to the target there is nothing to do but to join. -/
structure OnlyJoins (f : Forest D) (t : Target D) : Prop where
  /-- No element is coarser than the target. -/
  level_le : ∀ e ∈ f, ∀ d, t.levels.get d ≤ (e.segment d).level
  /-- Where the levels are right, the extents are. -/
  extents_eq : ∀ (e : Element D) (r : Record D), f.records[e]? = some r → ∀ d,
    (e.segment d).level = t.levels.get d → r.mesh.extents.get d = t.extents.get d

theorem OnlyJoins.eq_approach_of_proposal (h : f.OnlyJoins t) (hsteers : config.Steers t)
    (hbuilt : f.BuiltBy config.rules) (hproposal : f.proposal config e = .ok flags) :
    flags = t.approach e := by
  obtain ⟨r, hr, rfl⟩ := eq_aim_of_proposal hsteers hbuilt hproposal
  exact Target.aim_eq_approach (h.level_le e (mem_of_record hr)) (h.extents_eq e r hr)

/-- Beside a decision that does not lead beyond the levels of a deepest element, neither does the
element that decided on it. -/
theorem Deepest.desired_le (he : f.Deepest e) (hn : n ∈ f)
    (hs : flags.SplitsBelow n fun d => (e.segment d).level) (d : Fin D) :
    (n.desiredLevelsThrough flags .aligned).get d ≤ (e.segment d).level := by
  rw [Element.get_desiredLevelsThrough, Orientation.axis_aligned]
  by_cases hd : flags.get d = .split
  · rw [hd]
    exact hs d hd
  · exact Nat.le_trans (Flag.levelFrom_le_of_ne_split hd) (he.2 n hn d)

section Deepest

variable (hf : f.Sound) (hfree : f.layout.Unconnected) (hsteers : config.Steers t)
  (he : f.Deepest e)

include hf hfree hsteers he

/-- Nothing leads beyond the levels of a deepest element. -/
theorem preserves_splitsBelow : f.Preserves config fun c flags =>
    flags.SplitsBelow c fun d => (e.segment d).level := by
  intro decisions hpublished hbelow c r flags flags' hr hd hsettles
  refine hsettles.splitsBelow hsteers.unlimited.isotropy_eq (hpublished.enforced c _ hd).canJoin
    (hbelow c flags hd) fun face levels hannounced => ?_
  obtain ⟨k, hk, n, hn, theirs, htheirs, rfl⟩ := hannounced
  obtain ⟨hnf, htouch⟩ := (hf.mem_contact_iff hr hk).1 hn
  rw [(hfree.adjoins htouch).2]
  exact he.desired_le hnf (hbelow n theirs htheirs)

variable (hl : e.siblings (t.approach e) = .ok l) (hall : ∀ c ∈ l, c ∈ f)

include hl hall

/-- If the siblings of a deepest element are all there, they stay with what the target asks of
them. -/
theorem preserves_approach : f.Preserves config fun c flags =>
    (flags.SplitsBelow c fun d => (e.segment d).level) ∧ (c ∈ l → flags = t.approach e) := by
  intro decisions hpublished hP c r flags flags' hr hd hsettles
  refine ⟨preserves_splitsBelow hf hfree hsteers he decisions hpublished
    (fun c flags hd => (hP c flags hd).1) c r flags flags' hr hd hsettles, fun hc => ?_⟩
  obtain rfl := (hP c flags hd).2 hc
  obtain ⟨p, hp, -⟩ := Element.siblings_eq_ok hl
  have hcl := Element.siblings_eq_of_mem hp (Element.parent_of_mem_siblings hp hl hc) hl hc
  have hlevel := Element.level_of_mem_siblings hl hc
  refine hsettles.eq_of_content (hpublished.enforced c _ hd).canJoin
    (Decision.dropJoinsBesideSplit_of_not_has_split Target.not_has_split_approach)
    fun face levels hannounced => ?_
  obtain ⟨k, hk, n, hn, theirs, htheirs, rfl⟩ := hannounced
  obtain ⟨hnf, htouch⟩ := (hf.mem_contact_iff hr hk).1 hn
  obtain ⟨hadjoins, horientation⟩ := hfree.adjoins htouch
  obtain ⟨hbelow, hsame⟩ := hP n theirs htheirs
  rw [horientation]
  refine ⟨fun d => Standing.asked?_eq_none_of_le ?_, fun hsibling hjoin => ?_⟩
  · -- the neighbour ends no finer than the element is, which joins once at most
    have hmine := Flag.le_levelFrom_add_one ((t.approach e).get d) (c.segment d).level
    rw [← Element.get_desiredLevels, hlevel] at hmine
    exact Nat.le_trans (he.desired_le hnf hbelow d) hmine
  · have hnl := hf.mem_siblings_of_adjoins hcl hall hnf hadjoins hsibling hjoin
    rw [hsame hnl]
    refine ext_get fun d => ?_
    rw [Element.get_desiredLevelsThrough, Orientation.axis_aligned, Standing.start,
      Element.get_desiredLevels]
    dsimp only [Record.site]
    rw [hlevel, Element.level_of_mem_siblings hl hnl]

/-- If the siblings of a deepest element are all there, they settle on what the target asks of
them. -/
theorem eq_approach_of_deepest (hjoins : f.OnlyJoins t) (hbuilt : f.BuiltBy config.rules)
    (horder : ∀ e ∈ f, e ∈ order) (h : f.settlement config order = .ok s) (ho : o ∈ s.outcomes)
    (hmem : o.element ∈ l) : o.flags = t.approach e := by
  refine (forall_outcomes horder (fun c flags hproposal => ?_)
    (preserves_approach hf hfree hsteers he hl hall) h o ho).2 hmem
  obtain rfl := hjoins.eq_approach_of_proposal hsteers hbuilt hproposal
  exact ⟨fun d hd => absurd ⟨d, hd⟩ Target.not_has_split_approach,
    fun hc => Target.approach_congr (Element.level_of_mem_siblings hl hc)⟩

end Deepest

end Forest

end AdaptiveMesh
