/-
Rounds in which all axes do the same.

In an isotropic run an element that joins does so along every axis, and balancing has it
compare with whatever lies where its parent goes on.  Once its decision has settled, that
neighbour will be at the parent's levels, along every axis.  It is not there yet, since then
it would have to share a cell with the element, so it joins as well, and it is the sibling on
the other side of the face.

Siblings that meet at an edge or a corner only are not compared.  But from any sibling to any
other there is a way that crosses one face after another, along each axis once at most, and
the induction is on the axes that were crossed.  So if one sibling joins, all do, and no join
is given up.

Since every element acts on one flag for all of its axes, levels that were the same along all
axes stay so.
-/
import AdaptiveMesh.Proofs.AtOnce
import AdaptiveMesh.Proofs.Isotropy

namespace AdaptiveMesh

variable {D : Nat}

/-! ### From sibling to sibling -/

namespace Element

variable {e c n p : Element D} {flags : Decision D} {l : List (Element D)} {a d : Fin D}

/-- The element that is like the second one along the given axes, and like the first one along all
others. -/
def mixed (e c : Element D) (axes : Finset (Fin D)) : Element D :=
  { e with segments := Vector.ofFn fun d => if d ∈ axes then c.segment d else e.segment d }

theorem segment_mixed (e c : Element D) (axes : Finset (Fin D)) (d : Fin D) :
    (e.mixed c axes).segment d = if d ∈ axes then c.segment d else e.segment d :=
  get_ofFn _ d

theorem mixed_empty (e c : Element D) : e.mixed c ∅ = e := by
  refine ext_segment rfl fun d => ?_
  simp [segment_mixed]

theorem mixed_univ (h : c.block = e.block) : e.mixed c Finset.univ = c := by
  refine ext_segment h.symm fun d => ?_
  simp [segment_mixed]

/-- What is mixed of two children is a child. -/
theorem mixed_mem_children (h : p.children flags = .ok l) (he : e ∈ l) (hc : c ∈ l)
    (axes : Finset (Fin D)) : e.mixed c axes ∈ l := by
  rw [mem_children h] at he hc ⊢
  refine ⟨he.1, fun d => ?_⟩
  rw [segment_mixed]
  by_cases hd : d ∈ axes
  · rw [if_pos hd]
    exact hc.2 d
  · rw [if_neg hd]
    exact he.2 d

/-- What passes from a sibling to those that differ from it along one axis reaches all siblings. -/
theorem forall_mem_siblings {P : Element D → Prop} (hl : e.siblings flags = .ok l) (he : P e)
    (hstep : ∀ n ∈ l, P n → ∀ c ∈ l, ∀ d, (∀ a, a ≠ d → c.segment a = n.segment a) → P c) :
    ∀ c ∈ l, P c := by
  intro c hc
  obtain ⟨p, -, hchildren⟩ := siblings_eq_ok hl
  have hmem := mixed_mem_children hchildren (mem_siblings_self hl) hc
  have hall : ∀ axes, P (e.mixed c axes) := by
    intro axes
    induction axes using Finset.induction_on with
    | empty =>
        rw [mixed_empty]
        exact he
    | insert d axes _ ih =>
        refine hstep _ (hmem axes) ih _ (hmem _) d fun a ha => ?_
        simp [segment_mixed, ha]
  have hblock : c.block = e.block := by
    have hce := ((mem_children hchildren).1 hc).1
    rw [hce, ((mem_children hchildren).1 (mem_siblings_self hl)).1]
  rw [← mixed_univ hblock]
  exact hall _

/-- Two siblings that differ along one axis adjoin, across a face where their parent goes on. -/
theorem exists_adjoins (he : e.parent flags = .ok p) (hc : c.parent flags = .ok p)
    (hother : ∀ a, a ≠ d → c.segment a = e.segment a) (hne : c ≠ e) :
    flags.get d = .join ∧ ∃ side, e.HasPotentialSibling ⟨d, side⟩ ∧ e.Adjoins ⟨d, side⟩ c := by
  obtain ⟨heb, hes⟩ := parent_eq_ok he
  obtain ⟨hcb, hcs⟩ := parent_eq_ok hc
  have hblock : c.block = e.block := hcb.symm.trans heb
  have hd : e.segment d ≠ c.segment d := by
    intro hsame
    refine hne (ext_segment hblock fun a => ?_)
    by_cases ha : a = d
    · rw [ha, hsame]
    · exact hother a ha
  have hed := hes d
  have hcd := hcs d
  by_cases hj : flags.get d = .join
  · rw [if_pos hj] at hed hcd
    obtain ⟨side, hside, habuts⟩ := Segment.abuts_of_parent? hed hcd hd
    refine ⟨hj, side, hside, hblock, habuts, fun a ha => ?_⟩
    rw [hother a ha]
    exact ⟨(e.segment a).start_lt_stop, (e.segment a).start_lt_stop⟩
  · rw [if_neg hj] at hed hcd
    exact absurd (hed.symm.trans hcd) hd

/-- Acting on one flag along all axes keeps the levels the same along all of them. -/
theorem Even.of_levelFrom (he : e.Even) (flag : Flag)
    (h : ∀ d, (c.segment d).level = flag.levelFrom (e.segment d).level) : c.Even := by
  intro a b
  rw [h a, h b, he a b]

end Element

namespace Forest

variable {f : Forest D} {config : Config D} {final : Decisions D} {outcomes : List (Outcome D)}
  {o o' : Outcome D} {c p : Element D} {m : Mesh D} {l : List (Element D)} {face : Face D}
  {k : Orientation D} {x y : Cell D}

namespace Settled

section Isotropic

variable (h : Settled f config final outcomes) (hp : config.policies.isotropy = .isotropic)

include h hp

/-- An element that joins settled on a join along every axis. -/
theorem eq_uniform_join (ho : o ∈ outcomes) (hj : o.flags.Has .join) :
    o.flags = .uniform .join := by
  obtain ⟨flag, hflag⟩ := (h.enforced o ho).exists_uniform hp
  obtain ⟨d, hd⟩ := hj
  rw [hflag, Decision.get_uniform] at hd
  rw [hflag, hd]

/-- An element that settled on a join is content with its neighbours. -/
theorem content_of_join (hf : f.Sound) (ho : o ∈ outcomes) (hj : o.flags = .uniform .join)
    (ho' : o' ∈ outcomes) (hk : f.layout.touching? o.element face o'.element = some k) :
    (Standing.start o.element o.flags).Content o.element face
      (o'.element.desiredLevelsThrough o'.flags k) config.policies.balanceNormal := by
  have henforced := h.enforced o ho
  have hget : o.flags.get face.axis = .join := by
    rw [hj, Decision.get_uniform]
  refine h.content_of_again_ne hf ho ho' hk ?_ fun r revision hr hbal hne again => ?_
  · obtain ⟨r, hr, -⟩ := h.acted o ho
    exact (Policies.permits_of_enforce (henforced.enforce_eq_self hr) _ (Or.inr hget)).1
  · -- a join that was raised ends up as something else along every axis
    have hraised := (Site.balance_from hbal henforced.canJoin).raised
    rw [hj] at hraised hne
    obtain ⟨-, hstrongest⟩ := Policies.get_strongest_of_raisedTo hraised hne
    rcases Policies.enforce_eq_uniform hp again with heq | heq
    · rw [heq, Decision.get_uniform] at hget
      rcases hstrongest with hs | hs <;> rw [hs] at hget <;> contradiction
    · rw [heq, Decision.get_uniform] at hget
      contradiction

/-- Across a face where the parent of an element goes on that settled on a join, some element covers
the cell that follows, and its decision leads it to the levels of the parent. -/
theorem exists_covers_next (hf : f.Sound) (hall : ∀ e ∈ f, ∃ o ∈ outcomes, o.element = e)
    (ho : o ∈ outcomes) (hj : o.flags = .uniform .join) (hop : o.element.parent o.flags = .ok p)
    (hsibling : o.element.HasPotentialSibling face) (hx : o.element.Covers x)
    (hno : ¬ o.element.Covers y) (hnext : x.Next face y) :
    ∃ o' ∈ outcomes, ∃ flag, o'.flags = .uniform flag ∧ o'.element.Covers y ∧
      ¬ o'.element.Covers x ∧
      ∀ a, flag.levelFrom (o'.element.segment a).level = (p.segment a).level := by
  have hlt : y.block < f.layout.blocks.length := by
    rw [hnext.1, ← hx.1]
    exact hf.block_lt _ (h.mem ho)
  obtain ⟨n, hn, hny⟩ := hf.covered y hlt
  obtain ⟨o', ho', rfl⟩ := hall n hn
  have hne : o.element ≠ o'.element := fun heq => hno (heq ▸ hny)
  have htouch : f.layout.touching? o.element face o'.element = some .aligned :=
    Layout.touching?_of_meets (hf.not_overlaps (h.mem ho) hn hne) hx hny (Or.inl ⟨hnext, rfl⟩)
  have hget : ∀ a, o.flags.get a = .join := by
    intro a
    rw [hj, Decision.get_uniform]
  have htogether := (h.content_of_join hp hf ho hj ho' htouch).together hsibling (hget _)
  obtain ⟨flag, hflag⟩ := (h.enforced o' ho').exists_uniform hp
  refine ⟨o', ho', flag, hflag, hny, fun hnx => ?_, fun a => ?_⟩
  · exact hne (hf.eq_of_covers _ (h.mem ho) _ hn x hx hnx)
  · have ha := congrArg (fun v => Vector.get v a) htogether
    have hparent := Element.level_of_parent hop a
    rw [if_pos (hget a)] at hparent
    simp only [Standing.start, Element.get_desiredLevels, Element.get_desiredLevelsThrough,
      Orientation.axis_aligned, hget a, hflag, Decision.get_uniform, hparent] at ha
    simpa [Flag.levelFrom] using ha.symm

/-- Beside an element that settled on a join, where its parent goes on, lies a sibling that settled
on it too. -/
theorem joins_across (hf : f.Sound) (hall : ∀ e ∈ f, ∃ o ∈ outcomes, o.element = e)
    (ho : o ∈ outcomes) (hj : o.flags = .uniform .join) (hop : o.element.parent o.flags = .ok p)
    (hcp : c.parent o.flags = .ok p) (hsibling : o.element.HasPotentialSibling face)
    (hadjoins : o.element.Adjoins face c) :
    ∃ o' ∈ outcomes, o'.element = c ∧ o'.flags = .uniform .join := by
  obtain ⟨hno, x, y, hx, hy, hnext⟩ := Element.adjoins_iff.1 hadjoins
  have hpx := Element.covers_of_parent hop hx
  have hpy := Element.covers_of_parent hcp hy
  obtain ⟨o', ho', flag, hflag, hny, hnx, hlevel⟩ := h.exists_covers_next hp hf hall ho hj hop
    hsibling hx (fun hoy => hno (Element.overlaps_of_covers hoy hy)) hnext
  -- what covers the next cell is finer than the parent, or it would cover all of it
  have hfiner : ∃ a, (p.segment a).level < (o'.element.segment a).level := by
    by_contra hcoarse
    push Not at hcoarse
    exact hnx (Element.covers_of_level_le hcoarse hny hpy hpx)
  obtain ⟨a, ha⟩ := hfiner
  have hflagj : flag = .join := by
    by_contra hnot
    have hle := Flag.le_levelFrom_of_ne_join (l := (o'.element.segment a).level) hnot
    rw [hlevel a] at hle
    omega
  rw [hflagj] at hflag hlevel
  refine ⟨o', ho', Element.eq_of_covers (fun b => ?_) hny hy, hflag⟩
  have hpos := h.canJoin ho' b (by rw [hflag, Decision.get_uniform])
  have hcb := Element.level_of_parent hcp b
  have hb := hlevel b
  rw [hj, if_pos (Decision.get_uniform _ b)] at hcb
  simp only [Flag.levelFrom] at hb
  omega

/-- If one sibling settled on a join, all of them are there and settled on it. -/
theorem forall_siblings_join (hf : f.Sound) (hall : ∀ e ∈ f, ∃ o ∈ outcomes, o.element = e)
    (ho : o ∈ outcomes) (hj : o.flags = .uniform .join)
    (hl : o.element.siblings (.uniform .join) = .ok l) :
    ∀ c ∈ l, ∃ o' ∈ outcomes, o'.element = c ∧ o'.flags = .uniform .join := by
  obtain ⟨p, hparent, -⟩ := Element.siblings_eq_ok hl
  refine Element.forall_mem_siblings hl ⟨o, ho, rfl, hj⟩ fun n hn hjoins c hc d hother => ?_
  obtain ⟨o', ho', rfl, hj'⟩ := hjoins
  by_cases hsame : c = o'.element
  · exact ⟨o', ho', hsame.symm, hj'⟩
  · have hnp := Element.parent_of_mem_siblings hparent hl hn
    have hcp := Element.parent_of_mem_siblings hparent hl hc
    obtain ⟨-, side, hsibling, hadjoins⟩ := Element.exists_adjoins hnp hcp hother hsame
    rw [← hj'] at hnp hcp
    exact h.joins_across hp hf hall ho' hj' hnp hcp hsibling hadjoins

/-- In an isotropic run all joins that settled are complete. -/
theorem complete_of_joinsInto (hf : f.Sound) (hall : ∀ e ∈ f, ∃ o ∈ outcomes, o.element = e)
    (ho : o ∈ outcomes) (hjoins : o.JoinsInto p) : Complete outcomes p := by
  have hj := h.eq_uniform_join hp ho hjoins.2.1
  obtain ⟨l, hl, hchildren, -⟩ := Element.siblings_of_parent hjoins.2.2
  refine ⟨o, ho, hjoins, l, hl, fun c => ⟨fun hc => ?_, fun hc => ?_⟩⟩
  · have hcp := Element.parent_of_mem_siblings hjoins.2.2 hl hc
    rw [hj] at hl
    obtain ⟨o', ho', rfl, hj'⟩ := h.forall_siblings_join hp hf hall ho hj hl c hc
    rw [hj, ← hj'] at hcp
    have hsame : o'.flags = o.flags := hj'.trans hj.symm
    exact ⟨o', ho', ⟨hsame ▸ hjoins.1, hsame ▸ hjoins.2.1, hcp⟩, rfl⟩
  · obtain ⟨o', ho', hjoins', rfl⟩ := hc
    obtain ⟨l', -, hchildren', hmem⟩ := Element.siblings_of_parent hjoins'.2.2
    rw [h.eq_uniform_join hp ho' hjoins'.2.1, ← hj, hchildren, Except.ok.injEq] at hchildren'
    exact hchildren' ▸ hmem

end Isotropic

/-- Once all elements of an even forest have acted on isotropic decisions, the forest is even. -/
theorem even_atOnce (h : Settled f config final outcomes)
    (hp : config.policies.isotropy = .isotropic) (hf : f.Even) (hc : AtOnce outcomes c m) :
    c.Even := by
  cases hc with
  | kept ho _ _ => exact hf _ (h.mem ho)
  | child ho hs hl hc =>
      obtain ⟨flag, hflag⟩ := (h.enforced _ ho).exists_uniform hp
      refine (hf _ (h.mem ho)).of_levelFrom flag fun d => ?_
      rw [Element.levelFrom_of_mem_children hl ((h.enforced _ ho).not_has_join hs) hc d, hflag,
        Decision.get_uniform]
  | parent hcomplete _ =>
      obtain ⟨o, ho, ⟨hs, -, hparent⟩, -⟩ := hcomplete
      obtain ⟨flag, hflag⟩ := (h.enforced _ ho).exists_uniform hp
      refine (hf _ (h.mem ho)).of_levelFrom flag fun d => ?_
      rw [Element.levelFrom_of_parent hparent hs d, hflag, Decision.get_uniform]
  | alone ho _ _ => exact hf _ (h.mem ho)

end Settled

/-! ### Rounds over forests that were reached -/

/-- In an isotropic run over a forest whose elements have the same level along all axes, the axes of
an element never disagree.  If a round succeeds, all elements again have the same level along all
axes, and no join was given up: whatever settled on a join did so with all its siblings. -/
theorem Reachable.even_refineInOrder (hf : Reachable f) (heven : f.Even)
    (hp : config.policies.isotropy = .isotropic) {order : List (Element D)}
    (horder : order.Perm f.elements) :
    (∀ e c d, (f.refineInOrder config order).1 ≠ .error (.isotropyConflict e c d)) ∧
    ∀ summary, (f.refineInOrder config order).1 = .ok summary →
      (f.refineInOrder config order).2.Even ∧ summary.abandonedJoins = 0 ∧
      ∃ s, f.settlement config order = .ok s ∧
        ∀ o ∈ s.outcomes, ∀ p, o.JoinsInto p → Complete s.outcomes p := by
  constructor
  · intro e c d hfail
    exact heven.not_refused_isotropyConflict hp (hf.sound.refused_of_refineInOrder horder hfail)
  · intro summary hok
    obtain ⟨s, final, hs, hsettled, hcover, hg⟩ := hf.sound.exists_settled horder hok
    have hcomplete : ∀ o ∈ s.outcomes, ∀ p, o.JoinsInto p → Complete s.outcomes p :=
      fun o ho p => hsettled.complete_of_joinsInto hp hf.sound hcover ho
    refine ⟨fun c hc => ?_, ?_, s, hs, hcomplete⟩
    · obtain ⟨m, hm⟩ := mem_iff_mesh?.1 hc
      exact hsettled.even_atOnce hp heven
        ((hg.mesh?_eq_some_iff_atOnce hsettled (ascending_of_settlement hs) hcover).1 hm)
    · rw [refineInOrder_of_ok hs] at hok
      refine abandonedJoins_of_carryOut hok fun p first others hstep => ?_
      cases mem_steps.1 hstep with
      | join hj =>
          obtain ⟨hfirst, hinto⟩ := hsettled.mem_joining_iff.1 (hj ▸ List.mem_cons_self)
          exact (hsettled.complete_iff hj).1 (hcomplete first hfirst p hinto)

section Ring

/-- The ring cut into quarters, one of which is cut into quarters again. -/
def evenRing : Forest 2 :=
  (((splitRing.cut (square (1, 1) (0, 0)) 1).cut (square (1, 1) (1, 1)) 0).cut
    (square (2, 2) (1, 1)) 1).cut (square (2, 3) (1, 1)) 1

theorem reachable_evenRing : Reachable evenRing :=
  .cut (.cut (.cut (.cut reachable_splitRing _ _) _ _) _ _) _ _

/-- A run towards a single element that does the same along both axes. -/
def coarsestEven : Config 2 :=
  (towards? #v[0, 0] { isotropy := .isotropic }).get (by decide +kernel)

theorem refineInOrder_evenRing :
    (evenRing.refineInOrder coarsestEven evenRing.elements).1
      = .ok { passes := 3, joins := 1, changes := 3 } := by
  decide +kernel

/-- All elements want to join, but only the small ones have all their siblings, and only they settle
on a join. -/
theorem even_refineInOrder_evenRing :
    evenRing.Even ∧ (evenRing.refine coarsestEven).2.Even ∧
      ∃ summary, (evenRing.refine coarsestEven).1 = .ok summary ∧ summary.joins = 1 ∧
      ∃ s, evenRing.settlement coarsestEven evenRing.elements = .ok s ∧
        ∀ o ∈ s.outcomes, ∀ p, o.JoinsInto p → Complete s.outcomes p := by
  have hstart : evenRing.Even := by decide +kernel
  obtain ⟨heven, -, hcomplete⟩ := (Reachable.even_refineInOrder reachable_evenRing hstart
    (by decide +kernel) (.refl _)).2 _ refineInOrder_evenRing
  exact ⟨hstart, heven, _, refineInOrder_evenRing, rfl, hcomplete⟩

end Ring

end Forest

end AdaptiveMesh
