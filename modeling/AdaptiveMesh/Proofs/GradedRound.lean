/-
When a round keeps a forest graded.

A settled round leads neighbours to levels that are close, but an element whose join is
given up does not get to the levels it decided on: it stays where it was, one level
finer along the axes that were to join.  Its neighbours were balanced against the join.
If one of them joins along such an axis and was not finer to begin with, the two end up
two levels apart.

That is the only way in which a round can leave a graded forest that is no longer
graded, and whenever it happens it does.  The comparison goes cell by cell: what covers
a cell after the round comes from what covered it before.
-/
import AdaptiveMesh.Proofs.Grading
import AdaptiveMesh.Proofs.Reachable

namespace AdaptiveMesh

namespace Forest

variable {D : Nat}

/-! ### Joins

Whether an element joins depends on who else wants to join into its parent.  For the outcome of a
single element it is a case distinction: it does not want to join, it joins, or it gives up. -/

/-- The element joins: it wants to, and so do all its siblings. -/
def Joins (outcomes : List (Outcome D)) (o : Outcome D) : Prop :=
  ∃ p first others, joining outcomes p = first :: others ∧ o ∈ first :: others ∧
    Agreed first others

/-- The element wants to join, but some sibling does not. -/
def GivesUp (outcomes : List (Outcome D)) (o : Outcome D) : Prop :=
  ∃ p first others, joining outcomes p = first :: others ∧ o ∈ first :: others ∧
    ¬ Agreed first others

variable {f g : Forest D} {config : Config D} {final : Decisions D} {outcomes : List (Outcome D)}
  {o o' first : Outcome D} {others : List (Outcome D)} {e c p : Element D} {face : Face D}
  {k : Orientation D} {x : Cell D}

theorem replacement_of_mem_joining (hj : joining outcomes p = first :: others)
    (ho : o ∈ first :: others) : o.replacement = some (.join p) := by
  rw [← hj] at ho
  exact (mem_joining.1 ho).2

theorem joins_iff (hj : joining outcomes p = first :: others) (ho : o ∈ first :: others) :
    Joins outcomes o ↔ Agreed first others := by
  constructor
  · rintro ⟨q, first', others', hj', ho', h⟩
    have hq := replacement_of_mem_joining hj' ho'
    rw [replacement_of_mem_joining hj ho] at hq
    obtain rfl : p = q := by simpa using hq
    rw [hj, List.cons.injEq] at hj'
    obtain ⟨rfl, rfl⟩ := hj'
    exact h
  · exact fun h => ⟨p, first, others, hj, ho, h⟩

theorem givesUp_iff (hj : joining outcomes p = first :: others) (ho : o ∈ first :: others) :
    GivesUp outcomes o ↔ ¬ Joins outcomes o := by
  rw [joins_iff hj ho]
  constructor
  · rintro ⟨q, first', others', hj', ho', h⟩ hagreed
    exact h ((joins_iff hj' ho').1 ((joins_iff hj ho).2 hagreed))
  · exact fun h => ⟨p, first, others, hj, ho, h⟩

theorem exists_joining (ho : o ∈ outcomes) (h : o.replacement = some (.join p)) :
    ∃ first others, joining outcomes p = first :: others ∧ o ∈ first :: others := by
  have hm := mem_joining.2 ⟨ho, h⟩
  obtain ⟨first, others, heq⟩ := List.exists_cons_of_ne_nil (List.ne_nil_of_mem hm)
  exact ⟨first, others, heq, heq ▸ hm⟩

theorem GivesUp.exists_replacement (h : GivesUp outcomes o) :
    ∃ p, o.replacement = some (.join p) := by
  obtain ⟨p, first, others, hj, ho, -⟩ := h
  exact ⟨p, replacement_of_mem_joining hj ho⟩

theorem not_givesUp_of_replacement (h : ∀ p, o.replacement ≠ some (.join p)) :
    ¬ GivesUp outcomes o := by
  intro hgive
  obtain ⟨p, hp⟩ := hgive.exists_replacement
  exact h p hp

/-- What settled wants to join joins or gives up. -/
theorem Settled.joins_of_get_eq_join (h : Settled f config final outcomes) (ho : o ∈ outcomes)
    {d : Fin D} (hd : o.flags.get d = .join) (hnot : ¬ GivesUp outcomes o) : Joins outcomes o := by
  have hrep := h.replacement ho
  cases hr : o.replacement with
  | none =>
      rw [hr] at hrep
      exact absurd ⟨d, hd⟩ (Decision.replacement_eq_none hrep).2
  | some replacement =>
      rw [hr] at hrep
      cases replacement with
      | split children =>
          have hs := (Decision.replacement_eq_split hrep).1
          exact absurd ⟨d, hd⟩ ((h.enforced o ho).not_has_join hs)
      | join p =>
          obtain ⟨first, others, hj, hm⟩ := exists_joining ho hr
          by_contra hjoins
          exact hnot ((givesUp_iff hj hm).2 hjoins)

theorem Joins.not_givesUp (h : Joins outcomes o) : ¬ GivesUp outcomes o := by
  obtain ⟨p, first, others, hj, ho, hagreed⟩ := h
  rw [givesUp_iff hj ho, not_not]
  exact ⟨p, first, others, hj, ho, hagreed⟩

/-! ### Cells before and after

A round exchanges the elements that cover a cell, and leaves the cell where it is.  So two elements
that touch after a round are traced back along two cells that meet, to elements that touched before
or were one. -/

/-- The element comes from that of the outcome: it is the same one if that gave up joining, and
otherwise it has the levels that were decided on. -/
inductive ComesFrom (outcomes : List (Outcome D)) (o : Outcome D) (c : Element D) : Prop where
  | kept (hgive : GivesUp outcomes o) (heq : c = o.element)
  | changed (hnot : ¬ GivesUp outcomes o)
      (hl : ∀ d, (c.segment d).level = (o.flags.get d).levelFrom (o.element.segment d).level)

theorem ComesFrom.level_eq (he : ComesFrom outcomes o e) (hc : ComesFrom outcomes o c)
    (d : Fin D) : (e.segment d).level = (c.segment d).level := by
  cases he with
  | kept hgive he =>
      cases hc with
      | kept _ hc => rw [he, hc]
      | changed hnot => exact absurd hgive hnot
  | changed hnot he =>
      cases hc with
      | kept hgive => exact absurd hgive hnot
      | changed _ hc => rw [he, hc]

/-- Elements with cells that meet touch, unless they are one element. -/
theorem Sound.touching?_of_meets (hf : f.Sound) (he : e ∈ f) (hc : c ∈ f) {y : Cell D}
    (hx : e.Covers x) (hy : c.Covers y) (h : f.layout.Meets x face k y) :
    f.layout.touching? e face c = some k ∨ e = c ∧ k = .aligned := by
  by_cases heq : e = c
  · rcases h with ⟨-, hk⟩ | hop
    · exact Or.inr ⟨heq, hk⟩
    · exact Or.inl (Layout.touching?_iff_exists_meets.2 ⟨x, y, hx, hy, Or.inr hop⟩)
  · exact Or.inl (Layout.touching?_of_meets (hf.not_overlaps he hc heq) hx hy h)

namespace CarriedOut

theorem mem_of_leaves (hg : CarriedOut f (steps outcomes) g) {step : Step D} {m : Mesh D}
    (hp : Planned outcomes step) (h : step.Leaves c (some m)) : c ∈ g :=
  mem_iff_mesh?.2 ⟨m, hg.mesh?_of_leaves step (mem_steps.2 hp) c _ h⟩

/-- What covers a cell after a round comes from what covered it before. -/
theorem exists_outcome (hg : CarriedOut f (steps outcomes) g)
    (h : Settled f config final outcomes) (hf : f.Sound)
    (hall : ∀ e ∈ f, ∃ o ∈ outcomes, o.element = e) (hc : c ∈ g) (hx : c.Covers x) :
    ∃ o ∈ outcomes, o.element.Covers x ∧ ComesFrom outcomes o c := by
  have hlt : x.block < f.layout.blocks.length := by
    rw [← hx.1, ← hg.layout_eq]
    exact hg.sound.block_lt c hc
  obtain ⟨e, he, hex⟩ := hf.covered x hlt
  obtain ⟨o, ho, rfl⟩ := hall e he
  refine ⟨o, ho, hex, ?_⟩
  have hsame : ∀ c' ∈ g, c'.Covers x → c = c' := fun c' hc' hx' =>
    hg.sound.eq_of_covers c hc c' hc' x hx hx'
  have hrep := h.replacement ho
  cases hr : o.replacement with
  | none =>
      rw [hr] at hrep
      obtain ⟨hs, hj⟩ := Decision.replacement_eq_none hrep
      obtain rfl := hsame _ (hg.mem_of_leaves (.remain ho hr) .remain) hex
      refine .changed (not_givesUp_of_replacement (by simp [hr])) fun d => ?_
      exact (Flag.levelFrom_of_ne (fun hd => hs ⟨d, hd⟩) fun hd => hj ⟨d, hd⟩).symm
  | some replacement =>
      rw [hr] at hrep
      cases replacement with
      | split children =>
          obtain ⟨hs, hl⟩ := Decision.replacement_eq_split hrep
          obtain ⟨child, hchild, hcx⟩ := (Element.covers_iff_exists_mem_children hl).1 hex
          obtain rfl := hsame _ (hg.mem_of_leaves (.split ho hr) (.child hchild)) hcx
          exact .changed (not_givesUp_of_replacement (by simp [hr]))
            (Element.levelFrom_of_mem_children hl ((h.enforced o ho).not_has_join hs) hchild)
      | join p =>
          obtain ⟨hs, -, hp⟩ := Decision.replacement_eq_join hrep
          obtain ⟨first, others, hj, hm⟩ := exists_joining ho hr
          by_cases hagreed : Agreed first others
          · obtain ⟨m, hmesh⟩ := exists_withExtents_largestExtents first others
            obtain rfl := hsame p (hg.mem_of_leaves (.join hj) (.parent hagreed hmesh))
              (Element.covers_of_parent hp hex)
            exact .changed ((joins_iff hj hm).2 hagreed).not_givesUp
              (Element.levelFrom_of_parent hp hs)
          · exact .kept ⟨p, first, others, hj, hm, hagreed⟩
              (hsame _ (hg.mem_of_leaves (.join hj) (.givenUp hagreed hm)) hex)

end CarriedOut

/-! ### Levels before and after

Of two neighbours both may go where they decided, and then balancing has seen to it that their
levels are close.  Both may give up joining, and then they are where they were.  Only if one of them
gives up and the other one goes can they end up too far apart, and then the other one joins. -/

/-- The element gives up joining, and a neighbour that is coarser than it along some axis joins
along that axis. -/
def LeftBehind (f : Forest D) (outcomes : List (Outcome D)) (o : Outcome D) : Prop :=
  GivesUp outcomes o ∧ ∃ o' ∈ outcomes, Joins outcomes o' ∧
    ∃ face k, f.layout.touching? o.element face o'.element = some k ∧
      ∃ d, o'.flags.get (k.axis d) = .join ∧
        (o'.element.segment (k.axis d)).level < (o.element.segment d).level

namespace Settled

variable (h : Settled f config final outcomes) (hf : f.Sound)
  (hall : ∀ e ∈ f, ∃ o ∈ outcomes, o.element = e) (hconfig : config.Unrestricted)
  (hgraded : f.Graded)

include h hf hall hconfig hgraded

/-- An element that gives up joining and is not left behind stays close to neighbours that go where
they wanted to. -/
theorem near_of_givesUp (ho : o ∈ outcomes) (ho' : o' ∈ outcomes) (hgive : GivesUp outcomes o)
    (hnot : ¬ GivesUp outcomes o') (hleft : ¬ f.LeftBehind outcomes o)
    (hk : f.layout.touching? o.element face o'.element = some k) (d : Fin D) :
    Near (o.element.segment d).level
      ((o'.flags.get (k.axis d)).levelFrom (o'.element.segment (k.axis d)).level) := by
  have hnear := hf.graded_iff.1 hgraded _ (h.mem ho) _ (h.mem ho') face k hk d
  constructor
  · by_cases hd : o'.flags.get (k.axis d) = .join
    · have hle : (o.element.segment d).level ≤ (o'.element.segment (k.axis d)).level := by
        by_contra hlt
        exact hleft ⟨hgive, o', ho', h.joins_of_get_eq_join ho' hd hnot, face, k, hk, d, hd,
          Nat.lt_of_not_le hlt⟩
      rw [hd, Flag.levelFrom]
      omega
    · have hle := Flag.le_levelFrom_of_ne_join (l := (o'.element.segment (k.axis d)).level) hd
      exact Nat.le_trans hnear.1 (Nat.succ_le_succ hle)
  · -- the neighbour was balanced against levels that are not above those of the element
    obtain ⟨p, hp⟩ := hgive.exists_replacement
    have hrep := h.replacement ho
    rw [hp] at hrep
    have hs := (Decision.replacement_eq_join hrep).1
    have hle := Flag.levelFrom_le_of_ne_split (l := (o.element.segment d).level)
      fun hd => hs ⟨d, hd⟩
    have hdesired := (h.near_desired hf hall hconfig hgraded ho ho' hk d).2
    exact Nat.le_trans hdesired (Nat.succ_le_succ hle)

/-- Where no element is left behind, what comes from neighbours is close. -/
theorem near_of_comesFrom (hleft : ∀ o ∈ outcomes, ¬ f.LeftBehind outcomes o) (ho : o ∈ outcomes)
    (ho' : o' ∈ outcomes) (he : ComesFrom outcomes o e) (hc : ComesFrom outcomes o' c)
    (hk : f.layout.touching? o.element face o'.element = some k) (d : Fin D) :
    Near (e.segment d).level (c.segment (k.axis d)).level := by
  cases he with
  | kept hgive he =>
      subst he
      cases hc with
      | kept _ hc =>
          subst hc
          exact hf.graded_iff.1 hgraded _ (h.mem ho) _ (h.mem ho') face k hk d
      | changed hnot hl =>
          rw [hl]
          exact h.near_of_givesUp hf hall hconfig hgraded ho ho' hgive hnot (hleft o ho) hk d
  | changed hnot hl =>
      rw [hl]
      cases hc with
      | kept hgive hc =>
          subst hc
          have hback := Layout.touching?_symm hf.symmetric hk
          have hnear := h.near_of_givesUp hf hall hconfig hgraded ho' ho hgive hnot (hleft o' ho')
            hback (k.axis d)
          rw [Orientation.inverse_axis_axis] at hnear
          exact hnear.symm
      | changed _ hl' =>
          rw [hl']
          exact h.near_desired hf hall hconfig hgraded ho ho' hk d

end Settled

namespace CarriedOut

theorem mem_of_givesUp (hg : CarriedOut f (steps outcomes) g) (hgive : GivesUp outcomes o) :
    o.element ∈ g := by
  obtain ⟨p, first, others, hj, hm, hagreed⟩ := hgive
  exact hg.mem_of_leaves (.join hj) (.givenUp hagreed hm)

/-- An element that is left behind ends up too far from what its neighbour joins into. -/
theorem not_leftBehind (hg : CarriedOut f (steps outcomes) g)
    (h : Settled f config final outcomes) (hf : f.Sound)
    (hall : ∀ e ∈ f, ∃ o ∈ outcomes, o.element = e) (hgraded : g.Graded) (ho : o ∈ outcomes) :
    ¬ f.LeftBehind outcomes o := by
  rintro ⟨hgive, o', ho', hjoins, face, k, hk, d, hd, hlt⟩
  obtain ⟨x, y, hx, hy, hmeets⟩ := Layout.exists_meets_of_touching? hk
  have hblock : y.block < g.layout.blocks.length := by
    rw [hg.layout_eq, ← hy.1]
    exact hf.block_lt _ (h.mem ho')
  obtain ⟨c, hc, hcy⟩ := hg.sound.covered y hblock
  obtain ⟨o'', ho'', hy'', hcome⟩ := hg.exists_outcome h hf hall hc hcy
  obtain rfl := h.eq_of_element ho'' ho'
    (hf.eq_of_covers _ (h.mem ho'') _ (h.mem ho') y hy'' hy)
  cases hcome with
  | kept hgive' => exact hjoins.not_givesUp hgive'
  | changed hnot hl =>
      rw [← hg.layout_eq] at hmeets
      rcases hg.sound.touching?_of_meets (hg.mem_of_givesUp hgive) hc hx hcy hmeets with
        htouch | ⟨rfl, -⟩
      · have hnear := hg.sound.graded_iff.1 hgraded _ (hg.mem_of_givesUp hgive) c hc face k htouch d
        have hpos := h.canJoin ho'' (k.axis d) hd
        have hle := hnear.1
        rw [hl, hd, Flag.levelFrom] at hle
        omega
      · obtain rfl := h.eq_of_element ho ho''
          (hf.eq_of_covers _ (h.mem ho) _ (h.mem ho'') y hcy hy)
        exact hnot hgive

/-- A round leaves a graded forest graded exactly if it leaves no element behind. -/
theorem graded_iff (hg : CarriedOut f (steps outcomes) g) (h : Settled f config final outcomes)
    (hf : f.Sound) (hall : ∀ e ∈ f, ∃ o ∈ outcomes, o.element = e)
    (hconfig : config.Unrestricted) (hgraded : f.Graded) :
    g.Graded ↔ ∀ o ∈ outcomes, ¬ f.LeftBehind outcomes o := by
  constructor
  · intro hafter o ho
    exact hg.not_leftBehind h hf hall hafter ho
  · intro hleft
    refine hg.sound.graded_iff.2 fun e he c hc face k hk d => ?_
    obtain ⟨x, y, hx, hy, hmeets⟩ := Layout.exists_meets_of_touching? hk
    obtain ⟨o, ho, hox, hcome⟩ := hg.exists_outcome h hf hall he hx
    obtain ⟨o', ho', hoy, hcome'⟩ := hg.exists_outcome h hf hall hc hy
    rw [hg.layout_eq] at hmeets
    rcases hf.touching?_of_meets (h.mem ho) (h.mem ho') hox hoy hmeets with htouch | ⟨heq, rfl⟩
    · exact h.near_of_comesFrom hf hall hconfig hgraded hleft ho ho' hcome hcome' htouch d
    · obtain rfl := h.eq_of_element ho ho' heq
      rw [Orientation.axis_aligned, hcome.level_eq hcome']
      exact Near.refl _

end CarriedOut

/-! ### Rounds over forests that were reached -/

/-- A round of a run without limits of its own leaves a graded forest graded exactly if it leaves
no element behind. -/
theorem Reachable.graded_refineInOrder_iff (hf : Reachable f) (hconfig : config.Unrestricted)
    (hgraded : f.Graded) {order : List (Element D)} (horder : order.Perm f.elements)
    {summary : Summary} (hok : (f.refineInOrder config order).1 = .ok summary) :
    ∃ s, f.settlement config order = .ok s ∧
      ((f.refineInOrder config order).2.Graded
        ↔ ∀ o ∈ s.outcomes, ¬ f.LeftBehind s.outcomes o) := by
  have hs := hf.sound
  cases h : f.settlement config order with
  | error fault =>
      rw [refineInOrder_of_error h] at hok
      contradiction
  | ok s =>
      obtain ⟨final, hsettled, hall⟩ := settled_of_settlement h
      have hcover := hall hs fun e he => horder.mem_iff.2 (mem_elements.2 he)
      obtain ⟨-, hg⟩ := hs.carryOut_of_settlement h { passes := s.passes, deferred := s.deferred }
      rw [refineInOrder_of_ok h]
      exact ⟨s, rfl, hg.graded_iff hsettled hs hcover hconfig hgraded⟩

section Strip

def stripForest : Forest 2 :=
  (ofLayout strip .legendre .gaussLobatto).toOption.get (by decide +kernel)

/-- The strip with its third element cut in halves, of which one is cut again, along the other
axis. -/
def mixedForest : Forest 2 :=
  (stripForest.cut (square (2, 2) (0, 0)) 0).cut (square (3, 5) (0, 0)) 1

theorem reachable_mixedForest : Reachable mixedForest := by
  have hstart : ofLayout strip .legendre .gaussLobatto = .ok stripForest := by decide +kernel
  exact .cut (.cut (.start built_strip hstart) _ _) _ _

/-- A run towards a single element. -/
def coarsest : Config 2 := (towards? (Vector.replicate 2 0) {}).get (by decide +kernel)

theorem unrestricted_coarsest : coarsest.Unrestricted where
  mode_eq := by decide +kernel
  isotropy_eq := by decide +kernel
  limits_eq := by decide +kernel
  balanceNormal_eq := by decide +kernel

theorem graded_mixedForest : mixedForest.Graded := by decide +kernel

theorem refineInOrder_mixedForest :
    (mixedForest.refineInOrder coarsest mixedForest.elements).1
      = .ok { passes := 2, joins := 1, abandonedJoins := 1, changes := 1 } := by
  decide +kernel

theorem graded_refineInOrder_iff_mixedForest :
    ∃ s, mixedForest.settlement coarsest mixedForest.elements = .ok s ∧
      ∃ o ∈ s.outcomes, mixedForest.LeftBehind s.outcomes o := by
  obtain ⟨s, hs, hiff⟩ := Reachable.graded_refineInOrder_iff reachable_mixedForest
    unrestricted_coarsest graded_mixedForest (.refl _) refineInOrder_mixedForest
  refine ⟨s, hs, ?_⟩
  by_contra hleft
  have hafter : (mixedForest.refineInOrder coarsest mixedForest.elements).2.Graded :=
    hiff.2 fun o ho hbehind => hleft ⟨o, ho, hbehind⟩
  revert hafter
  decide +kernel

/-- The third element of the strip is not put together again, and the two before it join. -/
theorem not_graded_refine_mixedForest :
    Reachable mixedForest ∧ coarsest.Unrestricted ∧ mixedForest.Graded ∧
      (∃ summary, (mixedForest.refine coarsest).1 = .ok summary) ∧
      ¬ (mixedForest.refine coarsest).2.Graded :=
  ⟨reachable_mixedForest, unrestricted_coarsest, graded_mixedForest,
    ⟨_, refineInOrder_mixedForest⟩, by decide +kernel⟩

end Strip

end Forest

end AdaptiveMesh
