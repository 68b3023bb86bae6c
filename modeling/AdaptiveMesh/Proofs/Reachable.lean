/-
Forests that can be reached.

A forest is reached from the first elements of a layout by splits, joins and rounds of
refinement in any number and order.  Splits and joins are given arbitrary lists and
parents, rounds arbitrary configurations, and whatever fails leaves what it leaves.

Every one of them keeps a forest sound, and soundness says what matters about a forest
that was reached: its records can be trusted, its elements tile the domain, and a round
over it fails before it has changed anything or not at all.
-/
import AdaptiveMesh.Proofs.Round

namespace AdaptiveMesh

/-- A layout that is built step by step, none of which fails. -/
inductive Layout.Built {D : Nat} : Layout D → Prop where
  | ofExtents (extents : List (Vector Nat D)) : Built (.ofExtents extents)
  | withLevels {L L' : Layout D} (hL : Built L) {number : Nat} {levels : Vector Nat D}
      (h : L.withLevels number levels = .ok L') : Built L'
  | glue {L L' : Layout D} (hL : Built L) {number : Nat} {direction : Direction} {other : Nat}
      {o : Orientation D} (h : L.glue number direction other o = .ok L') : Built L'

namespace Forest

variable {D : Nat}

/-- The forest after an attempt to edit it: a failed one leaves it as it was. -/
def afterEdit (f : Forest D) : Except (Fault D) (Edit D) → Forest D
  | .ok edit => edit.forest
  | .error _ => f

/-- A forest after any number of splits, joins and rounds, successful or not.  A round may ask for
the proposals in any order. -/
inductive Reachable : Forest D → Prop where
  | start {L : Layout D} {basis : Basis} {quadrature : Quadrature} {f : Forest D} (hL : L.Built)
      (h : ofLayout L basis quadrature = .ok f) : Reachable f
  | split {f : Forest D} (hf : Reachable f) (e : Element D) (children : List (Element D))
      (mesh : Mesh D) : Reachable (f.afterEdit (f.split e children mesh))
  | join {f : Forest D} (hf : Reachable f) (parent : Element D) (mesh : Mesh D) :
      Reachable (f.afterEdit (f.join parent mesh))
  | refine {f : Forest D} (hf : Reachable f) (config : Config D) {order : List (Element D)}
      (horder : order.Perm f.elements) : Reachable (f.refineInOrder config order).2

variable {f : Forest D}

theorem Sound.afterEdit (hf : f.Sound) {attempt : Except (Fault D) (Edit D)}
    (h : ∀ edit, attempt = .ok edit → edit.forest.Sound) : (f.afterEdit attempt).Sound := by
  cases attempt with
  | error fault => exact hf
  | ok edit => exact h edit rfl

/-- Every forest that can be reached is sound. -/
theorem Reachable.sound (hf : Reachable f) : f.Sound := by
  induction hf with
  | start hL h => exact (sound_ofLayout h).1
  | split _ e children mesh ih => exact ih.afterEdit fun edit h => (ih.exchanged_of_split h).sound
  | join _ parent mesh ih => exact ih.afterEdit fun edit h => (ih.exchanged_of_join h).sound
  | refine _ config _ ih => exact ih.refineInOrder config _

/-! ### An example

In a ring of two elements each touches the other across two faces, and cutting one of them puts
different levels side by side.  Many statements of later modules are applied to this forest. -/

section Ring

/-- The element of the first block with the given levels and indices along the two axes. -/
def square (a b : Nat × Nat) : Element 2 where
  block := 0
  segments := #v[(Segment.ofLevelIndex a.1 a.2).toOption.getD .root,
    (Segment.ofLevelIndex b.1 b.2).toOption.getD .root]

/-- Three points along each axis. -/
def squareMesh : Mesh 2 :=
  (Mesh.uniform (Vector.replicate 2 3) .legendre .gaussLobatto).toOption.get (by decide +kernel)

/-- The forest after an attempt to cut an element in halves along an axis. -/
def cut (f : Forest 2) (e : Element 2) (axis : Nat) : Forest 2 :=
  let flags : Decision 2 := Vector.ofFn fun d => if d.val = axis then .split else .doNothing
  f.afterEdit (f.split e ((e.children flags).toOption.getD []) squareMesh)

theorem Reachable.cut {f : Forest 2} (hf : Reachable f) (e : Element 2) (axis : Nat) :
    Reachable (f.cut e axis) :=
  .split hf e _ _

/-- A run towards the given levels. -/
def towards? (levels : Vector Nat 2) (policies : Policies 2) : Option (Config 2) := do
  let target ← (Target.ofValues squareMesh.extents levels (.uniform .doNothing) .all).toOption
  (Config.ofParts [.driveToTarget target] policies ⟨.full, .legendre, .gaussLobatto⟩).toOption

/-- A run towards levels that the limits do not allow. -/
def confinedConfig : Config 2 :=
  (towards? #v[9, 0] {
    limits := {
      minLevel := #v[1, 0]
      maxLevel := #v[2, 1]
      minExtent := #v[3, 2]
      maxExtent := #v[3, 20]
      minLevel_le := by decide
      maxLevel_le := by decide
      minExtent_le := by decide
      minExtent_pos := by decide } }).get (by decide +kernel)

/-- One block, cut into four along the first axis. -/
def strip : Layout 2 :=
  ((Layout.ofExtents [squareMesh.extents]).withLevels 0 #v[2, 0]).toOption.get (by decide +kernel)

theorem built_strip : strip.Built := by
  have hlevels : (Layout.ofExtents [squareMesh.extents]).withLevels 0 #v[2, 0] = .ok strip := by
    decide +kernel
  exact .withLevels (.ofExtents _) hlevels

/-- One block whose ends along the first axis are glued to each other, cut once along that axis. -/
def ring : Layout 2 where
  blocks := [{
    extents := squareMesh.extents
    levels := #v[1, 0]
    gluings := ((FaceTable.ofFn fun _ => none).set ⟨0, .upper⟩ (some ⟨0, .aligned⟩)).set
      ⟨0, .lower⟩ (some ⟨0, .aligned⟩)
    levels_le := by decide }]

theorem built_ring : ring.Built := by
  have hglue : ∃ L, (Layout.ofExtents [squareMesh.extents]).glue 0 ⟨0, .upper⟩ 0 .aligned = .ok L ∧
      L.withLevels 0 #v[1, 0] = .ok ring := by
    refine ⟨_, rfl, ?_⟩
    decide +kernel
  obtain ⟨L, hL, hlevels⟩ := hglue
  exact .withLevels (.glue (.ofExtents _) hL) hlevels

/-- The two elements of the ring, each of which touches the other across two faces. -/
def ringForest : Forest 2 :=
  (ofLayout ring .legendre .gaussLobatto).toOption.get (by decide +kernel)

/-- The ring with one of its elements cut along the other axis. -/
def splitRing : Forest 2 := ringForest.cut (square (1, 0) (0, 0)) 1

theorem reachable_splitRing : Reachable splitRing := by
  have hstart : ofLayout ring .legendre .gaussLobatto = .ok ringForest := by decide +kernel
  exact .cut (.start built_ring hstart) _ _

end Ring

end Forest

/-- A run towards finer levels along the first axis and coarser ones along the second. -/
def turning : Config 2 := (Forest.towards? #v[2, 0] {}).get (by decide +kernel)

namespace Forest

variable {D : Nat} {f : Forest D}

/-! ### What holds of a forest that was reached -/

/-- The elements tile the blocks: each lies in a block, no two overlap, and every place on the
finest grid of a block is contained in one of them and overlapped by no other. -/
theorem Reachable.tiling (hf : Reachable f) :
    (∀ e ∈ f, (∃ b, f.layout.blocks[e.block]? = some b) ∧
      ∀ d, (e.segment d).level ≤ maxLevel ∧ (e.segment d).index < (e.segment d).count) ∧
    (∀ e ∈ f, ∀ c ∈ f, e ≠ c → ¬ e.Overlaps c) ∧
    ∀ place : Element D, place.IsFinest → place.block < f.layout.blocks.length →
      ∃ e ∈ f, e.Contains place ∧ ∀ c ∈ f, c.Overlaps place → c = e := by
  have hs := hf.sound
  refine ⟨fun e he => ⟨⟨_, List.getElem?_eq_getElem (hs.block_lt e he)⟩, fun d => ?_⟩,
    fun e he c hc hne => hs.not_overlaps he hc hne, fun place hfinest hlt => ?_⟩
  · exact ⟨(e.segment d).level_le, (e.segment d).index_lt⟩
  · obtain ⟨e, he, hcov⟩ := hs.covered place.cell hlt
    refine ⟨e, he, hfinest.contains_iff.2 hcov, fun c hc hov => ?_⟩
    exact hs.eq_of_covers c hc e he place.cell (hfinest.overlaps_iff.1 hov) hcov

theorem tiling_splitRing :
    ∃ e ∈ splitRing, e.Contains (square (16, 5) (16, 7)) ∧
      ∀ c ∈ splitRing, c.Overlaps (square (16, 5) (16, 7)) → c = e :=
  (Reachable.tiling reachable_splitRing).2.2 _ (by decide +kernel) (by decide +kernel)

/-! ### Rounds that fail -/

/-- A round that fails leaves the forest as it was.  Once the decisions have settled it does not
fail any more: every step is performed without a fault in the forest that the steps before it
left. -/
theorem Reachable.refineInOrder_atomic (hf : Reachable f) (config : Config D)
    (order : List (Element D)) :
    (∀ fault, (f.refineInOrder config order).1 = .error fault →
      (f.refineInOrder config order).2 = f) ∧
    ∀ s, f.settlement config order = .ok s →
      ∀ before step after, steps s.outcomes = before ++ step :: after →
        ∃ g counted next,
          f.carryOut { passes := s.passes, deferred := s.deferred } before = (.ok counted, g) ∧
          g.perform counted step = .ok next := by
  constructor
  · intro fault hfault
    cases h : f.settlement config order with
    | error fault' => rw [refineInOrder_of_error h]
    | ok s =>
        obtain ⟨⟨summary, hok⟩, -⟩ := hf.sound.carryOut_of_settlement h
          { passes := s.passes, deferred := s.deferred }
        rw [refineInOrder_of_ok h, hok] at hfault
        contradiction
  · intro s h before step after hsteps
    obtain ⟨⟨summary, hok⟩, -⟩ := hf.sound.carryOut_of_settlement h
      { passes := s.passes, deferred := s.deferred }
    rw [hsteps] at hok
    exact exists_perform_of_carryOut hok

/-- A strict run towards the levels `0` and `2`, of which the limits allow neither. -/
def strictConfig : Config 2 :=
  (towards? #v[0, 2] {
    limits := {
      minLevel := #v[1, 0]
      maxLevel := #v[16, 1]
      minExtent := #v[1, 1]
      maxExtent := #v[20, 20]
      minLevel_le := by decide
      maxLevel_le := by decide
      minExtent_le := by decide
      minExtent_pos := by decide }
    strict := true }).get (by decide +kernel)

theorem refineInOrder_atomic_splitRing :
    ∃ fault, splitRing.refine strictConfig = (.error fault, splitRing) := by
  have hfail : (splitRing.refineInOrder strictConfig splitRing.elements).1.toOption = none := by
    decide +kernel
  obtain ⟨fault, h⟩ := exists_eq_error_of_toOption hfail
  have hsame := (Reachable.refineInOrder_atomic reachable_splitRing strictConfig _).1 fault h
  exact ⟨fault, Prod.ext h hsame⟩

end Forest

end AdaptiveMesh
