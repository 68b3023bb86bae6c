/-
Faces are covered.

A neighbour that is missing does not show in a forest whose records agree with each other, so
that no neighbour is missing has to be read off the tiling.  Take any part of a face of an
element, named by a segment of the finest grid for each axis along the face.  The element has
one cell at that part, and unless the face lies on the boundary of the domain some cell meets
it from the other side: the next one in the same block, or the one opposite to it through the
gluing.  Exactly one element covers that cell.  It touches the element, so it is listed.

No other element that is listed covers the same part.  Whatever touches across the face lies
right behind it, so to cover a part of the face is to cover the cell behind that part.
-/
import AdaptiveMesh.Proofs.Reachable

namespace AdaptiveMesh

variable {D : Nat}

/-! ### The last cell of a segment -/

namespace Segment

variable {s t : Segment} {side : Side} {j : Nat}

/-- The cell at which the segment ends on a side. -/
def last (s : Segment) (side : Side) : Nat :=
  match side with
  | .lower => s.start
  | .upper => s.stop - 1

theorem covers_last_side (s : Segment) (side : Side) : s.Covers (s.last side) := by
  cases side with
  | lower => exact s.covers_start
  | upper => exact s.covers_last

theorem last_eq_edge_iff : s.last side = side.edge ↔ s.Touches side := by
  have hstop := s.stop_le
  have hlt := s.start_lt_stop
  cases side with
  | lower => exact touches_lower_iff.symm
  | upper =>
      rw [touches_upper_iff]
      simp only [last, Side.edge]
      omega

/-- The next cell is the first one of a segment that begins where this one ends. -/
theorem covers_of_abuts_of_follows (h : s.Abuts side t) (hj : side.Follows (s.last side) j) :
    t.Covers j := by
  have hs := s.start_lt_stop
  have ht := t.start_lt_stop
  cases side <;> simp only [Abuts, Side.Follows, last, Covers] at h hj ⊢ <;> omega

theorem not_covers_of_follows (hj : side.Follows (s.last side) j) : ¬ s.Covers j := by
  have hs := s.start_lt_stop
  cases side <;> simp only [Side.Follows, last, Covers] at hj ⊢ <;> omega

end Segment

/-! ### Parts of a face

A part has no place along the axis normal to the face.  Behind a gluing the other axes may be
permuted and run backwards, so whether a neighbour covers a part is a question about the segments as
they are carried there. -/

namespace Element

variable {e c : Element D} {face : Face D} {o : Orientation D} {part : Vector Segment D}
  {x y : Cell D}

/-- The part lies on the face of the element: along every axis but the one normal to the face, its
segment is one of the finest grid and lies inside the element. -/
def HasPart (e : Element D) (face : Face D) (part : Vector Segment D) : Prop :=
  ∀ d, d ≠ face.axis → (part.get d).level = maxLevel ∧ (e.segment d).Contains (part.get d)

instance (e : Element D) (face : Face D) (part : Vector Segment D) :
    Decidable (e.HasPart face part) :=
  inferInstanceAs (Decidable (∀ d, d ≠ face.axis → _ ∧ (e.segment d).Contains _))

/-- Seen through the orientation from the face, the part lies inside the element along every axis
but the one normal to the face. -/
def CoversPart (o : Orientation D) (face : Face D) (part : Vector Segment D) (c : Element D) :
    Prop :=
  ∀ d, d ≠ face.axis →
    (c.segment (o.mapSegment d (part.get d)).1).Contains (o.mapSegment d (part.get d)).2

instance (o : Orientation D) (face : Face D) (part : Vector Segment D) (c : Element D) :
    Decidable (CoversPart o face part c) :=
  inferInstanceAs (Decidable (∀ d, d ≠ face.axis → (c.segment _).Contains _))

/-- The cell lies in the element, at the end towards the face and at the part. -/
structure AtPart (e : Element D) (face : Face D) (part : Vector Segment D) (x : Cell D) : Prop where
  covers : e.Covers x
  place_axis : x.place face.axis = (e.segment face.axis).last face.side
  place_eq : ∀ d, d ≠ face.axis → x.place d = (part.get d).start

theorem exists_atPart (h : e.HasPart face part) : ∃ x, e.AtPart face part x := by
  have hcov : ∀ d, (e.segment d).Covers
      (if d = face.axis then (e.segment d).last face.side else (part.get d).start) := by
    intro d
    split
    · exact Segment.covers_last_side _ _
    · next hd =>
      obtain ⟨hfinest, hin⟩ := h d hd
      exact (Segment.contains_iff_covers hfinest).1 hin
  refine ⟨⟨e.block, _, fun d => (hcov d).lt⟩, ⟨rfl, hcov⟩, if_pos rfl, fun d hd => if_neg hd⟩

theorem AtPart.atEdge_iff (h : e.AtPart face part x) : x.AtEdge face ↔ e.Touches face := by
  unfold Cell.AtEdge
  rw [h.place_axis]
  exact Segment.last_eq_edge_iff

/-- Every face has parts. -/
theorem exists_hasPart (e : Element D) (face : Face D) : ∃ part, e.HasPart face part := by
  have hfinest : ∀ d, ∃ s : Segment, s.level = maxLevel ∧ (e.segment d).Contains s := by
    intro d
    have hstart := (e.segment d).covers_start
    obtain ⟨s, hs, hcov⟩ := Segment.exists_covers_of_level (Nat.le_refl maxLevel) hstart.lt
    refine ⟨s, hs, (Segment.contains_iff_covers hs).2 ?_⟩
    exact Segment.covers_of_level_le ((hs ▸ (e.segment d).level_le)) hstart hcov s.covers_start
  choose s hs using hfinest
  refine ⟨Vector.ofFn s, fun d _ => ?_⟩
  rw [get_ofFn]
  exact hs d

/-- To cover a part is to cover, along the face, the places that it is carried to. -/
theorem coversPart_iff (h : e.HasPart face part) : c.CoversPart o face part ↔
    ∀ d, d ≠ face.axis → (c.segment (o.axis d)).Covers (o.mapPlace d (part.get d).start) := by
  refine forall_congr' fun d => forall_congr' fun hd => ?_
  obtain ⟨hfinest, -⟩ := h d hd
  rw [Segment.contains_iff_covers (Orientation.level_mapSegment.trans hfinest),
    Orientation.start_mapSegment hfinest]
  exact Iff.rfl

end Element

/-! ### The cell behind a part -/

namespace Layout

variable {L : Layout D} {e c : Element D} {face : Face D} {o : Orientation D}
  {part : Vector Segment D} {x y : Cell D}

theorem Meets.place_axis (h : L.Meets x face o y) {d : Fin D} (hd : d ≠ face.axis) :
    y.place (o.axis d) = o.mapPlace d (x.place d) := by
  obtain ⟨hnext, rfl⟩ | hop := h
  · rw [Orientation.axis_aligned, Orientation.mapPlace_aligned]
    exact hnext.2.1 d hd
  · exact hop.2.2.2 d hd

/-- Where one element touches another, the cell behind a cell at its end lies in the block of the
other one, and along the axis normal to the face the other one reaches it. -/
theorem Meets.reaches (h : L.Meets x face o y) (hx : e.AtPart face part x)
    (ho : L.touching? e face c = some o) :
    c.block = y.block ∧ (c.segment (o.axis face.axis)).Covers (y.place (o.axis face.axis)) := by
  -- whether the contact is inside the block or through a gluing, the two cells meet the same way
  rcases touching?_eq_some.1 ho with ⟨hadj, rfl⟩ | ⟨htouches, hacross, hback, -⟩
  · rcases h with ⟨hnext, -⟩ | hop
    · have hfollows := hnext.2.2
      rw [hx.place_axis] at hfollows
      refine ⟨hadj.1.trans (hx.covers.1.trans hnext.1.symm), ?_⟩
      rw [Orientation.axis_aligned]
      exact Segment.covers_of_abuts_of_follows hadj.2.1 hfollows
    · exact absurd (hx.atEdge_iff.1 hop.1) (Element.adjoins_not_touches hadj)
  · rcases h with ⟨hnext, -⟩ | ⟨-, hacross', hyedge, -⟩
    · exact absurd (hx.atEdge_iff.2 htouches) hnext.not_atEdge
    · rw [← hx.covers.1, hacross] at hacross'
      refine ⟨congrArg Gluing.block (Option.some.inj hacross'), ?_⟩
      rw [← backFace_axis, hyedge]
      exact Element.touches_iff.1 hback

/-- What touches across a face covers a part of it exactly if it covers the cell behind it. -/
theorem Meets.covers_iff (h : L.Meets x face o y) (hpart : e.HasPart face part)
    (hx : e.AtPart face part x) (ho : L.touching? e face c = some o) :
    c.Covers y ↔ c.CoversPart o face part := by
  -- across the face everything is settled by the contact, so only the other axes matter
  obtain ⟨hblock, haxis⟩ := h.reaches hx ho
  have hplace : ∀ d, d ≠ face.axis →
      y.place (o.axis d) = o.mapPlace d (part.get d).start := by
    intro d hd
    rw [h.place_axis hd, hx.place_eq d hd]
  rw [Element.coversPart_iff hpart]
  constructor
  · intro hcov d hd
    rw [← hplace d hd]
    exact hcov.2 _
  · refine fun hcov => ⟨hblock, fun t => ?_⟩
    obtain ⟨d, rfl⟩ := o.exists_axis_eq t
    by_cases hd : d = face.axis
    · exact hd ▸ haxis
    · rw [hplace d hd]
      exact hcov d hd

/-- Unless the face lies on the boundary of the domain there is a cell behind each of its parts.
The element itself covers it at most through a gluing. -/
theorem exists_meets (hL : L.Symmetric) (hblock : e.block < L.blocks.length)
    (hx : e.AtPart face part x) (hinner : ¬ (e.Touches face ∧ L.across? e.block face = none)) :
    ∃ o y, L.Meets x face o y ∧ y.block < L.blocks.length ∧
      (e.Covers y → L.Opposes x face o y) := by
  by_cases ht : e.Touches face
  · cases hacross : L.across? e.block face with
    | none => exact absurd ⟨ht, hacross⟩ hinner
    | some g =>
        have hlt := hL.block_lt hacross
        rw [hx.covers.1] at hacross
        obtain ⟨y, hy, hop⟩ := exists_opposes hacross (hx.atEdge_iff.2 ht)
        exact ⟨g.orientation, y, Or.inr hop, hy ▸ hlt, fun _ => hop⟩
  · obtain ⟨y, hnext⟩ := Cell.exists_next fun hedge => ht (hx.atEdge_iff.1 hedge)
    have hfollows := hnext.2.2
    rw [hx.place_axis] at hfollows
    refine ⟨.aligned, y, Or.inl ⟨hnext, rfl⟩, ?_, fun hcov => ?_⟩
    · rw [hnext.1, ← hx.covers.1]
      exact hblock
    · exact absurd (hcov.2 face.axis) (Segment.not_covers_of_follows hfollows)

end Layout

/-! ### Forests -/

namespace Forest

variable {f : Forest D} {e : Element D} {r : Record D} {face : Face D} {part : Vector Segment D}
  {x : Cell D}

/-- Behind each part of an inner face lies a cell that an element covers, and it touches there. -/
theorem Sound.exists_behind (hf : f.Sound) (he : e ∈ f) (hx : e.AtPart face part x)
    (hinner : ¬ (e.Touches face ∧ f.layout.across? e.block face = none)) :
    ∃ o y, f.layout.Meets x face o y ∧
      ∃ c ∈ f, c.Covers y ∧ f.layout.touching? e face c = some o := by
  obtain ⟨o, y, hmeets, hlt, hself⟩ :=
    Layout.exists_meets hf.symmetric (hf.block_lt e he) hx hinner
  obtain ⟨c, hc, hy⟩ := hf.covered y hlt
  refine ⟨o, y, hmeets, c, hc, hy, ?_⟩
  by_cases hce : e = c
  · exact Layout.touching?_iff_exists_meets.2
      ⟨x, y, hx.covers, hy, Or.inr (hself (hce ▸ hy))⟩
  · exact Layout.touching?_of_meets (hf.not_overlaps he hc hce) hx.covers hy hmeets

/-- Nothing is listed across the faces on the boundary of the domain, and only across those. -/
theorem Sound.getElem_neighborhood_eq_none_iff (hf : f.Sound) (hr : f.records[e]? = some r) :
    r.neighborhood[face] = none ↔ e.Touches face ∧ f.layout.across? e.block face = none := by
  constructor
  · intro hnone
    by_contra hinner
    obtain ⟨part, hpart⟩ := e.exists_hasPart face
    obtain ⟨x, hx⟩ := Element.exists_atPart hpart
    obtain ⟨o, -, -, c, hc, -, ho⟩ := hf.exists_behind (mem_of_record hr) hx hinner
    obtain ⟨k, hk, -⟩ := hf.exists_contact hr hc ho
    rw [hk] at hnone
    contradiction
  · rintro ⟨ht, hacross⟩
    refine Option.eq_none_iff_forall_ne_some.2 fun k hk => ?_
    obtain ⟨c, -, ho⟩ := hf.exists_touching hr hk
    rcases Layout.touching?_eq_some.1 ho with ⟨hadj, -⟩ | ⟨-, hacross', -⟩
    · exact Element.adjoins_not_touches hadj ht
    · rw [hacross] at hacross'
      contradiction

/-- Across an inner face each part of it is covered by exactly one of the elements listed. -/
theorem Sound.existsUnique_coversPart (hf : f.Sound) (hr : f.records[e]? = some r) {k : Contact D}
    (hk : r.neighborhood[face] = some k) (hpart : e.HasPart face part) :
    ∃! c, c ∈ k.elements ∧ c.CoversPart k.orientation face part := by
  have hinner : ¬ (e.Touches face ∧ f.layout.across? e.block face = none) := by
    rw [← hf.getElem_neighborhood_eq_none_iff hr, hk]
    simp
  obtain ⟨x, hx⟩ := Element.exists_atPart hpart
  obtain ⟨o, y, hmeets, c, hc, hy, ho⟩ := hf.exists_behind (mem_of_record hr) hx hinner
  obtain ⟨k', hk', hck, rfl⟩ := hf.exists_contact hr hc ho
  obtain rfl : k' = k := Option.some.inj (hk'.symm.trans hk)
  refine ⟨c, ⟨hck, (hmeets.covers_iff hpart hx ho).1 hy⟩, ?_⟩
  -- whoever else covers the part covers the cell behind it, and that cell is covered once
  rintro c' ⟨hck', hcov⟩
  obtain ⟨hc', ho'⟩ := (hf.mem_contact_iff hr hk).1 hck'
  exact hf.eq_of_covers c' hc' c hc y ((hmeets.covers_iff hpart hx ho').2 hcov) hy

/-- Faces are covered completely.  Nothing is listed across a face exactly if it lies on a block
face to which nothing is glued.  Otherwise each part of it is covered by exactly one of the
elements listed there, all of which touch it. -/
theorem Reachable.faces_covered (hf : Reachable f) (hr : f.records[e]? = some r) (face : Face D) :
    (face ∈ r.neighborhood.boundary ↔ e.Touches face ∧ f.layout.across? e.block face = none) ∧
    (face ∉ r.neighborhood.boundary → ∃ k, r.neighborhood[face] = some k ∧
      (∀ c ∈ k.elements, f.layout.touching? e face c = some k.orientation) ∧
      ∀ part, e.HasPart face part →
        ∃! c, c ∈ k.elements ∧ c.CoversPart k.orientation face part) := by
  have hs := hf.sound
  rw [Neighborhood.mem_boundary]
  refine ⟨hs.getElem_neighborhood_eq_none_iff hr, fun hne => ?_⟩
  obtain ⟨k, hk⟩ := Option.ne_none_iff_exists'.1 hne
  exact ⟨k, hk, fun c hc => ((hs.mem_contact_iff hr hk).1 hc).2,
    fun part hpart => hs.existsUnique_coversPart hr hk hpart⟩

section Corner

/-- Axes that correspond crosswise and run against each other. -/
def turn : Orientation 2 :=
  (Orientation.ofDirections #v[⟨1, .lower⟩, ⟨0, .lower⟩]).toOption.get (by decide +kernel)

/-- Two blocks, glued along axes of different number. -/
def corner : Layout 2 :=
  ((Layout.ofExtents [squareMesh.extents, squareMesh.extents]).glue 0 ⟨0, .upper⟩ 1
    turn).toOption.get (by decide +kernel)

theorem built_corner : corner.Built := by
  have hglue : (Layout.ofExtents [squareMesh.extents, squareMesh.extents]).glue 0 ⟨0, .upper⟩ 1
      turn = .ok corner := by decide +kernel
  exact .glue (.ofExtents _) hglue

/-- The two elements of the corner. -/
def cornerForest : Forest 2 :=
  (ofLayout corner .legendre .gaussLobatto).toOption.get (by decide +kernel)

/-- The second block of the corner, or the part of it at a place along the first axis. -/
def farSquare (a : Nat × Nat) : Element 2 := { square a (0, 0) with block := 1 }

/-- The corner with its second block cut along the first axis. -/
def cutCorner : Forest 2 := cornerForest.cut (farSquare (0, 0)) 0

theorem reachable_cutCorner : Reachable cutCorner := by
  have hstart : ofLayout corner .legendre .gaussLobatto = .ok cornerForest := by decide +kernel
  exact .cut (.start built_corner hstart) _ _

/-- One place along the second axis of the first block. -/
def cornerPart : Vector Segment 2 := (square (0, 0) (16, 40000)).segments

theorem faces_covered_cutCorner :
    ∃ r, cutCorner.records[square (0, 0) (0, 0)]? = some r ∧
      (⟨1, .upper⟩ : Face 2) ∈ r.neighborhood.boundary ∧
      ∃ k, r.neighborhood[(⟨0, .upper⟩ : Face 2)] = some k ∧
        k.elements.toList = [farSquare (1, 0), farSquare (1, 1)] ∧
        ∀ c ∈ k.elements, c.CoversPart k.orientation ⟨0, .upper⟩ cornerPart →
          c = farSquare (1, 0) := by
  have hlisted : (cutCorner.records[square (0, 0) (0, 0)]?.bind fun r =>
      r.neighborhood[(⟨0, .upper⟩ : Face 2)]).map (fun k => (k.orientation, k.elements.toList)) =
      some (turn, [farSquare (1, 0), farSquare (1, 1)]) := by decide +kernel
  obtain ⟨k, hbind, hk⟩ := Option.map_eq_some_iff.1 hlisted
  obtain ⟨r, hr, hkr⟩ := Option.bind_eq_some_iff.1 hbind
  obtain ⟨horientation, helements⟩ := Prod.mk.inj hk
  have hboundary := (Reachable.faces_covered reachable_cutCorner hr ⟨1, .upper⟩).1
  obtain ⟨hinner, hcovered⟩ := Reachable.faces_covered reachable_cutCorner hr ⟨0, .upper⟩
  refine ⟨r, hr, hboundary.2 (by decide +kernel), k, hkr, helements, fun c hc hcov => ?_⟩
  obtain ⟨k', hk', -, hunique⟩ := hcovered (mt hinner.1 (by decide +kernel))
  obtain rfl : k' = k := Option.some.inj (hk'.symm.trans hkr)
  refine (hunique cornerPart (by decide +kernel)).unique ⟨hc, hcov⟩ ⟨?_, ?_⟩
  · rw [← Std.ExtTreeSet.mem_toList, helements]
    exact List.mem_cons_self
  · rw [horientation]
    decide +kernel

end Corner

end Forest

end AdaptiveMesh
