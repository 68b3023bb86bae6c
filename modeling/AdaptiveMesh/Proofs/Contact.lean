/-
Touching, cell by cell.

Two elements touch when a cell of the one meets a cell of the other.  Cells meet in
two ways: next to each other in one block, or on the two sides of a glued face, and
the elements may be one and the same only in the second way.

That is what makes touching easy to follow through splits and joins.  Whatever
exchange of elements happens, the cells stay where they are: `touching?_of_meets`
hands a contact on to any elements that cover the two cells.  Symmetry, too, is a
matter of two cells.
-/
import AdaptiveMesh.Proofs.Cell
import AdaptiveMesh.Proofs.Gluing

namespace AdaptiveMesh

variable {D : Nat}

/-- The second place comes right after the first one, going to that side. -/
def Side.Follows (s : Side) (i j : Nat) : Prop :=
  match s with
  | lower => j + 1 = i
  | upper => j = i + 1

theorem Side.Follows.symm {s : Side} {i j : Nat} (h : s.Follows i j) :
    s.opposite.Follows j i := by
  cases s with
  | lower => exact Eq.symm h
  | upper => exact Eq.symm h

namespace Cell

/-- The cell lies at the end of its block across the face. -/
def AtEdge (x : Cell D) (f : Face D) : Prop := x.place f.axis = f.side.edge

/-- In one block, the second cell follows the first one across the face. -/
def Next (x : Cell D) (f : Face D) (y : Cell D) : Prop :=
  y.block = x.block ∧ (∀ d, d ≠ f.axis → y.place d = x.place d) ∧
    f.side.Follows (x.place f.axis) (y.place f.axis)

theorem Next.symm {x y : Cell D} {f : Face D} (h : x.Next f y) : y.Next f.opposite x :=
  ⟨h.1.symm, fun d hne => (h.2.1 d hne).symm, h.2.2.symm⟩

theorem Next.not_atEdge {x y : Cell D} {f : Face D} (h : x.Next f y) : ¬ x.AtEdge f := by
  intro hedge
  have hfollows := h.2.2
  have hlt := y.place_lt f.axis
  unfold AtEdge at hedge
  cases hs : f.side <;> simp only [hs, Side.Follows, Side.edge] at hfollows hedge <;> omega

/-- Before the end of the block there is a next cell. -/
theorem exists_next {x : Cell D} {f : Face D} (h : ¬ x.AtEdge f) : ∃ y, x.Next f y := by
  have hplace : ∃ n, n < cellCount ∧ f.side.Follows (x.place f.axis) n := by
    have hlt := x.place_lt f.axis
    unfold AtEdge at h
    cases hs : f.side <;> simp only [hs, Side.edge, Side.Follows] at h ⊢
    · exact ⟨x.place f.axis - 1, by omega, by omega⟩
    · exact ⟨x.place f.axis + 1, by omega, rfl⟩
  obtain ⟨n, hn, hfollows⟩ := hplace
  refine ⟨⟨x.block, fun d => if d = f.axis then n else x.place d, fun d => ?_⟩, rfl,
    fun d hd => if_neg hd, ?_⟩
  · split
    · exact hn
    · exact x.place_lt d
  · simpa only [if_true] using hfollows

end Cell

namespace Layout

/-- The two cells lie on the two sides of a glued face, opposite to each other. -/
def Opposes (L : Layout D) (x : Cell D) (f : Face D) (o : Orientation D) (y : Cell D) : Prop :=
  x.AtEdge f ∧ L.across? x.block f = some ⟨y.block, o⟩ ∧ y.AtEdge (backFace o f) ∧
    ∀ d, d ≠ f.axis → y.place (o.axis d) = o.mapPlace d (x.place d)

/-- At the end of a block a glued face leads to an opposite cell. -/
theorem exists_opposes {L : Layout D} {x : Cell D} {f : Face D} {g : Gluing D}
    (hacross : L.across? x.block f = some g) (hx : x.AtEdge f) :
    ∃ y, y.block = g.block ∧ L.Opposes x f g.orientation y := by
  let o := g.orientation
  have hlt : ∀ t, (if o.source t = f.axis then (backFace o f).side.edge
      else o.mapPlace (o.source t) (x.place (o.source t))) < cellCount := by
    intro t
    split
    · exact (backFace o f).side.edge_lt
    · exact Orientation.mapPlace_lt (x.place_lt _)
  refine ⟨⟨g.block, _, hlt⟩, rfl, hx, hacross, ?_, fun d hd => ?_⟩
  · simp only [Cell.AtEdge, backFace_axis, o, Orientation.source_axis, if_true]
  · simp only [o, Orientation.source_axis, if_neg hd]

theorem Opposes.symm {L : Layout D} (hL : L.Symmetric) {x y : Cell D} {f : Face D}
    {o : Orientation D} (h : L.Opposes x f o y) : L.Opposes y (backFace o f) o.inverse x := by
  obtain ⟨hx, hacross, hy, hplace⟩ := h
  refine ⟨hy, hL _ _ _ hacross, ?_, fun t hne => ?_⟩
  · rwa [backFace_backFace]
  · obtain ⟨d, rfl⟩ := o.exists_axis_eq t
    have hd : d ≠ f.axis := fun heq => hne (by rw [heq, backFace_axis])
    rw [Orientation.inverse_axis_axis, Orientation.mapPlace_inverse, hplace d hd,
      Orientation.mapPlace_mapPlace (x.place_lt d)]

end Layout

/-! ### Inside one block

To adjoin is said of segments, axis by axis.  Cells make one statement of it: along the axis of the
face a place of the one segment follows a place of the other, along every other axis both segments
have a place in common, and these places together are two cells that meet. -/

namespace Segment

variable {s t p : Segment} {side : Side} {i j : Nat}

theorem not_overlaps_of_abuts (h : s.Abuts side t) : ¬ s.Overlaps t := by
  intro hov
  cases side <;> simp only [Abuts, Overlaps] at h hov <;> omega

/-- Where one segment ends and another begins there are two cells that follow each other. -/
theorem exists_follows_of_abuts (h : s.Abuts side t) :
    ∃ i j, s.Covers i ∧ t.Covers j ∧ side.Follows i j := by
  have hs := s.start_lt_stop
  have ht := t.start_lt_stop
  cases side with
  | lower =>
      refine ⟨s.start, t.stop - 1, s.covers_start, t.covers_last, ?_⟩
      simp only [Abuts, Side.Follows] at h ⊢
      omega
  | upper =>
      refine ⟨s.stop - 1, t.start, s.covers_last, t.covers_start, ?_⟩
      simp only [Abuts, Side.Follows] at h ⊢
      omega

theorem abuts_of_follows (hno : ¬ s.Overlaps t) (hi : s.Covers i) (hj : t.Covers j)
    (h : side.Follows i j) : s.Abuts side t := by
  cases side <;> simp only [Abuts, Overlaps, Covers, Side.Follows] at hno hi hj h ⊢ <;> omega

/-- Past the end of a half that lies inside its parent, the parent goes on. -/
theorem covers_parent_of_follows (hp : t.parent? = some s)
    (hside : t.sideInParent? = some side.opposite) (hi : t.Covers i) (h : side.Follows i j) :
    s.Covers j := by
  obtain ⟨hl, half, rfl⟩ := mem_halves.1 (mem_halves_iff_parent?.2 hp)
  obtain rfl : half = side.opposite := by
    cases half <;> simp [sideInParent?, Segment.half] at hside <;> exact hside
  have hw : s.width = 2 * (s.half side.opposite hl).width := width_half hl
  have hpos := (s.half side.opposite hl).width_pos
  have hstart : s.start = 2 * (s.index * (s.half side.opposite hl).width) := by
    rw [start, hw, Nat.mul_left_comm]
  unfold Covers stop at hi ⊢
  rw [hstart, hw]
  unfold start at hi
  cases side <;> simp only [Segment.half, Side.opposite, Side.Follows] at hi h ⊢ <;> grind

/-- The two halves of a segment lie next to each other inside it. -/
theorem abuts_of_parent? (hs : s.parent? = some p) (ht : t.parent? = some p) (hne : s ≠ t) :
    ∃ side, s.sideInParent? = some (Side.opposite side) ∧ s.Abuts side t := by
  obtain ⟨hl, a, rfl⟩ := mem_halves.1 (mem_halves_iff_parent?.2 hs)
  obtain ⟨_, b, rfl⟩ := mem_halves.1 (mem_halves_iff_parent?.2 ht)
  have hab : a ≠ b := fun h => hne (h ▸ rfl)
  refine ⟨a.opposite, by cases a <;> simp [sideInParent?, half, Side.opposite], ?_⟩
  have habuts : (p.half .lower hl).stop = (p.half .upper hl).start := by
    rw [stop_eq, start, show (p.half .lower hl).width = (p.half .upper hl).width from rfl]
    simp [half]
  cases a with
  | lower =>
      cases b with
      | lower => contradiction
      | upper => exact habuts
  | upper =>
      cases b with
      | lower => exact habuts
      | upper => contradiction

/-- Segments that overlap along all axes but one have places in common along all of those. -/
theorem exists_places {s t : Fin D → Segment} {a : Fin D}
    (h : ∀ d, d ≠ a → (s d).Overlaps (t d)) :
    ∃ n : Fin D → Nat, ∀ d, d ≠ a → (s d).Covers (n d) ∧ (t d).Covers (n d) := by
  have hcommon : ∀ d, ∃ n, d ≠ a → (s d).Covers n ∧ (t d).Covers n := by
    intro d
    by_cases hd : d = a
    · exact ⟨0, fun hne => absurd hd hne⟩
    · obtain ⟨n, hn⟩ := overlaps_iff_exists_covers.1 (h d hd)
      exact ⟨n, fun _ => hn⟩
  choose n hn using hcommon
  exact ⟨n, hn⟩

end Segment

namespace Element

variable {e c : Element D} {f : Face D} {o : Orientation D}

/-- Elements adjoin when they share no cell and a cell of the one follows a cell of the other. -/
theorem adjoins_iff : e.Adjoins f c ↔
    ¬ e.Overlaps c ∧ ∃ x y, e.Covers x ∧ c.Covers y ∧ x.Next f y := by
  constructor
  · rintro ⟨hb, hab, hov⟩
    refine ⟨fun h => Segment.not_overlaps_of_abuts hab (h.2 _), ?_⟩
    -- beside the axis of the face take any common place, along it the two places at the border
    obtain ⟨n, hn⟩ := Segment.exists_places hov
    obtain ⟨i, j, hi, hj, hij⟩ := Segment.exists_follows_of_abuts hab
    have he : ∀ d, (e.segment d).Covers (if d = f.axis then i else n d) := by
      intro d
      split
      · next hd => exact hd ▸ hi
      · next hd => exact (hn d hd).1
    have hc : ∀ d, (c.segment d).Covers (if d = f.axis then j else n d) := by
      intro d
      split
      · next hd => exact hd ▸ hj
      · next hd => exact (hn d hd).2
    refine ⟨⟨e.block, _, fun d => (he d).lt⟩, ⟨c.block, _, fun d => (hc d).lt⟩,
      ⟨rfl, he⟩, ⟨rfl, hc⟩, hb, fun d hd => ?_, ?_⟩
    · simp only [if_neg hd]
    · simpa only [if_true] using hij
  · rintro ⟨hno, x, y, hx, hy, hb, hd, hnext⟩
    have hblock : c.block = e.block := hy.1.trans (hb.trans hx.1.symm)
    have hov : ∀ d, d ≠ f.axis → (e.segment d).Overlaps (c.segment d) := by
      intro d hne
      refine Segment.overlaps_iff_exists_covers.2 ⟨x.place d, hx.2 d, ?_⟩
      rw [← hd d hne]
      exact hy.2 d
    -- along the axis of the face they share no cell, since they share one along all others
    have hna : ¬ (e.segment f.axis).Overlaps (c.segment f.axis) := by
      refine fun ha => hno ⟨hblock.symm, fun d => ?_⟩
      by_cases hda : d = f.axis
      · exact hda ▸ ha
      · exact hov d hda
    exact ⟨hblock, Segment.abuts_of_follows hna (hx.2 _) (hy.2 _) hnext, hov⟩

/-! ### Through a glued face

Along the axis of the face there is nothing to compare, as both elements reach the ends of their
blocks there.  Along the other axes places are carried through the gluing one by one. -/

theorem touches_iff : e.Touches f ↔ (e.segment f.axis).Covers f.side.edge :=
  Segment.touches_iff

theorem adjoins_not_touches (h : e.Adjoins f c) : ¬ e.Touches f :=
  fun htouches => Segment.not_abuts_of_touches htouches h.2.1

/-- Elements meet through a glued face when cells of theirs oppose each other there. -/
theorem meetsThrough_iff {L : Layout D} :
    (e.Touches f ∧ L.across? e.block f = some ⟨c.block, o⟩ ∧ e.MeetsThrough o f c) ↔
      ∃ x y, e.Covers x ∧ c.Covers y ∧ L.Opposes x f o y := by
  constructor
  · rintro ⟨ht, hacross, hback, hov⟩
    rw [touches_iff] at ht hback
    obtain ⟨n, hn⟩ := Segment.exists_places hov
    have he : ∀ d, (e.segment d).Covers
        (if d = f.axis then f.side.edge else o.mapPlace d (n d)) := by
      intro d
      split
      · next hd => exact hd ▸ ht
      · next hd => exact (Orientation.covers_mapSegment (hn d hd).1.lt).1 (hn d hd).1
    have hc : ∀ t, (c.segment t).Covers
        (if o.source t = f.axis then (Layout.backFace o f).side.edge else n (o.source t)) := by
      intro t
      split
      · next ht' =>
        have hax : t = (Layout.backFace o f).axis := by
          rw [Layout.backFace_axis, ← ht', Orientation.axis_source]
        rw [hax]
        exact hback
      · next ht' =>
        have := (hn (o.source t) ht').2
        rwa [Orientation.axis_source] at this
    refine ⟨⟨e.block, _, fun d => (he d).lt⟩, ⟨c.block, _, fun t => (hc t).lt⟩,
      ⟨rfl, he⟩, ⟨rfl, hc⟩, ?_, hacross, ?_, fun d hd => ?_⟩
    · simp only [Cell.AtEdge, if_true]
    · simp only [Cell.AtEdge, Layout.backFace_axis, Orientation.source_axis, if_true]
    · simp only [Orientation.source_axis, if_neg hd,
        Orientation.mapPlace_mapPlace (hn d hd).1.lt]
  · rintro ⟨x, y, hx, hy, hxe, hacross, hye, hplace⟩
    refine ⟨?_, ?_, ?_, fun d hd => ?_⟩
    · rw [touches_iff, ← hxe]
      exact hx.2 _
    · rw [hx.1, hy.1]
      exact hacross
    · rw [touches_iff, ← hye]
      exact hy.2 _
    · refine Segment.overlaps_iff_exists_covers.2 ⟨y.place (o.axis d), ?_, hy.2 _⟩
      rw [Orientation.covers_mapSegment (y.place_lt _), hplace d hd,
        Orientation.mapPlace_mapPlace (x.place_lt d)]
      exact hx.2 d

end Element

/-! ### Touching -/

namespace Layout

variable {L : Layout D} {e c : Element D} {f : Face D} {o : Orientation D}

theorem touching?_eq_some : L.touching? e f c = some o ↔
    (e.Adjoins f c ∧ o = .aligned) ∨
      (e.Touches f ∧ L.across? e.block f = some ⟨c.block, o⟩ ∧ e.MeetsThrough o f c) := by
  unfold touching?
  by_cases hadj : e.Adjoins f c
  · have hnt := Element.adjoins_not_touches hadj
    simp only [hadj, if_true, Option.some.injEq, true_and, hnt, false_and, or_false]
    exact eq_comm
  · simp only [hadj, if_false, false_and, false_or]
    by_cases ht : e.Touches f
    · simp only [ht, if_true, true_and]
      cases hg : L.across? e.block f with
      | none => simp
      | some g =>
          obtain ⟨b, p⟩ := g
          simp only [Option.some.injEq, Gluing.mk.injEq]
          constructor
          · intro h
            split at h
            · next hmeets => exact ⟨⟨hmeets.1, Option.some.inj h⟩, Option.some.inj h ▸ hmeets.2⟩
            · contradiction
          · rintro ⟨⟨rfl, rfl⟩, hmeets⟩
            rw [if_pos ⟨rfl, hmeets⟩]
    · simp [ht]

/-- Cells of the two elements meet across the face. -/
theorem touching?_iff_exists_meets : L.touching? e f c = some o ↔
    ∃ x y, e.Covers x ∧ c.Covers y ∧
      ((¬ e.Overlaps c ∧ x.Next f y ∧ o = .aligned) ∨ L.Opposes x f o y) := by
  rw [touching?_eq_some, Element.adjoins_iff, Element.meetsThrough_iff]
  constructor
  · rintro (⟨⟨hno, x, y, hx, hy, hn⟩, ho⟩ | ⟨x, y, hx, hy, hop⟩)
    · exact ⟨x, y, hx, hy, Or.inl ⟨hno, hn, ho⟩⟩
    · exact ⟨x, y, hx, hy, Or.inr hop⟩
  · rintro ⟨x, y, hx, hy, ⟨hno, hn, ho⟩ | hop⟩
    · exact Or.inl ⟨⟨hno, x, y, hx, hy, hn⟩, ho⟩
    · exact Or.inr ⟨x, y, hx, hy, hop⟩

/-- The cells meet across the face, in one block or through a gluing. -/
def Meets (L : Layout D) (x : Cell D) (f : Face D) (o : Orientation D) (y : Cell D) : Prop :=
  (x.Next f y ∧ o = .aligned) ∨ L.Opposes x f o y

theorem exists_meets_of_touching? (h : L.touching? e f c = some o) :
    ∃ x y, e.Covers x ∧ c.Covers y ∧ L.Meets x f o y := by
  obtain ⟨x, y, hx, hy, ⟨-, hn, ho⟩ | hop⟩ := touching?_iff_exists_meets.1 h
  · exact ⟨x, y, hx, hy, Or.inl ⟨hn, ho⟩⟩
  · exact ⟨x, y, hx, hy, Or.inr hop⟩

/-- Elements that share no cell touch when cells of theirs meet. -/
theorem touching?_of_meets {x y : Cell D} (hno : ¬ e.Overlaps c) (hx : e.Covers x)
    (hy : c.Covers y) (h : L.Meets x f o y) : L.touching? e f c = some o := by
  refine touching?_iff_exists_meets.2 ⟨x, y, hx, hy, ?_⟩
  rcases h with ⟨hn, ho⟩ | hop
  · exact Or.inl ⟨hno, hn, ho⟩
  · exact Or.inr hop

/-- Touching is mutual, through inverse orientations. -/
theorem touching?_symm (hL : L.Symmetric) (h : L.touching? e f c = some o) :
    L.touching? c (backFace o f) e = some o.inverse := by
  obtain ⟨x, y, hx, hy, ⟨hno, hn, rfl⟩ | hop⟩ := touching?_iff_exists_meets.1 h
  · refine touching?_iff_exists_meets.2 ⟨y, x, hy, hx, Or.inl ⟨?_, ?_, by simp⟩⟩
    · rwa [Element.overlaps_comm]
    · rw [backFace_aligned]
      exact hn.symm
  · exact touching?_iff_exists_meets.2 ⟨y, x, hy, hx, Or.inr (hop.symm hL)⟩

/-- Whatever touches an element across a face is seen through one orientation. -/
theorem orientation_unique {c' : Element D} {o' : Orientation D}
    (h : L.touching? e f c = some o) (h' : L.touching? e f c' = some o') : o = o' := by
  rw [touching?_eq_some] at h h'
  rcases h with ⟨hadj, rfl⟩ | ⟨ht, hg, -⟩
  · rcases h' with ⟨-, rfl⟩ | ⟨ht', -, -⟩
    · rfl
    · exact absurd ht' (Element.adjoins_not_touches hadj)
  · rcases h' with ⟨hadj', -⟩ | ⟨-, hg', -⟩
    · exact absurd ht (Element.adjoins_not_touches hadj')
    · rw [hg] at hg'
      exact congrArg Gluing.orientation (Option.some.inj hg')

end Layout

end AdaptiveMesh
