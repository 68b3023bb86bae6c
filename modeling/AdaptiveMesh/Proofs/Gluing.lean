/-
Gluings seen from both sides.

A gluing is recorded on both of its sides, the far one through the inverse
orientation.  For this to describe one and the same gluing, walking through it and
back has to lead to where the walk began: `backFace_backFace` says so of faces and
`mapPlace_mapPlace` of places along an axis.  A layout in which every gluing is
recorded on both sides is `Symmetric`, and that is exactly what `validate` checks.
-/
import AdaptiveMesh.Layout.Adjacency
import AdaptiveMesh.Proofs.Dyadic

namespace AdaptiveMesh

/-- The cell at the end of an axis. -/
def Side.edge : Side → Nat
  | lower => 0
  | upper => cellCount - 1

theorem Side.edge_lt (s : Side) : s.edge < cellCount := by
  have hpos : 0 < cellCount := segmentCount_pos maxLevel
  cases s <;> simp only [edge] <;> omega

/-- A segment reaches the end of an axis when it covers the cell there. -/
theorem Segment.touches_iff {s : Segment} {side : Side} :
    s.Touches side ↔ s.Covers side.edge := by
  have hstop := s.stop_le
  have hlt := s.start_lt_stop
  cases side with
  | lower =>
      rw [touches_lower_iff]
      simp only [Covers, Side.edge]
      omega
  | upper =>
      rw [touches_upper_iff]
      simp only [Covers, Side.edge]
      omega

namespace Orientation

variable {D : Nat} {o : Orientation D}

/-! ### There and back

The image of an upper face says two things, to which axis an axis is sent and whether it is
reversed.  They are kept apart here, for an orientation and for its inverse. -/

theorem mapFace_axis (o : Orientation D) (f : Face D) : (o.mapFace f).axis = o.axis f.axis := by
  unfold mapFace axis
  split <;> rfl

theorem images_get (o : Orientation D) (i : Fin D) :
    o.images.get i = ⟨o.axis i, if o.Reverses i then .lower else .upper⟩ := by
  rcases h : o.images.get i with ⟨a, s⟩
  cases s <;> simp [Reverses, axis, h]

theorem mapFace_eq (o : Orientation D) (f : Face D) :
    o.mapFace f = ⟨o.axis f.axis, if o.Reverses f.axis then f.side.opposite else f.side⟩ := by
  obtain ⟨a, s⟩ := f
  unfold mapFace
  rw [images_get]
  by_cases hr : o.Reverses a <;> cases s <;> simp [hr, Face.opposite, Side.opposite]

theorem inverse_axis (o : Orientation D) (t : Fin D) : o.inverse.axis t = o.source t := by
  simp [inverse, axis]

theorem inverse_axis_axis (o : Orientation D) (i : Fin D) : o.inverse.axis (o.axis i) = i := by
  rw [inverse_axis, source_axis]

theorem reverses_inverse_axis (o : Orientation D) (i : Fin D) :
    o.inverse.Reverses (o.axis i) ↔ o.Reverses i := by
  simp [inverse, Reverses]

theorem ext_images {p : Orientation D} (h : ∀ i, o.images.get i = p.images.get i) : o = p := by
  have himages : o.images = p.images := ext_get h
  cases o
  cases p
  simp_all

@[simp] theorem axis_aligned (i : Fin D) : (aligned : Orientation D).axis i = i := by
  simp [aligned, axis]

@[simp] theorem not_reverses_aligned (i : Fin D) : ¬ (aligned : Orientation D).Reverses i := by
  simp [aligned, Reverses]

@[simp] theorem inverse_aligned : (aligned : Orientation D).inverse = aligned := by
  refine ext_images fun i => ?_
  have ha : (aligned : Orientation D).inverse.axis i = i := by
    have := (aligned : Orientation D).inverse_axis_axis i
    rwa [axis_aligned] at this
  have hr : ¬ (aligned : Orientation D).inverse.Reverses i := by
    have := (aligned : Orientation D).reverses_inverse_axis i
    rw [axis_aligned] at this
    exact fun h => not_reverses_aligned i (this.1 h)
  rw [images_get, images_get, ha, axis_aligned, if_neg hr, if_neg (not_reverses_aligned i)]

@[simp] theorem inverse_inverse (o : Orientation D) : o.inverse.inverse = o := by
  refine ext_images fun i => ?_
  have ha := o.inverse.inverse_axis_axis (o.axis i)
  have hr := o.inverse.reverses_inverse_axis (o.axis i)
  rw [o.inverse_axis_axis] at ha hr
  rw [images_get, images_get, ha]
  simp only [hr, reverses_inverse_axis]

/-! ### Places

An orientation carries a segment to the other side by its index.  That this takes along each of its
cells is what makes touching through a gluing a matter of cells. -/

/-- The place along the corresponding axis of the other side. -/
def mapPlace (o : Orientation D) (d : Fin D) (n : Nat) : Nat :=
  if o.Reverses d then cellCount - 1 - n else n

@[simp] theorem mapPlace_aligned (d : Fin D) (n : Nat) :
    (aligned : Orientation D).mapPlace d n = n :=
  if_neg (not_reverses_aligned d)

theorem mapPlace_lt {d : Fin D} {n : Nat} (h : n < cellCount) : o.mapPlace d n < cellCount := by
  unfold mapPlace
  split <;> omega

theorem mapPlace_mapPlace {d : Fin D} {n : Nat} (h : n < cellCount) :
    o.mapPlace d (o.mapPlace d n) = n := by
  unfold mapPlace
  split <;> omega

theorem mapPlace_inverse (d : Fin D) (n : Nat) :
    o.inverse.mapPlace (o.axis d) n = o.mapPlace d n := by
  unfold mapPlace
  simp only [reverses_inverse_axis]

/-- A segment is carried to the other side cell by cell. -/
theorem covers_mapSegment {d : Fin D} {s : Segment} {n : Nat} (h : n < cellCount) :
    (o.mapSegment d s).2.Covers n ↔ s.Covers (o.mapPlace d n) := by
  unfold mapSegment mapPlace
  by_cases hr : o.Reverses d
  · simp only [hr, if_true]
    exact Segment.covers_flipped_iff h
  · simp only [hr, if_false]

theorem level_mapSegment {d : Fin D} {s : Segment} : (o.mapSegment d s).2.level = s.level := by
  unfold mapSegment
  by_cases hr : o.Reverses d <;> simp only [hr, if_true, if_false, Segment.flipped]

/-- The one cell of a segment of the finest grid is carried to the one cell of another. -/
theorem start_mapSegment {d : Fin D} {s : Segment} (h : s.level = maxLevel) :
    (o.mapSegment d s).2.start = o.mapPlace d s.start := by
  unfold mapSegment mapPlace
  by_cases hr : o.Reverses d
  · have hstart := s.flipped_start_add_stop
    rw [Segment.stop_of_level_eq_maxLevel h] at hstart
    simp only [hr, if_true]
    omega
  · simp only [hr, if_false]

end Orientation

namespace Layout

variable {D : Nat} {L : Layout D} {o : Orientation D}

theorem backFace_axis (o : Orientation D) (f : Face D) :
    (backFace o f).axis = o.axis f.axis := by
  rw [backFace, Face.opposite_axis, Orientation.mapFace_axis]

@[simp] theorem backFace_aligned (f : Face D) : backFace .aligned f = f.opposite := by
  rw [backFace, Orientation.mapFace_eq]
  simp

/-- A walk through a face, seen from the other side, goes back through it. -/
@[simp] theorem backFace_backFace (o : Orientation D) (f : Face D) :
    backFace o.inverse (backFace o f) = f := by
  obtain ⟨a, s⟩ := f
  rw [backFace, backFace, Orientation.mapFace_eq, Orientation.mapFace_eq]
  simp only [Face.opposite, Orientation.inverse_axis_axis, Orientation.reverses_inverse_axis]
  by_cases hr : o.Reverses a <;> cases s <;> simp [hr, Side.opposite]

/-! ### Symmetric layouts -/

/-- What lies across a face of a block exists, and sees the same gluing from its side. -/
def Symmetric (L : Layout D) : Prop :=
  ∀ number face g, L.across? number face = some g →
    L.across? g.block (backFace g.orientation face) = some ⟨number, g.orientation.inverse⟩

theorem across?_eq_some_iff {number : Nat} {face : Face D} {g : Gluing D} :
    L.across? number face = some g ↔ ∃ b, L.blocks[number]? = some b ∧ b.gluings[face] = some g :=
  Option.bind_eq_some_iff

/-- A gluing leads to a block of the layout. -/
theorem Symmetric.block_lt (hL : L.Symmetric) {number : Nat} {face : Face D} {g : Gluing D}
    (h : L.across? number face = some g) : g.block < L.blocks.length := by
  obtain ⟨b, hb, -⟩ := across?_eq_some_iff.1 (hL _ _ _ h)
  exact (List.getElem?_eq_some_iff.1 hb).1

theorem gluingFaultAt?_eq_none_iff {number : Nat} {b : Block D} {face : Face D} :
    L.gluingFaultAt? number b face = none ↔ ∀ g, b.gluings[face] = some g →
      L.across? g.block (backFace g.orientation face) = some ⟨number, g.orientation.inverse⟩ := by
  unfold gluingFaultAt?
  split
  · next hnone => simp [hnone]
  · next g hg =>
    rw [hg]
    have hall : (∀ g', some g = some g' → L.across? g'.block (backFace g'.orientation face)
        = some ⟨number, g'.orientation.inverse⟩) ↔ L.across? g.block (backFace g.orientation face)
        = some ⟨number, g.orientation.inverse⟩ :=
      ⟨fun h => h g rfl, fun h g' hg' => Option.some.inj hg' ▸ h⟩
    rw [hall, across?]
    cases hb : L.blocks[g.block]? with
    | none => simp
    | some other =>
        rw [Option.bind_some]
        by_cases hback : other.gluings[backFace g.orientation face]
            = some ⟨number, g.orientation.inverse⟩
        · simp [hback]
        · simp [hback]

/-- The check of a layout succeeds exactly on the symmetric ones. -/
theorem validate_eq_ok_iff : L.validate = .ok () ↔ L.Symmetric := by
  have hfault : L.gluingFault? = none ↔ L.Symmetric := by
    simp only [gluingFault?, List.findSome?_eq_none_iff, Prod.forall,
      List.mem_zipIdx_iff_getElem?, Face.mem_all, true_implies, gluingFaultAt?_eq_none_iff]
    constructor
    · intro h number face g hg
      obtain ⟨b, hb, hbg⟩ := across?_eq_some_iff.1 hg
      exact h b number hb face g hbg
    · intro h b number hb face g hg
      exact h number face g (across?_eq_some_iff.2 ⟨b, hb, hg⟩)
  unfold validate
  cases hf : L.gluingFault? with
  | none => exact iff_of_true rfl (hfault.1 hf)
  | some fault => exact iff_of_false (by simp) fun h => by simp [hfault.2 h] at hf

end Layout

end AdaptiveMesh
