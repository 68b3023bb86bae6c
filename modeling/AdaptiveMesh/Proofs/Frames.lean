/-
Orientations as a group that acts on frames.

An orientation says how everything that has axes looks from the other side of a gluing: faces and
segments are sent to the corresponding axis and turned around where the axes run against each other,
values and meshes are rearranged.  To walk through two gluings is to look through two orientations
one after the other.  Composing must therefore do to each of these what the two orientations do in
turn, and the inverse must take it back.

An orientation is known by what it does to the upper faces (`ext_mapFace`), so the laws of the group
are read off from how faces are sent.
-/
import Mathlib.Data.Fintype.Card
import Mathlib.Data.Fintype.EquivFin
import Mathlib.Data.List.FinRange
import Mathlib.Data.List.Nodup
import AdaptiveMesh.Grid.Mesh
import AdaptiveMesh.Proofs.Gluing

namespace AdaptiveMesh

namespace Orientation

variable {D : Nat} {o p q : Orientation D} {directions : Vector Direction D}

/-! ### Faces -/

theorem mapFace_opposite (o : Orientation D) (f : Face D) :
    o.mapFace f.opposite = (o.mapFace f).opposite := by
  obtain ⟨a, s⟩ := f
  cases s with
  | lower => exact (Face.opposite_opposite _).symm
  | upper => rfl

theorem mapFace_aligned (f : Face D) : (aligned : Orientation D).mapFace f = f := by
  rw [mapFace_eq, axis_aligned, if_neg (not_reverses_aligned _)]

theorem mapFace_compose (o p : Orientation D) (f : Face D) :
    (o.compose p).mapFace f = o.mapFace (p.mapFace f) := by
  have hupper : ∀ a, (o.compose p).mapFace ⟨a, .upper⟩ = o.mapFace (p.mapFace ⟨a, .upper⟩) :=
    fun a => get_ofFn _ a
  obtain ⟨a, s⟩ := f
  cases s with
  | lower =>
      show (o.compose p).mapFace (Face.opposite ⟨a, .upper⟩)
        = o.mapFace (p.mapFace (Face.opposite ⟨a, .upper⟩))
      rw [mapFace_opposite, mapFace_opposite, mapFace_opposite, hupper]
  | upper => exact hupper a

theorem mapFace_inverse_mapFace (o : Orientation D) (f : Face D) :
    o.inverse.mapFace (o.mapFace f) = f := by
  obtain ⟨a, s⟩ := f
  rw [mapFace_eq, mapFace_eq]
  simp only [inverse_axis_axis, reverses_inverse_axis]
  by_cases hr : o.Reverses a
  · simp only [hr, if_true, Side.opposite_opposite]
  · simp only [hr, if_false]

/-- An orientation is known by what it does to the upper faces. -/
theorem ext_mapFace (h : ∀ i, o.mapFace ⟨i, .upper⟩ = p.mapFace ⟨i, .upper⟩) : o = p :=
  ext_images h

/-! ### The group

No law is proved by looking at the images of an orientation.  Each of them says of two orientations
that they are one, and so it is enough to follow an upper face through both. -/

theorem compose_assoc (o p q : Orientation D) :
    (o.compose p).compose q = o.compose (p.compose q) :=
  ext_mapFace fun i => by
    rw [mapFace_compose, mapFace_compose, mapFace_compose, mapFace_compose]

theorem aligned_compose (o : Orientation D) : aligned.compose o = o :=
  ext_mapFace fun i => by rw [mapFace_compose, mapFace_aligned]

theorem compose_aligned (o : Orientation D) : o.compose aligned = o :=
  ext_mapFace fun i => by rw [mapFace_compose, mapFace_aligned]

theorem inverse_compose (o : Orientation D) : o.inverse.compose o = aligned :=
  ext_mapFace fun i => by rw [mapFace_compose, mapFace_inverse_mapFace, mapFace_aligned]

theorem compose_inverse (o : Orientation D) : o.compose o.inverse = aligned := by
  have h := o.inverse.inverse_compose
  rwa [inverse_inverse] at h

/-! ### Segments, values and meshes -/

theorem axis_compose (o p : Orientation D) (i : Fin D) :
    (o.compose p).axis i = o.axis (p.axis i) := by
  have h := congrArg Face.axis (mapFace_compose o p ⟨i, .upper⟩)
  rwa [mapFace_axis, mapFace_axis, mapFace_axis] at h

/-- Two axes run against each other if exactly one of the two orientations on the way reverses. -/
theorem reverses_compose (o p : Orientation D) (i : Fin D) :
    (o.compose p).Reverses i ↔ (o.Reverses (p.axis i) ↔ ¬ p.Reverses i) := by
  have h := congrArg Face.side (mapFace_compose o p ⟨i, .upper⟩)
  rw [mapFace_eq, mapFace_eq, mapFace_eq] at h
  by_cases hr : (o.compose p).Reverses i <;> by_cases ho : o.Reverses (p.axis i) <;>
    by_cases hp : p.Reverses i <;> simp_all [Side.opposite]

theorem mapSegment_compose (o p : Orientation D) (i : Fin D) (s : Segment) :
    (o.compose p).mapSegment i s = o.mapSegment (p.mapSegment i s).1 (p.mapSegment i s).2 := by
  unfold mapSegment
  rw [axis_compose]
  simp only [reverses_compose]
  by_cases hp : p.Reverses i
  · by_cases ho : o.Reverses (p.axis i)
    · simp [hp, ho, Segment.flipped_flipped]
    · simp [hp, ho]
  · by_cases ho : o.Reverses (p.axis i)
    · simp [hp, ho]
    · simp [hp, ho]

theorem source_compose (o p : Orientation D) (t : Fin D) :
    (o.compose p).source t = p.source (o.source t) := by
  have h : (o.compose p).axis (p.source (o.source t)) = t := by
    rw [axis_compose, axis_source, axis_source]
  rw [← source_axis (o.compose p) (p.source (o.source t)), h]

theorem source_inverse (o : Orientation D) (i : Fin D) : o.inverse.source i = o.axis i := by
  have h := o.inverse.source_axis (o.axis i)
  rwa [inverse_axis_axis] at h

section Values

variable {α : Type}

theorem toNeighbor_compose (o p : Orientation D) (v : Vector α D) :
    (o.compose p).toNeighbor v = o.toNeighbor (p.toNeighbor v) := by
  refine ext_get fun t => ?_
  simp only [toNeighbor, get_ofFn, source_compose]

/-- To fetch values from the other side is to send them there from the other side. -/
theorem fromNeighbor_eq (o : Orientation D) (v : Vector α D) :
    o.fromNeighbor v = o.inverse.toNeighbor v := by
  refine ext_get fun i => ?_
  simp only [toNeighbor, fromNeighbor, get_ofFn, source_inverse]

end Values

theorem oriented_compose (o p : Orientation D) (m : Mesh D) :
    m.oriented (o.compose p) = (m.oriented p).oriented o := by
  simp only [Mesh.oriented, toNeighbor_compose]

/-! ### Lists of directions

A list is checked entry by entry: the axis has to exist and must not have been named before.  As
there are as many entries as axes, no axis is left out then. -/

/-- No entry is at fault if the axes exist and none is named twice. -/
theorem forall_faultAt?_eq_none_iff :
    (∀ i, faultAt? directions i = none) ↔
      (∀ i, (directions.get i).axis < D) ∧
        ∀ i j, (directions.get i).axis = (directions.get j).axis → i = j := by
  constructor
  · intro h
    refine ⟨fun i => axis_lt_of_faultAt?_eq_none (h i), fun i j hij => ?_⟩
    rcases Nat.lt_trichotomy i.val j.val with hlt | heq | hgt
    · exact absurd hij (axis_ne_of_faultAt?_eq_none (h j) hlt)
    · exact Fin.ext heq
    · exact absurd hij.symm (axis_ne_of_faultAt?_eq_none (h i) hgt)
  · intro h i
    obtain ⟨hlt, hinj⟩ := h
    have hno : ¬ ∃ j : Fin D, j < i ∧ (directions.get j).axis = (directions.get i).axis := by
      intro htwice
      obtain ⟨j, hj, hsame⟩ := htwice
      exact absurd (hinj j i hsame) (Fin.ne_of_lt hj)
    unfold faultAt?
    rw [if_pos (hlt i), if_neg hno]

theorem exists_ofDirections_iff :
    (∃ o, ofDirections directions = .ok o) ↔ ∀ i, faultAt? directions i = none := by
  rw [← firstFound?_eq_none_iff]
  unfold ofDirections
  constructor
  · intro h
    obtain ⟨o, ho⟩ := h
    split at ho
    · contradiction
    · assumption
  · intro h
    split
    · next hsome =>
      rw [h] at hsome
      contradiction
    · exact ⟨_, rfl⟩

theorem mapFace_of_ofDirections (h : ofDirections directions = .ok o) (i : Fin D) :
    (o.mapFace ⟨i, .upper⟩).toDirection = directions.get i := by
  unfold ofDirections at h
  split at h
  · contradiction
  · obtain rfl := Except.ok.inj h
    simp only [mapFace, get_ofFn, Face.toDirection]

/-- The orientation made of a list of directions is the one that sends the upper faces there. -/
theorem ofDirections_eq_ok_iff :
    ofDirections directions = .ok o ↔
      ∀ i, (o.mapFace ⟨i, .upper⟩).toDirection = directions.get i := by
  refine ⟨mapFace_of_ofDirections, fun h => ?_⟩
  have haxis : ∀ i, (directions.get i).axis = (o.axis i).val := fun i => by
    rw [← h i, ← mapFace_axis o ⟨i, .upper⟩]
    rfl
  have hfine : ∀ i, faultAt? directions i = none := by
    refine forall_faultAt?_eq_none_iff.2 ⟨fun i => ?_, fun i j hij => ?_⟩
    · rw [haxis]
      exact (o.axis i).isLt
    · rw [haxis, haxis] at hij
      exact o.axis_injective i j (Fin.ext hij)
  obtain ⟨o', ho'⟩ := exists_ofDirections_iff.2 hfine
  have hsame : o' = o := ext_mapFace fun i => by
    have hdirection := (mapFace_of_ofDirections ho' i).trans (h i).symm
    have hface := congrArg (Direction.toFace? · D) hdirection
    simpa only [Face.toFace?_toDirection, Option.some.injEq] using hface
  rw [ho', hsame]

theorem map_axis_toList (directions : Vector Direction D) :
    directions.toList.map Direction.axis
      = (List.finRange D).map fun i => (directions.get i).axis := by
  refine List.ext_getElem (by simp) fun i h _ => ?_
  simp [Vector.get]

/-- A list of directions makes an orientation exactly if it names every axis once. -/
theorem exists_ofDirections_iff_perm :
    (∃ o, ofDirections directions = .ok o) ↔
      (directions.toList.map Direction.axis).Perm (List.range D) := by
  rw [exists_ofDirections_iff, forall_faultAt?_eq_none_iff, map_axis_toList]
  constructor
  · intro h
    obtain ⟨hlt, hinj⟩ := h
    have hnodup := (List.nodup_finRange D).map hinj
    refine (List.perm_ext_iff_of_nodup hnodup List.nodup_range).2 fun a => ?_
    rw [List.mem_map, List.mem_range]
    constructor
    · intro ha
      obtain ⟨i, -, rfl⟩ := ha
      exact hlt i
    · intro ha
      have hinjective : Function.Injective fun i => (⟨_, hlt i⟩ : Fin D) :=
        fun i j hij => hinj i j (congrArg Fin.val hij)
      obtain ⟨i, hi⟩ := Finite.surjective_of_injective hinjective ⟨a, ha⟩
      exact ⟨i, List.mem_finRange i, congrArg Fin.val hi⟩
  · intro h
    refine ⟨fun i => ?_, fun i j hij => ?_⟩
    · have hmem := h.mem_iff.1 (List.mem_map.2 ⟨i, List.mem_finRange i, rfl⟩)
      exact List.mem_range.1 hmem
    · have hnodup := h.nodup_iff.2 List.nodup_range
      exact List.inj_on_of_nodup_map hnodup (List.mem_finRange i) (List.mem_finRange j) hij

/-! ### The action -/

/-- What is seen through the composed orientation is what is seen through one after the other. -/
structure SeesInTurn (o p : Orientation D) : Prop where
  /-- Faces are sent through both. -/
  faces : ∀ f, (o.compose p).mapFace f = o.mapFace (p.mapFace f)
  /-- Segments are carried through both. -/
  segments : ∀ i s,
    (o.compose p).mapSegment i s = o.mapSegment (p.mapSegment i s).1 (p.mapSegment i s).2
  /-- Values are rearranged twice. -/
  values : ∀ {α : Type} (v : Vector α D),
    (o.compose p).toNeighbor v = o.toNeighbor (p.toNeighbor v)
  /-- Meshes are rearranged twice. -/
  meshes : ∀ m : Mesh D, m.oriented (o.compose p) = (m.oriented p).oriented o

theorem seesInTurn (o p : Orientation D) : o.SeesInTurn p where
  faces := mapFace_compose o p
  segments := mapSegment_compose o p
  values := toNeighbor_compose o p
  meshes := oriented_compose o p

/-- Orientations form a group that acts on frames.  They are made of exactly the lists that name
every axis once, and send the upper faces where the list says. -/
theorem acts_on_frames (directions : Vector Direction D) (o p q : Orientation D) :
    ((∃ r, ofDirections directions = .ok r) ↔
      (directions.toList.map Direction.axis).Perm (List.range D)) ∧
    (ofDirections directions = .ok o ↔
      ∀ i, (o.mapFace ⟨i, .upper⟩).toDirection = directions.get i) ∧
    (o.compose p).compose q = o.compose (p.compose q) ∧
    (aligned.compose o = o ∧ o.compose aligned = o) ∧
    (o.inverse.compose o = aligned ∧ o.compose o.inverse = aligned) ∧
    o.SeesInTurn p ∧
    (∀ f, o.mapFace f.opposite = (o.mapFace f).opposite) ∧
    ∀ {α : Type} (v : Vector α D), o.fromNeighbor v = o.inverse.toNeighbor v :=
  ⟨exists_ofDirections_iff_perm, ofDirections_eq_ok_iff, compose_assoc o p q,
    ⟨aligned_compose o, compose_aligned o⟩, ⟨inverse_compose o, compose_inverse o⟩,
    seesInTurn o p, mapFace_opposite o, fromNeighbor_eq o⟩

end Orientation

end AdaptiveMesh
