/-
Gluing from either side.

A gluing has no first and no second block.  Whoever glues a face to a face may as well start from
the other one, with the inverse orientation: the same two entries are recorded, only in the other
order.

The two entries get in each other's way only where they are entries for one face of one block, and
there both orders ask for the same, that the two be equal.  So the order does not matter, neither
for whether the gluing succeeds nor for the layout that comes out.
-/
import AdaptiveMesh.Proofs.Building

namespace AdaptiveMesh

namespace Layout

variable {D : Nat} {L L' : Layout D} {number m other : Nat} {face k : Face D} {g g' : Gluing D}
  {o : Orientation D}

/-! ### The other order -/

/-- Beside one entry another one fits if it did so before, and if it is not a different one for the
same face. -/
theorem fits_recorded_iff (h : L.Fits number face g) :
    (L.recorded number face g).Fits m k g' ↔
      L.Fits m k g' ∧ (number = m → face = k → g = g') := by
  unfold Fits
  rw [length_recorded]
  simp only [across?_recorded h.1]
  by_cases hmk : m = number ∧ k = face
  · obtain ⟨rfl, rfl⟩ := hmk
    simp only [and_self, if_true, Option.some.injEq, forall_eq', true_implies]
    constructor
    · intro hnew
      exact ⟨⟨h.1, fun old hold => (h.2 old hold).trans hnew.2⟩, hnew.2⟩
    · intro hnew
      exact ⟨h.1, hnew.2⟩
  · simp only [hmk, if_false]
    exact iff_self_and.2 fun _ hm hk => absurd ⟨hm.symm, hk.symm⟩ hmk

theorem recorded_comm (h : number = m → face = k → g = g') :
    (L.recorded number face g).recorded m k g' = (L.recorded m k g').recorded number face g := by
  unfold recorded
  congr 1
  by_cases hm : number = m
  · subst hm
    rw [List.modify_modify_eq, List.modify_modify_eq]
    congr 1
    funext b
    have hset := b.gluings.set_comm fun hk => congrArg some (h rfl hk)
    simp only [Function.comp, hset]
  · rw [List.modify_modify_ne _ _ _ hm]

/-- A gluing succeeds exactly if both entries fit and do not contradict each other, and leaves the
layout with both. -/
theorem glue_eq_ok_iff :
    L.glue number face.toDirection other o = .ok L' ↔
      (L.Fits number face ⟨other, o⟩ ∧ L.Fits other (backFace o face) ⟨number, o.inverse⟩) ∧
        (number = other → face = backFace o face →
          (⟨other, o⟩ : Gluing D) = ⟨number, o.inverse⟩) ∧
        L' = (L.recorded number face ⟨other, o⟩).recorded other (backFace o face)
          ⟨number, o.inverse⟩ := by
  unfold glue
  rw [Face.toFace?_toDirection]
  simp only [bind_eq_ok, attach_eq_ok_iff]
  constructor
  · intro h
    obtain ⟨_, -, near, ⟨hnear, rfl⟩, hfar, hL'⟩ := h
    rw [fits_recorded_iff hnear] at hfar
    exact ⟨⟨hnear, hfar.1⟩, hfar.2, hL'⟩
  · intro h
    obtain ⟨⟨hnear, hfar⟩, hagree, hL'⟩ := h
    have hother := block_eq_ok.2 (List.getElem?_eq_getElem hfar.1)
    exact ⟨_, hother, _, ⟨hnear, rfl⟩, (fits_recorded_iff hnear).2 ⟨hfar, hagree⟩, hL'⟩

theorem glue_of_glue_back (h : L.glue number face.toDirection other o = .ok L') :
    L.glue other (backFace o face).toDirection number o.inverse = .ok L' := by
  obtain ⟨⟨hnear, hfar⟩, hagree, hL'⟩ := glue_eq_ok_iff.1 h
  refine glue_eq_ok_iff.2 ?_
  rw [backFace_backFace, Orientation.inverse_inverse]
  refine ⟨⟨hfar, hnear⟩, fun hn hf => (hagree hn.symm hf.symm).symm, ?_⟩
  rw [hL', recorded_comm hagree]

/-- Layouts that were built are symmetric however they are glued: the check succeeds, and a face can
be glued to another from either side with one outcome. -/
theorem Built.glued_from_either_side (hL : L.Built) :
    L.validate = .ok () ∧
      ∀ (number other : Nat) (face : Face D) (o : Orientation D) (L' : Layout D),
        L.glue number face.toDirection other o = .ok L' ↔
          L.glue other (backFace o face).toDirection number o.inverse = .ok L' := by
  refine ⟨validate_eq_ok_iff.2 hL.symmetric, fun number other face o L' => ?_⟩
  refine ⟨glue_of_glue_back, fun h => ?_⟩
  have hback := glue_of_glue_back h
  rwa [backFace_backFace, Orientation.inverse_inverse] at hback

section Folded

/-- The second axis stays as it is, the first one is reversed. -/
def mirror : Orientation 2 :=
  (Orientation.ofDirections #v[⟨0, .lower⟩, ⟨1, .upper⟩]).toOption.get (by decide +kernel)

/-- The folded block can be folded at its lower faces too, or a lower face be glued to itself. -/
theorem glued_from_either_side_folded :
    folded.validate = .ok () ∧
      (∃ L', folded.glue 0 ⟨0, .lower⟩ 0 Forest.turn = .ok L' ∧
        folded.glue 0 ⟨1, .lower⟩ 0 Forest.turn.inverse = .ok L') ∧
      ∃ L', folded.glue 0 ⟨0, .lower⟩ 0 mirror = .ok L' ∧
        folded.glue 0 ⟨0, .lower⟩ 0 mirror.inverse = .ok L' := by
  have hturn : backFace Forest.turn ⟨0, .lower⟩ = ⟨1, .lower⟩ := by decide +kernel
  have hmirror : backFace mirror ⟨0, .lower⟩ = ⟨0, .lower⟩ := by decide +kernel
  have hfold : (folded.glue 0 ⟨0, .lower⟩ 0 Forest.turn).toOption.map (·.blocks.length)
      = some 1 := by decide +kernel
  have hself : (folded.glue 0 ⟨0, .lower⟩ 0 mirror).toOption.map (·.blocks.length)
      = some 1 := by decide +kernel
  obtain ⟨hvalid, hback⟩ := Built.glued_from_either_side built_folded
  refine ⟨hvalid, ?_, ?_⟩
  · obtain ⟨L', hL', -⟩ := exists_eq_ok_of_toOption hfold
    have hother := (hback 0 0 ⟨0, .lower⟩ Forest.turn L').1 hL'
    rw [hturn] at hother
    exact ⟨L', hL', hother⟩
  · obtain ⟨L', hL', -⟩ := exists_eq_ok_of_toOption hself
    have hother := (hback 0 0 ⟨0, .lower⟩ mirror L').1 hL'
    rw [hmirror] at hother
    exact ⟨L', hL', hother⟩

end Folded

end Layout

end AdaptiveMesh
