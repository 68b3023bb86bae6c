/-
Layouts that were built.

A layout is built from single blocks by gluing faces together and by setting levels.  A gluing is
recorded in two strokes, one for each side, and a stroke only ever adds: a face that has a gluing
keeps it, and one that has a different gluing makes the stroke fail.  So whatever was symmetric
before stays symmetric, and the two entries that come are each other's mirror image, even where
the two sides are one face.

In a layout that was built touching is therefore mutual, also where a block is glued to itself and
two elements touch once inside it and once around.  They do so across different faces: across one
face, whatever the layout, everything is seen through one orientation.
-/
import AdaptiveMesh.Proofs.Coverage
import AdaptiveMesh.Proofs.Steering

namespace AdaptiveMesh

namespace Layout

variable {D : Nat} {L L' : Layout D} {number other : Nat} {face : Face D} {g : Gluing D}
  {o : Orientation D}

/-! ### One stroke -/

theorem block_eq_ok {b : Block D} : L.block number = .ok b ↔ L.blocks[number]? = some b := by
  unfold block
  cases L.blocks[number]? with
  | none => simp
  | some b' => simp

theorem across?_of_block {b : Block D} (hb : L.blocks[number]? = some b) (k : Face D) :
    L.across? number k = b.gluings[k] := by
  unfold across?
  rw [hb, Option.bind_some]

/-- What lies across the faces of a block that was replaced is what the new one says. -/
theorem across?_set {b b' : Block D} (hb : L.blocks[number]? = some b) (m : Nat) (k : Face D) :
    ({ blocks := L.blocks.set number b' } : Layout D).across? m k
      = if m = number then b'.gluings[k] else L.across? m k := by
  have hlt : number < L.blocks.length := (List.getElem?_eq_some_iff.1 hb).1
  by_cases hm : m = number
  · subst hm
    rw [if_pos rfl]
    exact across?_of_block (List.getElem?_set_self hlt) k
  · rw [if_neg hm]
    unfold across?
    rw [List.getElem?_set_ne (Ne.symm hm)]

/-- The layout with an entry for a face of one of its blocks. -/
def recorded (L : Layout D) (number : Nat) (face : Face D) (g : Gluing D) : Layout D where
  blocks := L.blocks.modify number fun b => { b with gluings := b.gluings.set face (some g) }

/-- The block is there, and its face is free or has this entry already. -/
def Fits (L : Layout D) (number : Nat) (face : Face D) (g : Gluing D) : Prop :=
  number < L.blocks.length ∧ ∀ old, L.across? number face = some old → old = g

theorem length_recorded : (L.recorded number face g).blocks.length = L.blocks.length :=
  List.length_modify ..

theorem recorded_eq_set {b : Block D} (hb : L.blocks[number]? = some b) :
    L.recorded number face g =
      { blocks := L.blocks.set number { b with gluings := b.gluings.set face (some g) } } := by
  unfold recorded
  rw [List.modify_eq_set_getElem?, hb]
  rfl

theorem across?_recorded {m : Nat} {k : Face D} (hlt : number < L.blocks.length) :
    (L.recorded number face g).across? m k
      = if m = number ∧ k = face then some g else L.across? m k := by
  have hb := List.getElem?_eq_getElem hlt
  rw [recorded_eq_set hb, across?_set hb]
  by_cases hm : m = number
  · subst hm
    rw [if_pos rfl, FaceTable.getElem_set, across?_of_block hb]
    simp only [true_and, eq_comm]
  · rw [if_neg hm, if_neg fun hboth => hm hboth.1]

/-- To record what is there already changes nothing. -/
theorem recorded_eq_self (h : L.across? number face = some g) : L.recorded number face g = L := by
  obtain ⟨b, hb, hg⟩ := across?_eq_some_iff.1 h
  obtain ⟨hlt, hget⟩ := List.getElem?_eq_some_iff.1 hb
  rw [recorded_eq_set hb, FaceTable.set_eq_self hg]
  show ({ blocks := L.blocks.set number b } : Layout D) = L
  rw [← hget, List.set_getElem_self]

/-- A stroke succeeds exactly if its entry fits, and leaves the layout with the entry. -/
theorem attach_eq_ok_iff :
    L.attach number face g = .ok L' ↔ L.Fits number face g ∧ L' = L.recorded number face g := by
  by_cases hlt : number < L.blocks.length
  · have hb := List.getElem?_eq_getElem hlt
    unfold attach Fits
    rw [block_eq_ok.2 hb, across?_of_block hb]
    simp only [hlt, true_and, bind, Except.bind]
    cases hold : L.blocks[number].gluings[face] with
    | none => simp [pure, Except.pure, recorded_eq_set hb, eq_comm]
    | some old =>
        by_cases heq : old = g
        · have hthere : L.across? number face = some g := by
            rw [across?_of_block hb, hold, heq]
          simp [pure, Except.pure, heq, recorded_eq_self hthere, eq_comm]
        · simp [heq]
  · unfold attach block
    rw [List.getElem?_eq_none (Nat.not_lt.1 hlt)]
    simp [bind, Except.bind, Fits, hlt]

/-- The second layout has all gluings of the first, and one more. -/
structure Gains (L L' : Layout D) (number : Nat) (face : Face D) (g : Gluing D) : Prop where
  /-- The new gluing is recorded. -/
  gained : L'.across? number face = some g
  /-- The old gluings are still recorded. -/
  kept : ∀ m k g', L.across? m k = some g' → L'.across? m k = some g'
  /-- No others are recorded. -/
  only : ∀ m k g', L'.across? m k = some g' →
    (m = number ∧ k = face ∧ g' = g) ∨ L.across? m k = some g'

/-- An entry that fits is one more, or is there already. -/
theorem Fits.gains (h : L.Fits number face g) :
    L.Gains (L.recorded number face g) number face g := by
  refine ⟨?_, ?_, ?_⟩
  · rw [across?_recorded h.1, if_pos ⟨rfl, rfl⟩]
  · intro m k g' hg'
    rw [across?_recorded h.1]
    by_cases hmk : m = number ∧ k = face
    · obtain ⟨rfl, rfl⟩ := hmk
      rw [if_pos ⟨rfl, rfl⟩, h.2 g' hg']
    · rwa [if_neg hmk]
  · intro m k g' hg'
    rw [across?_recorded h.1] at hg'
    by_cases hmk : m = number ∧ k = face
    · rw [if_pos hmk, Option.some.injEq] at hg'
      exact Or.inl ⟨hmk.1, hmk.2, hg'.symm⟩
    · rw [if_neg hmk] at hg'
      exact Or.inr hg'

theorem gains_of_attach (h : L.attach number face g = .ok L') : L.Gains L' number face g := by
  obtain ⟨hfits, rfl⟩ := attach_eq_ok_iff.1 h
  exact hfits.gains

theorem glue_eq_ok {direction : Direction}
    (h : L.glue number direction other o = .ok L') :
    ∃ face near, direction.toFace? D = some face ∧
      L.Gains near number face ⟨other, o⟩ ∧
      near.Gains L' other (backFace o face) ⟨number, o.inverse⟩ := by
  unfold glue at h
  split at h
  · contradiction
  · next face hface =>
    obtain ⟨_, -, h⟩ := bind_eq_ok.1 h
    obtain ⟨near, hnear, h⟩ := bind_eq_ok.1 h
    exact ⟨face, near, hface, gains_of_attach hnear, gains_of_attach h⟩

/-- Gluing keeps a layout symmetric. -/
theorem Symmetric.glue (hL : L.Symmetric) {direction : Direction}
    (h : L.glue number direction other o = .ok L') : L'.Symmetric := by
  obtain ⟨face, near, -, hnear, hfar⟩ := glue_eq_ok h
  intro m k g' hg'
  rcases hfar.only m k g' hg' with ⟨rfl, rfl, rfl⟩ | hold
  · -- the far side of the gluing: its mirror image is the near side
    rw [backFace_backFace, Orientation.inverse_inverse]
    exact hfar.kept _ _ _ hnear.gained
  · rcases hnear.only m k g' hold with ⟨rfl, rfl, rfl⟩ | holder
    · exact hfar.gained
    · exact hfar.kept _ _ _ (hnear.kept _ _ _ (hL m k g' holder))

theorem across?_withLevels {levels : Vector Nat D} (h : L.withLevels number levels = .ok L')
    (m : Nat) (k : Face D) : L'.across? m k = L.across? m k := by
  unfold withLevels at h
  split at h
  · contradiction
  · obtain ⟨b, hb, h⟩ := bind_eq_ok.1 h
    have hb := block_eq_ok.1 hb
    rw [← pure_eq_ok.1 h, across?_set hb]
    by_cases hm : m = number
    · subst hm
      rw [if_pos rfl, across?_of_block hb]
    · rw [if_neg hm]

/-- Every layout that was built is symmetric. -/
theorem Built.symmetric (hL : L.Built) : L.Symmetric := by
  induction hL with
  | ofExtents extents =>
      intro m k g hg
      rw [(unconnected_ofExtents extents).across?_eq_none] at hg
      contradiction
  | withLevels _ h ih =>
      intro m k g hg
      rw [across?_withLevels h] at hg ⊢
      exact ih m k g hg
  | glue _ h ih => exact ih.glue h

/-! ### Touching is mutual -/

variable {e c : Element D} {f : Face D}

/-- A layout that has the block of an element always knows whether it touches another one. -/
theorem contactOrientation_eq_ok (h : e.block < L.blocks.length) :
    L.contactOrientation e f c = .ok (L.touching? e f c) :=
  if_neg fun hlacks => absurd hlacks.1 (Nat.not_le.2 h)

theorem contactOrientation_eq_some_iff :
    L.contactOrientation e f c = .ok (some o) ↔ ¬ L.Lacks e f c ∧ L.touching? e f c = some o := by
  unfold contactOrientation
  by_cases hlacks : L.Lacks e f c
  · simp [hlacks]
  · simp [hlacks]

/-- An element that touches another one is touched by it, across the corresponding face and through
the inverse orientation. -/
theorem Built.contactOrientation_symm (hL : L.Built)
    (h : L.contactOrientation e f c = .ok (some o)) :
    L.contactOrientation c (backFace o f) e = .ok (some o.inverse) := by
  obtain ⟨-, htouch⟩ := contactOrientation_eq_some_iff.1 h
  have hback := touching?_symm hL.symmetric htouch
  refine contactOrientation_eq_some_iff.2 ⟨?_, hback⟩
  rintro ⟨hmissing, htouches, hapart⟩
  rcases touching?_eq_some.1 hback with ⟨hadjoins, -⟩ | ⟨-, hacross, -⟩
  · exact hapart hadjoins
  · obtain ⟨b, hb, -⟩ := across?_eq_some_iff.1 hacross
    exact absurd (List.getElem?_eq_some_iff.1 hb).1 (Nat.not_lt.2 hmissing)

section Fold

/-- One block of which an upper face is glued to its other upper face. -/
def folded : Layout 2 :=
  ((Layout.ofExtents [Forest.squareMesh.extents]).glue 0 ⟨0, .upper⟩ 0 Forest.turn).toOption.get
    (by decide +kernel)

theorem built_folded : folded.Built := by
  have hglue : (Layout.ofExtents [Forest.squareMesh.extents]).glue 0 ⟨0, .upper⟩ 0 Forest.turn
      = .ok folded := by decide +kernel
  exact .glue (.ofExtents _) hglue

/-- Two quarters of the folded block that lie side by side in it also touch around the fold. -/
theorem contactOrientation_symm_folded :
    folded.contactOrientation (Forest.square (1, 1) (1, 0)) ⟨0, .upper⟩
        (Forest.square (1, 1) (1, 1)) = .ok (some Forest.turn) ∧
      folded.contactOrientation (Forest.square (1, 1) (1, 1)) ⟨1, .upper⟩
        (Forest.square (1, 1) (1, 0)) = .ok (some Forest.turn.inverse) := by
  have hfold : folded.contactOrientation (Forest.square (1, 1) (1, 0)) ⟨0, .upper⟩
      (Forest.square (1, 1) (1, 1)) = .ok (some Forest.turn) := by decide +kernel
  have hback : backFace Forest.turn ⟨0, .upper⟩ = ⟨1, .upper⟩ := by decide +kernel
  have hother := Built.contactOrientation_symm built_folded hfold
  rw [hback] at hother
  exact ⟨hfold, hother⟩

end Fold

/-! ### One orientation for each face

To touch an element across a face in its own block there has to be room behind the face, and to
touch it through a gluing there must be none.  That does not depend on which gluings there are, so
here nothing is asked of the layout. -/

/-- All that touches an element across a face is seen through one orientation: the end of a block
leaves no room for contact inside it. -/
theorem exists_forall_contactOrientation (h : e.block < L.blocks.length) (f : Face D) :
    ∃ o, ∀ c, L.contactOrientation e f c = .ok none ∨
      L.contactOrientation e f c = .ok (some o) := by
  by_cases hsome : ∃ c o, L.touching? e f c = some o
  · obtain ⟨c, o, htouch⟩ := hsome
    refine ⟨o, fun c' => ?_⟩
    rw [contactOrientation_eq_ok h]
    cases htouch' : L.touching? e f c' with
    | none => exact Or.inl rfl
    | some o' =>
        rw [orientation_unique htouch htouch']
        exact Or.inr rfl
  · refine ⟨.aligned, fun c => Or.inl ?_⟩
    rw [contactOrientation_eq_ok h]
    cases htouch : L.touching? e f c with
    | none => rfl
    | some o => exact absurd ⟨c, o, htouch⟩ hsome

/-- On record for a face are the candidates that touch there, and the orientation through which each
of them is seen. -/
theorem exists_contact_iff (h : e.block < L.blocks.length) {l : List (Element D)} :
    (∃ k, (L.neighborhoodAmong e l)[f] = some k ∧ c ∈ k.elements ∧ k.orientation = o) ↔
      c ∈ l ∧ L.contactOrientation e f c = .ok (some o) := by
  rw [contactOrientation_eq_ok h, Except.ok.injEq, getElem_neighborhoodAmong]
  constructor
  · intro hcontact
    obtain ⟨k, hk, hc, rfl⟩ := hcontact
    exact (contactAmong?_eq_some hk c).1 hc
  · intro hseen
    obtain ⟨hc, htouch⟩ := hseen
    exact exists_contactAmong? hc htouch

/-- The orientation on record for a face is well defined.  Whatever touches an element of the layout
across the face is seen through the same one, so a neighbourhood depends only on which candidates
there are, not on their order or on how often each is listed. -/
theorem contacts_well_defined (L : Layout D) (e : Element D) (h : e.block < L.blocks.length) :
    (∀ f, ∃ o, ∀ c, L.contactOrientation e f c = .ok none ∨
      L.contactOrientation e f c = .ok (some o)) ∧
    ∀ l l' : List (Element D), (∀ c, c ∈ l ↔ c ∈ l') →
      ∃ n, L.neighborhood e l = .ok n ∧ L.neighborhood e l' = .ok n ∧
        ∀ (f : Face D) (c : Element D) (o : Orientation D),
          (∃ k, n[f] = some k ∧ c ∈ k.elements ∧ k.orientation = o) ↔
            c ∈ l ∧ L.contactOrientation e f c = .ok (some o) := by
  refine ⟨exists_forall_contactOrientation h, fun l l' hl => ?_⟩
  have hsame := neighborhoodAmong_congr (L := L) (e := e) fun _ c _ _ => hl c
  refine ⟨_, neighborhood_eq_ok h, ?_, fun f c o => exists_contact_iff h⟩
  rw [neighborhood_eq_ok h, hsame]

/-- Around the fold and inside the block a quarter touches the same quarter, across two faces. -/
theorem contacts_well_defined_folded :
    let e := Forest.square (1, 1) (1, 0)
    let c := Forest.square (1, 1) (1, 1)
    folded.contactOrientation e ⟨0, .upper⟩ c = .ok (some Forest.turn) ∧
      folded.contactOrientation e ⟨1, .upper⟩ c = .ok (some .aligned) ∧
      (∀ f, ∃ o, ∀ c', folded.contactOrientation e f c' = .ok none ∨
        folded.contactOrientation e f c' = .ok (some o)) ∧
      ∃ n, folded.neighborhood e [c, e] = .ok n ∧ folded.neighborhood e [e, c, e, c] = .ok n := by
  intro e c
  have hblock : e.block < folded.blocks.length := by decide +kernel
  obtain ⟨hone, hsame⟩ := contacts_well_defined folded e hblock
  obtain ⟨n, hn, hn', -⟩ := hsame [c, e] [e, c, e, c] fun c' => by
    simp only [List.mem_cons, List.not_mem_nil, or_false]
    tauto
  exact ⟨by decide +kernel, by decide +kernel, hone, n, hn, hn'⟩

end Layout

end AdaptiveMesh
