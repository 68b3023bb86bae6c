/-
Splits and joins undo each other.

An exchange that is followed by the exchange back leaves the forest as it was.  For the
elements and their meshes this is a matter of looking; for the neighbourhoods, which were
rebuilt twice from a few candidates, it follows from soundness: a sound forest is determined
by its layout, its elements and their meshes, whatever way it came about.

The reports mirror each other as well.  The elements beside those that go are the elements
beside those that come, since whatever touches one of the latter touched one of the former,
and each of them sees the one forest on one side of the exchange and the other forest on the
other side.
-/
import AdaptiveMesh.Proofs.Changes
import AdaptiveMesh.Proofs.Reachable

namespace AdaptiveMesh

namespace Forest

variable {D : Nat} {f g : Forest D} {e c p : Element D} {m m' : Mesh D} {flags : Decision D}
  {l removed added : List (Element D)} {edit edit' : Edit D}

/-! ### The exchange back -/

/-- What was exchanged can be exchanged back. -/
theorem Exchange.symm (hf : f.Sound) (hx : Exchange f removed added)
    (hg : Exchanged f removed added m g) : Exchange g added removed where
  removed_mem _ he := hg.mem_iff.2 (Or.inl he)
  covers_iff x := (hx.covers_iff x).symm
  eq_of_covers c hc c' hc' x := hf.eq_of_covers c (hx.removed_mem c hc) c' (hx.removed_mem c' hc') x

/-- Whoever lies beside the elements that go lies beside those that come. -/
theorem Exchange.beside_of_beside (hf : f.Sound) (hx : Exchange f removed added)
    (hg : Exchanged f removed added m g) (h : f.Beside removed c) : g.Beside added c := by
  obtain ⟨hc, hnot, e, he, face, o, ho⟩ := h
  have hcg : c ∈ g := hg.mem_iff.2 (Or.inr ⟨hc, hnot⟩)
  have hca : c ∉ added := fun ha => hnot (hx.mem_removed hf ha hc)
  have hback := Layout.touching?_symm hf.symmetric ho
  rw [← hg.layout_eq] at hback
  obtain ⟨c', hc', hback'⟩ := (hx.symm hf hg).exists_touching hg.sound he hcg hca hback
  exact ⟨hcg, hca, c', hc', _, _, Layout.touching?_symm hg.sound.symmetric hback'⟩

/-- An exchange that is taken back, with the mesh that the elements had, leaves the forest as it
was, and reports the same changes the other way round. -/
theorem Exchange.undo (hf : f.Sound) (hx : Exchange f removed added)
    (h : f.replace removed added m' = .ok edit) (hg : Exchanged f removed added m' edit.forest)
    (hmesh : ∀ e ∈ removed, f.mesh? e = some m)
    (h' : edit.forest.replace added removed m = .ok edit')
    (hg' : Exchanged edit.forest added removed m edit'.forest) :
    edit'.forest = f ∧ edit'.changes = edit.changes.map Change.reversed := by
  have hy := hx.symm hf hg
  have hsame : edit'.forest = f := by
    refine hg'.sound.eq_of_mesh? hf (hg'.layout_eq.trans hg.layout_eq) fun e => ?_
    rw [hg'.mesh?_eq, hg.mesh?_eq]
    by_cases hr : e ∈ removed
    · rw [if_pos hr, hmesh e hr]
    · rw [if_neg hr]
      by_cases ha : e ∈ added
      · -- an element that came and goes again was not there before
        rw [if_pos ha]
        cases hm : f.mesh? e with
        | none => rfl
        | some _ => exact absurd (hx.mem_removed hf ha (mem_iff_mesh?.2 ⟨_, hm⟩)) hr
      · rw [if_neg ha, if_neg ha, if_neg hr]
  refine ⟨hsame, ?_⟩
  obtain ⟨b, hb, hmem, hchanges⟩ := hx.changes_eq hf h hg
  obtain ⟨b', hb', hmem', hchanges'⟩ := hy.changes_eq hg.sound h' hg'
  have hbeside : b' = b := by
    refine hb'.eq_of_mem_iff hb fun c => ?_
    rw [hmem, hmem']
    refine ⟨fun hc => ?_, hx.beside_of_beside hf hg⟩
    exact hsame ▸ hy.beside_of_beside hg.sound hg' hc
  rw [hchanges', hchanges, hbeside, hsame]
  exact changesBetween_comm _ _ _

/-! ### Splits and joins -/

theorem replace_of_split (h : f.split e l m = .ok edit) : f.replace [e] l m = .ok edit := by
  obtain ⟨_, _, -, -, -, hreplace⟩ := split_eq_ok h
  exact hreplace

/-- A join whose parent has these children exchanges them for the parent. -/
theorem Sound.replace_of_join (hf : f.Sound) (hl : p.children flags = .ok l)
    (hall : ∀ c ∈ l, c ∈ f) (h : f.join p m = .ok edit) : f.replace l [p] m = .ok edit := by
  obtain ⟨_, -, hreplace⟩ := join_eq_ok h
  rwa [hf.inside_eq hl hall] at hreplace

/-- A split is undone by the join into the element that was split. -/
theorem Sound.join_of_split (hf : f.Sound) (hm : f.mesh? e = some m) (hs : flags.Has .split)
    (hl : e.children flags = .ok l) (m' : Mesh D) :
    ∃ edit edit', f.split e l m' = .ok edit ∧ edit.forest.join e m = .ok edit' ∧
      edit'.forest = f ∧ edit'.changes = edit.changes.map Change.reversed := by
  have he : e ∈ f := mem_iff_mesh?.2 ⟨m, hm⟩
  have hx := exchange_children he hl fun _ => Iff.rfl
  obtain ⟨edit, hsplit, hg⟩ := hf.exists_split he hs hl m'
  have hall : ∀ c ∈ l, c ∈ edit.forest := fun c hc => hg.mem_iff.2 (Or.inl hc)
  obtain ⟨edit', hjoin, hg'⟩ := hg.sound.exists_join hs hl hall m
  have hmesh : ∀ c ∈ [e], f.mesh? c = some m := fun c hc => List.mem_singleton.1 hc ▸ hm
  exact ⟨edit, edit', hsplit, hjoin, hx.undo hf (replace_of_split hsplit) hg hmesh
    (hg.sound.replace_of_join hl hall hjoin) hg'⟩

/-- A join is undone by the split into the elements that were joined. -/
theorem Sound.split_of_join (hf : f.Sound) (hs : flags.Has .split) (hl : p.children flags = .ok l)
    (hmesh : ∀ c ∈ l, f.mesh? c = some m) (m' : Mesh D) :
    ∃ edit edit', f.join p m' = .ok edit ∧ edit.forest.split p l m = .ok edit' ∧
      edit'.forest = f ∧ edit'.changes = edit.changes.map Change.reversed := by
  have hall : ∀ c ∈ l, c ∈ f := fun c hc => mem_iff_mesh?.2 ⟨m, hmesh c hc⟩
  obtain ⟨edit, hjoin, hg⟩ := hf.exists_join hs hl hall m'
  have hp : p ∈ edit.forest := hg.mem_iff.2 (Or.inl (List.mem_singleton_self p))
  obtain ⟨edit', hsplit, hg'⟩ := hg.sound.exists_split hp hs hl m
  exact ⟨edit, edit', hjoin, hsplit, (exchange_parent hl hall).undo hf
    (hf.replace_of_join hl hall hjoin) hg hmesh (replace_of_split hsplit) hg'⟩

/-- Splits and joins undo each other.  A split that is followed by the join into the element that
was split, and a join that is followed by the split into the siblings that were joined, both
succeed and leave the forest with its records as it was; what the second reports is what the first
reported, the other way round. -/
theorem Reachable.split_join_undo (hf : Reachable f) :
    (∀ (e : Element D) (flags : Decision D) (l : List (Element D)) (m m' : Mesh D),
      f.mesh? e = some m → flags.Has .split → e.children flags = .ok l →
      ∃ edit edit', f.split e l m' = .ok edit ∧ edit.forest.join e m = .ok edit' ∧
        edit'.forest = f ∧ edit'.changes = edit.changes.map Change.reversed) ∧
    ∀ (e p : Element D) (flags : Decision D) (l : List (Element D)) (m m' : Mesh D),
      flags.Has .join → e.parent flags = .ok p → e.siblings flags = .ok l →
      (∀ c ∈ l, f.mesh? c = some m) →
      ∃ edit edit', f.join p m' = .ok edit ∧ edit.forest.split p l m = .ok edit' ∧
        edit'.forest = f ∧ edit'.changes = edit.changes.map Change.reversed := by
  refine ⟨fun e flags l m m' hm hs hl => hf.sound.join_of_split hm hs hl m',
    fun e p flags l m m' hj hp hl hmesh => ?_⟩
  obtain ⟨p', hp', hchildren⟩ := Element.siblings_eq_ok hl
  obtain rfl : p = p' := by rwa [hp, Except.ok.injEq] at hp'
  exact hf.sound.split_of_join (Decision.has_split_unjoin_iff.2 hj) hchildren hmesh m'

/-- In the split ring the element that is whole is cut along both axes and put together again, and
the halves of the other one are put together and cut again. -/
theorem split_join_undo_splitRing :
    (∃ l edit edit', (square (1, 1) (0, 0)).children (.uniform .split) = .ok l ∧
      splitRing.split (square (1, 1) (0, 0)) l squareMesh = .ok edit ∧
      edit.forest.join (square (1, 1) (0, 0)) squareMesh = .ok edit' ∧
      edit'.forest = splitRing ∧ edit'.changes = edit.changes.map Change.reversed) ∧
    ∃ edit edit', splitRing.join (square (1, 0) (0, 0)) squareMesh = .ok edit ∧
      edit.forest.split (square (1, 0) (0, 0)) [square (1, 0) (1, 0), square (1, 0) (1, 1)]
        squareMesh = .ok edit' ∧
      edit'.forest = splitRing ∧ edit'.changes = edit.changes.map Change.reversed := by
  obtain ⟨hsplit, hjoin⟩ := Reachable.split_join_undo reachable_splitRing
  have hmesh : ∀ c ∈ [square (1, 0) (1, 0), square (1, 0) (1, 1)],
      splitRing.mesh? c = some squareMesh := by
    decide +kernel
  constructor
  · obtain ⟨edit, edit', h⟩ := hsplit (square (1, 1) (0, 0)) (.uniform .split) _ squareMesh
      squareMesh (by decide +kernel) (by decide +kernel) rfl
    exact ⟨_, edit, edit', rfl, h⟩
  · exact hjoin (square (1, 0) (1, 0)) (square (1, 0) (0, 0)) #v[.doNothing, .join] _ squareMesh
      squareMesh (by decide +kernel) (by decide +kernel) (by decide +kernel) hmesh

end Forest

end AdaptiveMesh
