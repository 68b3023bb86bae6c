/-
Splits and joins.

A split puts the children of an element in its place, a join puts a parent in the
place of all elements inside it.  Both accept whatever list or parent they are given
and find out themselves whether it belongs to the forest.  Each direction is a pair of
facts here: success means that an exchange of a whole family took place, and a whole
family is always exchanged.
-/
import AdaptiveMesh.Proofs.Exchange

namespace AdaptiveMesh

namespace Forest

variable {D : Nat} {f : Forest D} {e c p : Element D} {m : Mesh D} {flags : Decision D}
  {l given removed added : List (Element D)} {edit : Edit D}

/-! ### Families as exchanges -/

theorem exchange_children (he : e ∈ f) (h : e.children flags = .ok l)
    (hl : ∀ c, c ∈ given ↔ c ∈ l) : Exchange f [e] given where
  removed_mem c hc := List.mem_singleton.1 hc ▸ he
  covers_iff x := by
    simp only [List.mem_singleton, exists_eq_left, hl]
    exact Element.covers_iff_exists_mem_children h
  eq_of_covers c hc c' hc' x :=
    Element.eq_of_mem_children_of_covers h ((hl c).1 hc) ((hl c').1 hc')

theorem exchange_parent (h : p.children flags = .ok l) (hl : ∀ c ∈ l, c ∈ f) :
    Exchange f l [p] where
  removed_mem := hl
  covers_iff x := by
    simp only [List.mem_singleton, exists_eq_left]
    exact (Element.covers_iff_exists_mem_children h).symm
  eq_of_covers c hc c' hc' _ _ _ := (List.mem_singleton.1 hc).trans (List.mem_singleton.1 hc').symm

theorem mem_of_replace_eq_ok (h : f.replace removed added m = .ok edit) (he : e ∈ removed) :
    e ∈ f := by
  obtain ⟨b, hb, -⟩ := bind_eq_ok.1 h
  obtain ⟨records, hrec, -⟩ := bind_eq_ok.1 hb
  obtain ⟨r, -, hr⟩ := exists_result_of_mapM hrec he
  exact mem_of_record (record_eq_ok.1 hr)

/-! ### Towards a child

Along every axis the children under one decision are on the same level.  So any of them shows the
decision, and it does not matter which one is looked at. -/

theorem get_splitTowards_eq_split_iff {d : Fin D} :
    (splitTowards e c).get d = .split ↔ (e.segment d).level < (c.segment d).level := by
  unfold splitTowards
  rw [get_ofFn]
  split <;> simp_all

/-- The decision that leads to a child is the one that made it. -/
theorem children_splitTowards (h : e.children flags = .ok l) (hc : c ∈ l) :
    e.children (splitTowards e c) = .ok l := by
  rw [← h]
  refine Element.children_congr fun d => ?_
  rw [get_splitTowards_eq_split_iff, Element.level_of_mem_children h hc]
  split <;> simp_all

theorem has_split_splitTowards (h : e.children flags = .ok l) (hc : c ∈ l)
    (hs : flags.Has .split) : (splitTowards e c).Has .split := by
  obtain ⟨d, hd⟩ := hs
  refine ⟨d, ?_⟩
  rw [get_splitTowards_eq_split_iff, Element.level_of_mem_children h hc, if_pos hd]
  exact Nat.lt_succ_self _

/-! ### Splits -/

/-- A split that succeeds was given the children of an element that splits. -/
theorem split_eq_ok (h : f.split e given m = .ok edit) :
    ∃ flags l, flags.Has .split ∧ e.children flags = .ok l ∧ (∀ c, c ∈ given ↔ c ∈ l) ∧
      f.replace [e] given m = .ok edit := by
  cases given with
  | nil => contradiction
  | cons first others =>
      obtain ⟨l, hl, hif⟩ := bind_eq_ok.1 h
      rw [mapError_eq_ok] at hl
      split at hif
      · next hsplit =>
        obtain ⟨hs, heq, -⟩ := hsplit
        exact ⟨_, l, hs, hl, fun c => (ElementSet.ofList_eq_ofList_iff.1 heq c).symm, hif⟩
      · contradiction

theorem Sound.exchanged_of_split (hf : f.Sound) (h : f.split e given m = .ok edit) :
    Exchanged f [e] given m edit.forest := by
  obtain ⟨flags, l, -, hl, hmem, hreplace⟩ := split_eq_ok h
  have he := mem_of_replace_eq_ok hreplace (List.mem_singleton_self e)
  obtain ⟨edit', hedit, hx⟩ := (exchange_children he hl hmem).exists_exchanged hf m
  rw [hreplace, Except.ok.injEq] at hedit
  exact hedit ▸ hx

/-- A split that succeeds was given no element twice. -/
theorem nodup_of_split (h : f.split e given m = .ok edit) : given.Nodup := by
  cases given with
  | nil => contradiction
  | cons first others =>
      obtain ⟨l, -, hif⟩ := bind_eq_ok.1 h
      split at hif
      · next hsplit => exact ElementSet.size_ofList_iff.1 hsplit.2.2
      · contradiction

/-- An element of the forest is split into its children, in whatever order they are listed. -/
theorem Sound.exists_split_of_listing (hf : f.Sound) (he : e ∈ f) (hs : flags.Has .split)
    (hl : e.children flags = .ok l) (hnodup : given.Nodup) (hgiven : ∀ c, c ∈ given ↔ c ∈ l)
    (m : Mesh D) : ∃ edit, f.split e given m = .ok edit ∧ Exchanged f [e] given m edit.forest := by
  obtain ⟨edit, hreplace, hx⟩ := (exchange_children he hl hgiven).exists_exchanged hf m
  refine ⟨edit, ?_, hx⟩
  cases given with
  | nil => exact absurd (List.eq_nil_iff_forall_not_mem.2 fun c hc =>
      List.not_mem_nil ((hgiven c).2 hc)) (Element.children_ne_nil hl)
  | cons first others =>
      have hfirst : first ∈ l := (hgiven first).1 List.mem_cons_self
      unfold split
      dsimp only
      rw [children_splitTowards hl hfirst]
      exact (if_pos ⟨has_split_splitTowards hl hfirst hs,
        ElementSet.ofList_eq_ofList_iff.2 fun c => (hgiven c).symm,
        ElementSet.size_ofList_iff.2 hnodup⟩).trans hreplace

/-- An element of the forest that can split is split. -/
theorem Sound.exists_split (hf : f.Sound) (he : e ∈ f) (hs : flags.Has .split)
    (hl : e.children flags = .ok l) (m : Mesh D) :
    ∃ edit, f.split e l m = .ok edit ∧ Exchanged f [e] l m edit.forest :=
  hf.exists_split_of_listing he hs hl (Element.ascending_children hl).nodup (fun _ => Iff.rfl) m

/-! ### Joins -/

theorem mem_inside : c ∈ f.inside p ↔ c ∈ f ∧ c.Overlaps p := by
  unfold inside
  rw [List.mem_filter, mem_elements, decide_eq_true_eq]

/-- The elements inside a parent whose children are all there are the children. -/
theorem Sound.inside_eq (hf : f.Sound) (h : p.children flags = .ok l) (hl : ∀ c ∈ l, c ∈ f) :
    f.inside p = l := by
  refine (f.ascending_elements.filter _).eq_of_mem_iff (Element.ascending_children h) fun c => ?_
  rw [← inside, mem_inside]
  constructor
  · rintro ⟨hc, hov⟩
    obtain ⟨x, hx, hpx⟩ := Element.overlaps_iff_exists_covers.1 hov
    obtain ⟨c', hc', hx'⟩ := (Element.covers_iff_exists_mem_children h).1 hpx
    exact hf.eq_of_covers c hc c' (hl c' hc') x hx hx' ▸ hc'
  · intro hc
    obtain ⟨x, hx⟩ := c.exists_covers
    exact ⟨hl c hc, Element.overlaps_of_covers hx (Element.covers_of_mem_children h hc hx)⟩

theorem splitBack_of_mem_children (h : p.children flags = .ok l) (hc : c ∈ l) :
    splitBack p c = .ok (splitTowards p c) := by
  unfold splitBack
  have hnone : (firstAxis? fun d : Fin D => (c.segment d).level ≠ (p.segment d).level + 1 ∧
      (c.segment d).level ≠ (p.segment d).level) = none := by
    refine firstAxis?_eq_none_iff.2 fun d => ?_
    rw [Element.level_of_mem_children h hc]
    split <;> simp
  rw [hnone]

/-- A join that succeeds found the children of the parent inside it, and nothing else. -/
theorem join_eq_ok (h : f.join p m = .ok edit) :
    ∃ flags, p.children flags = .ok (f.inside p) ∧ f.replace (f.inside p) [p] m = .ok edit := by
  unfold join at h
  split at h
  · contradiction
  · dsimp only at h
    split at h
    · contradiction
    · split at h
      · contradiction
      · next flags _ =>
        obtain ⟨l, hl, hif⟩ := bind_eq_ok.1 h
        rw [mapError_eq_ok] at hl
        split at hif
        · next heq => exact ⟨flags, heq ▸ hl, hif⟩
        · contradiction

/-- The parent of a join that succeeds was not there. -/
theorem not_mem_of_join (h : f.join p m = .ok edit) : p ∉ f := by
  intro hp
  unfold join at h
  rw [if_pos hp] at h
  contradiction

theorem Sound.exchanged_of_join (hf : f.Sound) (h : f.join p m = .ok edit) :
    Exchanged f (f.inside p) [p] m edit.forest := by
  obtain ⟨flags, hl, hreplace⟩ := join_eq_ok h
  have hx := exchange_parent hl fun c hc => (mem_inside.1 hc).1
  obtain ⟨edit', hedit, hx⟩ := hx.exists_exchanged hf m
  rw [hreplace, Except.ok.injEq] at hedit
  exact hedit ▸ hx

/-- Children that are all there are joined into their parent. -/
theorem Sound.exists_join (hf : f.Sound) (hs : flags.Has .split) (h : p.children flags = .ok l)
    (hl : ∀ c ∈ l, c ∈ f) (m : Mesh D) :
    ∃ edit, f.join p m = .ok edit ∧ Exchanged f l [p] m edit.forest := by
  obtain ⟨edit, hreplace, hx⟩ := (exchange_parent h hl).exists_exchanged hf m
  refine ⟨edit, ?_, hx⟩
  have hinside := hf.inside_eq h hl
  -- a parent that was there would be one of its own children
  have hp : p ∉ f := fun hp => Element.not_mem_children h hs
    (hinside ▸ mem_inside.2 ⟨hp, p.overlaps_self⟩)
  obtain ⟨first, others, rfl⟩ := List.exists_cons_of_ne_nil (Element.children_ne_nil h)
  have hfirst : first ∈ first :: others := List.mem_cons_self
  unfold join
  rw [if_neg hp, hinside]
  dsimp only
  rw [splitBack_of_mem_children h hfirst]
  dsimp only
  rw [children_splitTowards h hfirst]
  exact (if_pos rfl).trans hreplace

end Forest

end AdaptiveMesh
