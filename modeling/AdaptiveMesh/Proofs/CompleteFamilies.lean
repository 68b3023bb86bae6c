/-
Edits accept whole families.

A split finds out from the first element that it is given along which axes the element is to be
bisected, and a join finds it out from the first element inside the parent.  No choice is lost by
that: along every axis the children of one decision are on one level, so any of them tells the
decision, and a list that belongs to no decision is refused whichever of its elements is looked at.
So an edit succeeds exactly if it is given a whole family, and then it exchanges that family and
nothing else.
-/
import AdaptiveMesh.Proofs.Reachable

namespace AdaptiveMesh

namespace Forest

variable {D : Nat} {f g : Forest D} {e c p : Element D} {m : Mesh D} {given : List (Element D)}
  {removed added : List (Element D)} {edit : Edit D}

/-! ### When an edit succeeds -/

/-- An element is split exactly if it is there and all its children under some decision that splits
it are listed, each once. -/
theorem Sound.exists_split_iff (hf : f.Sound) : (∃ edit, f.split e given m = .ok edit) ↔
    e ∈ f ∧ ∃ flags l, flags.Has .split ∧ e.children flags = .ok l ∧ given.Nodup ∧
      ∀ c, c ∈ given ↔ c ∈ l := by
  constructor
  · rintro ⟨edit, h⟩
    obtain ⟨flags, l, hs, hl, hmem, hreplace⟩ := split_eq_ok h
    exact ⟨mem_of_replace_eq_ok hreplace (List.mem_singleton_self e), flags, l, hs, hl,
      nodup_of_split h, hmem⟩
  · rintro ⟨he, flags, l, hs, hl, hnodup, hmem⟩
    obtain ⟨edit, h, -⟩ := hf.exists_split_of_listing he hs hl hnodup hmem m
    exact ⟨edit, h⟩

/-- Elements are joined into a parent exactly if it is not there and those that overlap it are its
children under some decision that splits it. -/
theorem Sound.exists_join_iff (hf : f.Sound) : (∃ edit, f.join p m = .ok edit) ↔
    p ∉ f ∧ ∃ flags l, flags.Has .split ∧ p.children flags = .ok l ∧
      ∀ c, c ∈ l ↔ c ∈ f ∧ c.Overlaps p := by
  constructor
  · rintro ⟨edit, h⟩
    have hp := not_mem_of_join h
    obtain ⟨flags, hl, -⟩ := join_eq_ok h
    refine ⟨hp, flags, _, ?_, hl, fun c => mem_inside⟩
    -- a parent without a split would be inside itself
    by_contra hs
    obtain ⟨c, hc⟩ := List.exists_mem_of_ne_nil _ (Element.children_ne_nil hl)
    exact hp (Element.eq_of_mem_children hl hs hc ▸ (mem_inside.1 hc).1)
  · rintro ⟨-, flags, l, hs, hl, hmem⟩
    obtain ⟨edit, h, -⟩ := hf.exists_join hs hl (fun c hc => ((hmem c).1 hc).1) m
    exact ⟨edit, h⟩

/-! ### What an edit does -/

/-- Exactly these elements are gone and exactly those are new.  The new ones have the given mesh,
and all others have theirs. -/
structure Trades (f : Forest D) (removed added : List (Element D)) (m : Mesh D) (g : Forest D) :
    Prop where
  /-- The elements that are gone were there. -/
  gone : ∀ e ∈ removed, e ∈ f ∧ e ∉ g
  /-- The elements that are new were not there. -/
  new : ∀ e ∈ added, e ∉ f ∧ g.mesh? e = some m
  /-- Every other element is there if it was, with its mesh. -/
  kept : ∀ e, e ∉ removed → e ∉ added → (e ∈ g ↔ e ∈ f) ∧ g.mesh? e = f.mesh? e

theorem Exchange.trades (hf : f.Sound) (hx : Exchange f removed added)
    (h : Exchanged f removed added m g) (hnew : ∀ e ∈ added, e ∉ removed) :
    Trades f removed added m g where
  gone e he := by
    refine ⟨hx.removed_mem e he, fun heg => ?_⟩
    rcases h.mem_iff.1 heg with hadded | ⟨-, hkept⟩
    · exact hnew e hadded he
    · exact hkept he
  new e he := ⟨fun hef => hnew e he (hx.mem_removed hf he hef), by rw [h.mesh?_eq, if_pos he]⟩
  kept e hr ha := by
    have hmesh : g.mesh? e = f.mesh? e := by rw [h.mesh?_eq, if_neg ha, if_neg hr]
    exact ⟨by rw [mem_iff_mesh?, mem_iff_mesh?, hmesh], hmesh⟩

theorem Sound.trades_of_split (hf : f.Sound) (h : f.split e given m = .ok edit) :
    Trades f [e] given m edit.forest := by
  obtain ⟨flags, l, hs, hl, hmem, hreplace⟩ := split_eq_ok h
  have he := mem_of_replace_eq_ok hreplace (List.mem_singleton_self e)
  refine (exchange_children he hl hmem).trades hf (hf.exchanged_of_split h) fun c hc hce => ?_
  exact Element.not_mem_children hl hs (List.mem_singleton.1 hce ▸ (hmem c).1 hc)

theorem Sound.trades_of_join (hf : f.Sound) (h : f.join p m = .ok edit) :
    Trades f (f.inside p) [p] m edit.forest := by
  obtain ⟨flags, hl, -⟩ := join_eq_ok h
  have hx := exchange_parent hl fun c hc => (mem_inside.1 hc).1
  refine hx.trades hf (hf.exchanged_of_join h) fun c hc hin => ?_
  exact not_mem_of_join h (List.mem_singleton.1 hc ▸ (mem_inside.1 hin).1)

/-! ### Edits of a forest that was reached -/

theorem afterEdit_of_ne_ok {attempt : Except (Fault D) (Edit D)}
    (h : ∀ edit, attempt ≠ .ok edit) : f.afterEdit attempt = f := by
  cases attempt with
  | error fault => rfl
  | ok edit => exact absurd rfl (h edit)

/-- An edit accepts exactly the whole families.  A split wants an element of the forest and all its
children under some decision that splits it, in any order but each once; a join wants a parent that
is not there and whose children under some such decision are what overlaps it.  An edit that
succeeds exchanges the family and nothing else, and one that fails leaves the forest as it was. -/
theorem Reachable.edits_accept_families (hf : Reachable f) (m : Mesh D) :
    (∀ e given, ((∃ edit, f.split e given m = .ok edit) ↔
        e ∈ f ∧ ∃ flags l, flags.Has .split ∧ e.children flags = .ok l ∧ given.Nodup ∧
          ∀ c, c ∈ given ↔ c ∈ l) ∧
      (∀ edit, f.split e given m = .ok edit → Trades f [e] given m edit.forest) ∧
      ((∀ edit, f.split e given m ≠ .ok edit) → f.afterEdit (f.split e given m) = f)) ∧
    ∀ p, ((∃ edit, f.join p m = .ok edit) ↔
        p ∉ f ∧ ∃ flags l, flags.Has .split ∧ p.children flags = .ok l ∧
          ∀ c, c ∈ l ↔ c ∈ f ∧ c.Overlaps p) ∧
      (∀ edit, f.join p m = .ok edit → Trades f (f.inside p) [p] m edit.forest) ∧
      ((∀ edit, f.join p m ≠ .ok edit) → f.afterEdit (f.join p m) = f) := by
  have hs := hf.sound
  exact ⟨fun e given => ⟨hs.exists_split_iff, fun edit => hs.trades_of_split, afterEdit_of_ne_ok⟩,
    fun p => ⟨hs.exists_join_iff, fun edit => hs.trades_of_join, afterEdit_of_ne_ok⟩⟩

/-- The quarters of the element of the split ring that is whole. -/
def quarters : List (Element 2) :=
  [square (2, 2) (1, 0), square (2, 2) (1, 1), square (2, 3) (1, 0), square (2, 3) (1, 1)]

/-- In the split ring the element that is whole is cut along both axes, its children listed from the
last to the first, and the halves of the other one are put together. -/
theorem edits_accept_families_splitRing :
    (∃ edit, splitRing.split (square (1, 1) (0, 0)) quarters.reverse squareMesh = .ok edit ∧
      square (1, 1) (0, 0) ∉ edit.forest) ∧
    ∃ edit, splitRing.join (square (1, 0) (0, 0)) squareMesh = .ok edit ∧
      edit.forest.mesh? (square (1, 0) (0, 0)) = some squareMesh := by
  obtain ⟨hsplit, hjoin⟩ := Reachable.edits_accept_families reachable_splitRing squareMesh
  constructor
  · obtain ⟨hiff, htrades, -⟩ := hsplit (square (1, 1) (0, 0)) quarters.reverse
    obtain ⟨edit, hedit⟩ := hiff.2 ⟨by decide +kernel, .uniform .split, quarters, by decide,
      by decide +kernel, by decide +kernel, fun c => List.mem_reverse⟩
    exact ⟨edit, hedit, ((htrades edit hedit).gone _ (List.mem_singleton_self _)).2⟩
  · obtain ⟨hiff, htrades, -⟩ := hjoin (square (1, 0) (0, 0))
    obtain ⟨edit, hedit⟩ := hiff.2 ⟨by decide +kernel, #v[.doNothing, .split],
      splitRing.inside (square (1, 0) (0, 0)), by decide, by decide +kernel, fun c => mem_inside⟩
    exact ⟨edit, hedit, ((htrades edit hedit).new _ (List.mem_singleton_self _)).2⟩

end Forest

end AdaptiveMesh
