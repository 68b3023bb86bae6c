/-
Reports are complete.

Whoever keeps track of neighbours outside a forest learns of an edit only what the edit
reports.  So the report has to be the whole difference between the two forests, as far as
the elements are concerned that are there before and after: every face across which such an
element sees something else is listed, and no other.

That an edit looks at few elements does no harm.  An element that stays and touches none of
those that go touches none of those that come either, so a search among all elements finds
the same neighbours before and after.  This holds however an element is glued to itself,
since touching is a matter of cells.
-/
import AdaptiveMesh.Proofs.Changes
import AdaptiveMesh.Proofs.Reachable

namespace AdaptiveMesh

variable {D : Nat}

/-! ### The order of a report -/

/-- The place of a face among the faces of an element: axis by axis, the lower one first. -/
def Face.rank (f : Face D) : Nat :=
  match f.side with
  | .lower => 2 * f.axis
  | .upper => 2 * f.axis + 1

theorem Face.pairwise_all (D : Nat) : (Face.all D).Pairwise fun f g => f.rank < g.rank := by
  unfold all
  refine List.pairwise_flatMap.2 ⟨fun a _ => ?_, ?_⟩
  · exact List.pairwise_pair.2 (Nat.lt_succ_self _)
  · refine (List.pairwise_lt_finRange D).imp fun {a b} hab f hf g hg => ?_
    have hlt : a.val < b.val := hab
    simp only [List.mem_cons, List.not_mem_nil, or_false] at hf hg
    rcases hf with rfl | rfl <;> rcases hg with rfl | rfl <;> simp only [rank] <;> omega

/-- Changes are ordered by element, and those of one element by face. -/
def Change.Before (k k' : Change D) : Prop :=
  compare k.element k'.element = .lt ∨ k.element = k'.element ∧ k.face.rank < k'.face.rank

namespace Neighborhood

variable {previous current : Neighborhood D} {e : Element D}

theorem mem_changes {k : Change D} : k ∈ previous.changes current e ↔
    k.element = e ∧ previous[k.face] ≠ current[k.face] ∧
      k.previous = previous[k.face] ∧ k.current = current[k.face] := by
  unfold changes
  rw [List.mem_filterMap]
  constructor
  · rintro ⟨face, -, h⟩
    split at h
    · contradiction
    · next hne =>
      obtain rfl := Option.some.inj h
      exact ⟨rfl, hne, rfl, rfl⟩
  · rintro ⟨rfl, hne, hprevious, hcurrent⟩
    refine ⟨k.face, Face.mem_all _, ?_⟩
    rw [if_neg hne, ← hprevious, ← hcurrent]

/-- The changes of one element are listed face by face. -/
theorem pairwise_changes (previous current : Neighborhood D) (e : Element D) :
    (previous.changes current e).Pairwise Change.Before := by
  refine List.pairwise_filterMap.2 ((Face.pairwise_all D).imp fun {f g} hfg k hk k' hk' => ?_)
  split at hk
  · contradiction
  · split at hk'
    · contradiction
    · obtain rfl := Option.some.inj hk
      obtain rfl := Option.some.inj hk'
      exact Or.inr ⟨rfl, hfg⟩

end Neighborhood

namespace Forest

variable {f g : Forest D} {e c p : Element D} {m : Mesh D} {removed added : List (Element D)}
  {edit : Edit D}

theorem pairwise_changesBetween {l : List (Element D)} (hl : Ascending l) :
    (f.changesBetween g l).Pairwise Change.Before := by
  refine List.pairwise_flatMap.2 ⟨fun c _ => Neighborhood.pairwise_changes _ _ c, ?_⟩
  refine hl.imp fun {c c'} hlt k hk k' hk' => ?_
  obtain ⟨rfl, -⟩ := Neighborhood.mem_changes.1 hk
  obtain ⟨rfl, -⟩ := Neighborhood.mem_changes.1 hk'
  exact Or.inl hlt

/-! ### What an edit reports -/

/-- The edit reports what changes for the elements that are there before and after it. -/
structure Reports (f : Forest D) (edit : Edit D) : Prop where
  /-- The changes are listed by element and then by face, none of them twice. -/
  ascending : edit.changes.Pairwise Change.Before
  /-- Listed are the faces across which such an element has another contact now, or one where it had
  none, or none where it had one, with what was there before and what is there now. -/
  mem_iff : ∀ k, k ∈ edit.changes ↔ ∃ r r', f.records[k.element]? = some r ∧
    edit.forest.records[k.element]? = some r' ∧
    r.neighborhood[k.face] ≠ r'.neighborhood[k.face] ∧
    k.previous = r.neighborhood[k.face] ∧ k.current = r'.neighborhood[k.face]

/-- An element that stays and touches none of those that go sees what it saw before. -/
theorem Exchange.around_eq (hf : f.Sound) (hx : Exchange f removed added)
    (hg : Exchanged f removed added m g) (he : e ∈ f) (hne : e ∉ removed)
    (hfar : ¬ f.Beside removed e) : f.around e = g.around e := by
  obtain ⟨b, -, hb⟩ := hx.exists_beside hf
  have hmem : ∀ c, c ∈ b.toList ↔ f.Beside removed c := fun c => by
    rw [Std.ExtTreeSet.mem_toList, hb]
  unfold around
  rw [hg.layout_eq]
  exact hx.neighborhoodAmong_other hf hmem (fun c => mem_elements.trans hg.mem_iff) he hne
    fun h => hfar ((hmem e).1 h)

/-- An exchange in which no element comes back reports what changes. -/
theorem Exchange.reports_replace (hf : f.Sound) (hx : Exchange f removed added)
    (hnew : ∀ e ∈ removed, e ∉ added) (h : f.replace removed added m = .ok edit)
    (hg : Exchanged f removed added m edit.forest) : f.Reports edit := by
  obtain ⟨b, hascending, hb, hchanges⟩ := hx.changes_eq hf h hg
  refine ⟨hchanges ▸ pairwise_changesBetween hascending, fun k => ?_⟩
  rw [hchanges]
  unfold changesBetween
  simp only [List.mem_flatMap, hb, Neighborhood.mem_changes]
  constructor
  · rintro ⟨c, ⟨hc, hstay, -⟩, rfl, hne, hprevious, hcurrent⟩
    obtain ⟨r, hr⟩ := mem_iff_exists_record.1 hc
    obtain ⟨r', hr'⟩ := mem_iff_exists_record.1 (hg.mem_iff.2 (Or.inr ⟨hc, hstay⟩))
    refine ⟨r, r', hr, hr', ?_⟩
    rw [hf.neighborhood_eq _ r hr, hg.sound.neighborhood_eq _ r' hr']
    exact ⟨hne, hprevious, hcurrent⟩
  · rintro ⟨r, r', hr, hr', hchange⟩
    have hc : k.element ∈ f := mem_of_record hr
    have hstay : k.element ∉ removed := by
      intro hgone
      rcases hg.mem_iff.1 (mem_of_record hr') with ha | ⟨-, hstay⟩
      · exact hnew _ hgone ha
      · exact hstay hgone
    rw [hf.neighborhood_eq _ r hr, hg.sound.neighborhood_eq _ r' hr'] at hchange
    have hbeside : f.Beside removed k.element := by
      by_contra hfar
      have hsame := hx.around_eq hf hg hc hstay hfar
      unfold around at hsame
      exact hchange.1 (by rw [hsame])
    exact ⟨_, hbeside, rfl, hchange⟩

theorem Sound.reports_split (hf : f.Sound) {given : List (Element D)}
    (h : f.split e given m = .ok edit) : f.Reports edit := by
  obtain ⟨flags, l, hs, hl, hmem, hreplace⟩ := split_eq_ok h
  have he := mem_of_replace_eq_ok hreplace (List.mem_singleton_self e)
  refine (exchange_children he hl hmem).reports_replace hf (fun c hc hgiven => ?_) hreplace
    (hf.exchanged_of_split h)
  rw [List.mem_singleton.1 hc] at hgiven
  exact Element.not_mem_children hl hs ((hmem e).1 hgiven)

theorem Sound.reports_join (hf : f.Sound) (h : f.join p m = .ok edit) : f.Reports edit := by
  obtain ⟨flags, hl, hreplace⟩ := join_eq_ok h
  have hp : p ∉ f := by
    intro hp
    unfold join at h
    rw [if_pos hp] at h
    contradiction
  have hinside : ∀ c ∈ f.inside p, c ∈ f := fun c hc => (mem_inside.1 hc).1
  refine (exchange_parent hl hinside).reports_replace hf (fun c hc hcp => ?_) hreplace
    (hf.exchanged_of_join h)
  exact hp (List.mem_singleton.1 hcp ▸ hinside c hc)

/-- Every split and every join that succeeds reports what changes for the elements that are there
before and after it. -/
theorem Reachable.reports (hf : Reachable f) :
    (∀ e given m edit, f.split e given m = .ok edit → f.Reports edit) ∧
      ∀ p m edit, f.join p m = .ok edit → f.Reports edit :=
  ⟨fun _ _ _ _ h => hf.sound.reports_split h, fun _ _ _ h => hf.sound.reports_join h⟩

section Ring

/-- In the split ring each of the two smaller elements touches the whole one across both of its
ends.  When the whole one is cut, all four faces are reported; when the smaller ones are put
together, the two faces of the whole one are. -/
theorem reports_splitRing :
    (∃ edit, splitRing.split (square (1, 1) (0, 0))
        [square (1, 1) (1, 0), square (1, 1) (1, 1)] squareMesh = .ok edit ∧
      edit.changes.length = 4 ∧ splitRing.Reports edit) ∧
    ∃ edit, splitRing.join (square (1, 0) (0, 0)) squareMesh = .ok edit ∧
      edit.changes.length = 2 ∧ splitRing.Reports edit := by
  obtain ⟨hsplit, hjoin⟩ := Reachable.reports reachable_splitRing
  constructor
  · have hok : ((splitRing.split (square (1, 1) (0, 0))
        [square (1, 1) (1, 0), square (1, 1) (1, 1)] squareMesh).toOption.map fun edit =>
          edit.changes.length) = some 4 := by
      decide +kernel
    obtain ⟨edit, hedit, hlength⟩ := exists_eq_ok_of_toOption hok
    exact ⟨edit, hedit, hlength, hsplit _ _ _ edit hedit⟩
  · have hok : ((splitRing.join (square (1, 0) (0, 0)) squareMesh).toOption.map fun edit =>
        edit.changes.length) = some 2 := by
      decide +kernel
    obtain ⟨edit, hedit, hlength⟩ := exists_eq_ok_of_toOption hok
    exact ⟨edit, hedit, hlength, hjoin _ _ edit hedit⟩

end Ring

end Forest

end AdaptiveMesh
