/-
Neighbourhoods as sets.

A neighbourhood is collected from a list of candidates, and what it comes to depends
only on which candidates there are: the elements across a face are a set, and all of
them are seen through one orientation.  Candidates that do not touch may therefore be
left out, which is what lets a neighbourhood be brought up to date from the few
elements that could possibly have come or gone.
-/
import Mathlib.Data.List.Perm.Subperm
import AdaptiveMesh.Proofs.Contact

namespace AdaptiveMesh

namespace ElementSet

variable {D : Nat}

theorem mem_ofList {l : List (Element D)} {c : Element D} :
    c ∈ (Std.ExtTreeSet.ofList l : ElementSet D) ↔ c ∈ l := by
  rw [Std.ExtTreeSet.mem_ofList, List.contains_iff_mem]

theorem ofList_eq_ofList_iff {l m : List (Element D)} :
    (Std.ExtTreeSet.ofList l : ElementSet D) = Std.ExtTreeSet.ofList m ↔ ∀ c, c ∈ l ↔ c ∈ m := by
  constructor
  · intro h c
    rw [← mem_ofList, h, mem_ofList]
  · intro h
    refine Std.ExtTreeSet.ext_mem fun c => ?_
    rw [mem_ofList, mem_ofList, h]

/-- A list is as long as its set exactly if it lists nothing twice. -/
theorem size_ofList_iff {l : List (Element D)} :
    (Std.ExtTreeSet.ofList l : ElementSet D).size = l.length ↔ l.Nodup := by
  constructor
  · intro hsize
    have hset : (Std.ExtTreeSet.ofList l : ElementSet D).toList.Nodup :=
      Std.ExtTreeSet.distinct_toList.imp fun hne heq =>
        hne (Std.LawfulEqOrd.compare_eq_iff_eq.2 heq)
    have hsub : (Std.ExtTreeSet.ofList l : ElementSet D).toList.Subperm l :=
      List.subperm_of_subset hset fun c hc => mem_ofList.1 (Std.ExtTreeSet.mem_toList.1 hc)
    have hperm := hsub.perm_of_length_le
      (Nat.le_of_eq (by rw [Std.ExtTreeSet.length_toList, hsize]))
    exact hperm.nodup_iff.1 hset
  · intro hnodup
    exact Std.ExtTreeSet.size_ofList
      (hnodup.imp fun hne heq => hne (Std.LawfulEqOrd.compare_eq_iff_eq.1 heq))

end ElementSet

namespace Neighborhood

variable {D : Nat} {n : Neighborhood D}

theorem mem_contacts {f : Face D} {k : Contact D} : (f, k) ∈ n.contacts ↔ n[f] = some k := by
  simp only [contacts, List.mem_filterMap, Option.map_eq_some_iff, Prod.mk.injEq]
  constructor
  · rintro ⟨g, -, k', hk, rfl, rfl⟩
    exact hk
  · intro h
    exact ⟨f, Face.mem_all f, k, h, rfl, rfl⟩

theorem mem_elements {c : Element D} :
    c ∈ n.elements ↔ ∃ (f : Face D) (k : Contact D), n[f] = some k ∧ c ∈ k.elements := by
  unfold elements
  rw [ElementSet.mem_ofList, List.mem_flatMap]
  simp only [Prod.exists, mem_contacts, Std.ExtTreeSet.mem_toList]

theorem mem_contactsWith {c : Element D} {entry : Face D × Contact D} :
    entry ∈ n.contactsWith c ↔ n[entry.1] = some entry.2 ∧ c ∈ entry.2.elements := by
  unfold contactsWith
  rw [List.mem_filter, mem_contacts, decide_eq_true_eq]

theorem mem_boundary {f : Face D} : f ∈ n.boundary ↔ n[f] = none := by
  unfold boundary
  rw [List.mem_filter, Option.isNone_iff_eq_none]
  exact and_iff_right (Face.mem_all f)

end Neighborhood

namespace Layout

variable {D : Nat} {L : Layout D} {e : Element D} {f : Face D} {l l' : List (Element D)}

/-- The candidates that touch, each with the orientation of the contact. -/
def touchingAmong (L : Layout D) (e : Element D) (l : List (Element D)) (f : Face D) :
    List (Element D × Orientation D) :=
  l.filterMap fun c => (L.touching? e f c).map (c, ·)

theorem mem_touchingAmong {c : Element D} {o : Orientation D} :
    (c, o) ∈ L.touchingAmong e l f ↔ c ∈ l ∧ L.touching? e f c = some o := by
  simp only [touchingAmong, List.mem_filterMap, Option.map_eq_some_iff, Prod.mk.injEq]
  constructor
  · rintro ⟨c', hc, o', ho, rfl, rfl⟩
    exact ⟨hc, ho⟩
  · rintro ⟨hc, ho⟩
    exact ⟨c, hc, o, ho, rfl, rfl⟩

theorem contactAmong?_eq (L : Layout D) (e : Element D) (l : List (Element D)) (f : Face D) :
    L.contactAmong? e l f = (L.touchingAmong e l f).getLast?.map fun p =>
      ⟨Std.ExtTreeSet.ofList ((L.touchingAmong e l f).map (·.1)), p.2⟩ := rfl

/-- The elements of a contact are the candidates that touch, and all of them do so through its
orientation. -/
theorem contactAmong?_eq_some {k : Contact D} (h : L.contactAmong? e l f = some k) (c : Element D) :
    c ∈ k.elements ↔ c ∈ l ∧ L.touching? e f c = some k.orientation := by
  rw [contactAmong?_eq, Option.map_eq_some_iff] at h
  obtain ⟨⟨last, o⟩, hlast, rfl⟩ := h
  have hseen := (mem_touchingAmong.1 (List.mem_of_getLast? hlast)).2
  show c ∈ (Std.ExtTreeSet.ofList ((L.touchingAmong e l f).map (·.1)) : ElementSet D)
    ↔ c ∈ l ∧ L.touching? e f c = some o
  rw [ElementSet.mem_ofList, List.mem_map]
  constructor
  · rintro ⟨⟨c', o'⟩, hm, rfl⟩
    obtain ⟨hc, ho⟩ := mem_touchingAmong.1 hm
    rw [orientation_unique hseen ho]
    exact ⟨hc, ho⟩
  · rintro ⟨hc, ho⟩
    exact ⟨(c, o), mem_touchingAmong.2 ⟨hc, ho⟩, rfl⟩

/-- A contact lists some element. -/
theorem exists_mem_of_contactAmong?_eq_some {k : Contact D} (h : L.contactAmong? e l f = some k) :
    ∃ c, c ∈ k.elements := by
  have hk := h
  rw [contactAmong?_eq, Option.map_eq_some_iff] at hk
  obtain ⟨⟨last, o⟩, hlast, rfl⟩ := hk
  exact ⟨last, (contactAmong?_eq_some h last).2 (mem_touchingAmong.1 (List.mem_of_getLast? hlast))⟩

/-- There is a contact across a face as soon as some candidate touches there. -/
theorem exists_contactAmong? {c : Element D} {o : Orientation D} (hc : c ∈ l)
    (ho : L.touching? e f c = some o) :
    ∃ k, L.contactAmong? e l f = some k ∧ c ∈ k.elements ∧ k.orientation = o := by
  have hm := mem_touchingAmong.2 ⟨hc, ho⟩
  obtain ⟨⟨last, o'⟩, hlast⟩ := Option.isSome_iff_exists.1
    (List.getLast?_isSome.2 (List.ne_nil_of_mem hm))
  have hk : L.contactAmong? e l f
      = some ⟨Std.ExtTreeSet.ofList ((L.touchingAmong e l f).map (·.1)), o'⟩ := by
    rw [contactAmong?_eq, hlast]
    rfl
  have hseen := (mem_touchingAmong.1 (List.mem_of_getLast? hlast)).2
  obtain rfl := orientation_unique hseen ho
  exact ⟨_, hk, (contactAmong?_eq_some hk c).2 ⟨hc, ho⟩, rfl⟩

/-- What lies across a face depends only on which candidates touch there. -/
theorem contactAmong?_congr
    (h : ∀ c o, L.touching? e f c = some o → (c ∈ l ↔ c ∈ l')) :
    L.contactAmong? e l f = L.contactAmong? e l' f := by
  have key : ∀ {l l' : List (Element D)} {k : Contact D},
      (∀ c o, L.touching? e f c = some o → (c ∈ l ↔ c ∈ l')) →
      L.contactAmong? e l f = some k → L.contactAmong? e l' f = some k := by
    intro l l' k h hk
    obtain ⟨⟨last, o⟩, hlast, hko⟩ := Option.map_eq_some_iff.1 ((contactAmong?_eq L e l f) ▸ hk)
    obtain ⟨hmem, htouch⟩ := mem_touchingAmong.1 (List.mem_of_getLast? hlast)
    obtain ⟨k', hk', -, ho'⟩ := exists_contactAmong? ((h _ _ htouch).1 hmem) htouch
    have hok : k.orientation = o := by rw [← hko]
    rw [hk']
    obtain ⟨s, p⟩ := k
    obtain ⟨s', p'⟩ := k'
    obtain rfl : p' = p := ho'.trans hok.symm
    congr 2
    refine Std.ExtTreeSet.ext_mem fun c => ?_
    rw [contactAmong?_eq_some hk' c, contactAmong?_eq_some hk c]
    exact and_congr_left fun ho => (h c _ ho).symm
  cases hk : L.contactAmong? e l f with
  | some k => exact (key h hk).symm
  | none =>
      cases hk' : L.contactAmong? e l' f with
      | none => rfl
      | some k => exact absurd (key (fun c o ho => (h c o ho).symm) hk') (by simp [hk])

@[simp] theorem getElem_neighborhoodAmong :
    (L.neighborhoodAmong e l)[f] = L.contactAmong? e l f :=
  FaceTable.getElem_ofFn _ f

/-- A neighbourhood depends only on which candidates touch the element at all. -/
theorem neighborhoodAmong_congr
    (h : ∀ f c o, L.touching? e f c = some o → (c ∈ l ↔ c ∈ l')) :
    L.neighborhoodAmong e l = L.neighborhoodAmong e l' := by
  refine FaceTable.ext_getElem fun f => ?_
  rw [getElem_neighborhoodAmong, getElem_neighborhoodAmong]
  exact contactAmong?_congr (h f)

theorem mem_elements_neighborhoodAmong {c : Element D} :
    c ∈ (L.neighborhoodAmong e l).elements ↔ c ∈ l ∧ ∃ f o, L.touching? e f c = some o := by
  rw [Neighborhood.mem_elements]
  simp only [getElem_neighborhoodAmong]
  constructor
  · rintro ⟨f, k, hk, hc⟩
    obtain ⟨hl, ho⟩ := (contactAmong?_eq_some hk c).1 hc
    exact ⟨hl, f, _, ho⟩
  · rintro ⟨hl, f, o, ho⟩
    obtain ⟨k, hk, hc, -⟩ := exists_contactAmong? hl ho
    exact ⟨f, k, hk, hc⟩

/-- The layout knows enough about the elements of its own blocks. -/
theorem neighborhood_eq_ok (h : e.block < L.blocks.length) :
    L.neighborhood e l = .ok (L.neighborhoodAmong e l) := by
  unfold neighborhood
  rw [if_neg]
  rintro ⟨f, -, c, -, hlacks⟩
  exact absurd h (Nat.not_lt.2 hlacks.1)

end Layout

end AdaptiveMesh
