/-
Sound forests.

A forest is sound when its elements tile the blocks of a symmetric layout and every
record lists exactly the elements that touch.  The first part is a matter of cells:
every cell of a block is covered by one element.  The second part asks the record to
be what a search among all elements would find; nothing is said about how it came to
be that.

The audit of a forest looks at each record and at each pair of elements.  It succeeds
on sound forests, because touching is mutual.
-/
import AdaptiveMesh.Forest.Audit
import AdaptiveMesh.Proofs.Ascending
import AdaptiveMesh.Proofs.Neighborhood
import AdaptiveMesh.Proofs.Traversal

namespace AdaptiveMesh

namespace Forest

variable {D : Nat} {f : Forest D} {e c : Element D} {r : Record D}

/-! ### Elements and their records -/

theorem mem_elements : e ∈ f.elements ↔ e ∈ f :=
  Std.ExtTreeMap.mem_keys

theorem mem_iff_exists_record : e ∈ f ↔ ∃ r, f.records[e]? = some r := by
  show e ∈ f.records ↔ _
  rw [Std.ExtTreeMap.mem_iff_isSome_getElem?, Option.isSome_iff_exists]

theorem mem_of_record (h : f.records[e]? = some r) : e ∈ f :=
  mem_iff_exists_record.2 ⟨r, h⟩

theorem record_eq_ok : f.record e = .ok r ↔ f.records[e]? = some r := by
  unfold record
  cases f.records[e]? <;> simp

theorem exists_record (h : e ∈ f) : ∃ r, f.record e = .ok r := by
  obtain ⟨r, hr⟩ := mem_iff_exists_record.1 h
  exact ⟨r, record_eq_ok.2 hr⟩

theorem ascending_elements (f : Forest D) : Ascending f.elements :=
  Std.ExtTreeMap.ordered_keys

/-! ### The invariant -/

/-- The elements tile the blocks of a symmetric layout, and every record lists the elements that
touch. -/
structure Sound (f : Forest D) : Prop where
  /-- Every gluing is recorded on both of its sides. -/
  symmetric : f.layout.Symmetric
  /-- Every element lies in a block. -/
  block_lt : ∀ e ∈ f, e.block < f.layout.blocks.length
  /-- No cell of a block is left out. -/
  covered : ∀ x : Cell D, x.block < f.layout.blocks.length → ∃ e ∈ f, e.Covers x
  /-- No cell is covered twice. -/
  eq_of_covers : ∀ e ∈ f, ∀ c ∈ f, ∀ x, e.Covers x → c.Covers x → e = c
  /-- A record lists what a search among all elements finds. -/
  neighborhood_eq : ∀ e r, f.records[e]? = some r →
    r.neighborhood = f.layout.neighborhoodAmong e f.elements

namespace Sound

theorem not_overlaps (hf : f.Sound) (he : e ∈ f) (hc : c ∈ f) (hne : e ≠ c) :
    ¬ e.Overlaps c := by
  intro h
  obtain ⟨x, hx, hx'⟩ := Element.overlaps_iff_exists_covers.1 h
  exact hne (hf.eq_of_covers e he c hc x hx hx')

theorem mem_neighbors_iff (hf : f.Sound) (hr : f.records[e]? = some r) :
    c ∈ r.neighborhood.elements ↔ c ∈ f ∧ ∃ face o, f.layout.touching? e face c = some o := by
  rw [hf.neighborhood_eq e r hr, Layout.mem_elements_neighborhoodAmong, mem_elements]

/-- A contact lists the elements that touch across its face. -/
theorem mem_contact_iff (hf : f.Sound) (hr : f.records[e]? = some r) {face : Face D}
    {k : Contact D} (hk : r.neighborhood[face] = some k) :
    c ∈ k.elements ↔ c ∈ f ∧ f.layout.touching? e face c = some k.orientation := by
  rw [hf.neighborhood_eq e r hr, Layout.getElem_neighborhoodAmong] at hk
  rw [Layout.contactAmong?_eq_some hk c, mem_elements]

/-- There is no contact without an element that touches. -/
theorem exists_touching (hf : f.Sound) (hr : f.records[e]? = some r) {face : Face D}
    {k : Contact D} (hk : r.neighborhood[face] = some k) :
    ∃ c ∈ f, f.layout.touching? e face c = some k.orientation := by
  have hsearch := hk
  rw [hf.neighborhood_eq e r hr, Layout.getElem_neighborhoodAmong] at hsearch
  obtain ⟨c, hc⟩ := Layout.exists_mem_of_contactAmong?_eq_some hsearch
  exact ⟨c, (hf.mem_contact_iff hr hk).1 hc⟩

/-- An element that touches across a face is listed there. -/
theorem exists_contact (hf : f.Sound) (hr : f.records[e]? = some r) (hc : c ∈ f) {face : Face D}
    {o : Orientation D} (ho : f.layout.touching? e face c = some o) :
    ∃ k, r.neighborhood[face] = some k ∧ c ∈ k.elements ∧ k.orientation = o := by
  rw [hf.neighborhood_eq e r hr, Layout.getElem_neighborhoodAmong]
  exact Layout.exists_contactAmong? (mem_elements.2 hc) ho

/-! ### The audit

The audit looks at the records only, and asks whether what they list is mutual and whether elements
overlap.  A neighbour that is missing on both sides escapes it, and so does a cell that nobody
covers.  So a sound forest passes, but not only sound forests do. -/

end Sound

section OfLayout

variable {L : Layout D} {basis : Basis} {quadrature : Quadrature} {l : List (Element D)}

theorem mem_block_elements {b : Block D} {number : Nat} {h : 0 < D} :
    e ∈ b.elements number h ↔ e.block = number ∧ ∀ d, (e.segment d).level = b.levels.get d := by
  unfold Block.elements
  rw [List.mem_map]
  constructor
  · rintro ⟨v, hv, rfl⟩
    refine ⟨rfl, fun d => ?_⟩
    have := mem_choices.1 hv d
    rw [get_ofFn, Segment.mem_ofLevel] at this
    exact this
  · rintro ⟨rfl, hl⟩
    refine ⟨e.segments, mem_choices.2 fun d => ?_, rfl⟩
    rw [get_ofFn, Segment.mem_ofLevel]
    exact hl d

theorem mem_layout_elements (h : L.elements = .ok l) :
    e ∈ l ↔ ∃ b, L.blocks[e.block]? = some b ∧ ∀ d, (e.segment d).level = b.levels.get d := by
  unfold Layout.elements at h
  rw [dif_pos e.dimension_pos] at h
  rw [← Except.ok.inj h, List.mem_flatMap]
  simp only [Prod.exists, List.mem_zipIdx_iff_getElem?, mem_block_elements]
  constructor
  · rintro ⟨b, number, hb, rfl, hl⟩
    exact ⟨b, hb, hl⟩
  · rintro ⟨b, hb, hl⟩
    exact ⟨b, e.block, hb, rfl, hl⟩

/-- The first elements of a block are all of one level, so they cover it. -/
theorem exists_mem_layout_elements (h : L.elements = .ok l) {x : Cell D}
    (hx : x.block < L.blocks.length) : ∃ e ∈ l, e.Covers x := by
  have hD : 0 < D := by
    by_cases hD : 0 < D
    · exact hD
    · unfold Layout.elements at h
      rw [dif_neg hD, if_neg] at h
      · contradiction
      · rw [List.isEmpty_iff]
        exact List.ne_nil_of_length_pos (Nat.zero_lt_of_lt hx)
  obtain ⟨b, hb⟩ : ∃ b, L.blocks[x.block]? = some b := ⟨_, List.getElem?_eq_getElem hx⟩
  choose s hs using fun d => Segment.exists_covers_of_level (b.levels_le d) (x.place_lt d)
  let e : Element D := ⟨x.block, Vector.ofFn s, hD⟩
  have hseg : ∀ d, e.segment d = s d := fun d => get_ofFn s d
  refine ⟨e, (mem_layout_elements h).2 ⟨b, hb, fun d => ?_⟩, rfl, fun d => ?_⟩
  · rw [hseg]
    exact (hs d).1
  · rw [hseg]
    exact (hs d).2

theorem eq_of_mem_layout_elements (h : L.elements = .ok l) {x : Cell D} (he : e ∈ l) (hc : c ∈ l)
    (hx : e.Covers x) (hx' : c.Covers x) : e = c := by
  obtain ⟨b, hb, hl⟩ := (mem_layout_elements h).1 he
  obtain ⟨b', hb', hl'⟩ := (mem_layout_elements h).1 hc
  have hblock : e.block = c.block := hx.1.trans hx'.1.symm
  rw [hblock, hb', Option.some.injEq] at hb
  refine Element.eq_of_covers (fun d => ?_) hx hx'
  rw [hl, hl', hb]

theorem block_lt_of_mem_layout_elements (h : L.elements = .ok l) (he : e ∈ l) :
    e.block < L.blocks.length := by
  obtain ⟨b, hb, -⟩ := (mem_layout_elements h).1 he
  exact (List.getElem?_eq_some_iff.1 hb).1

theorem firstRecords_eq_ok {records : List (Element D × Record D)} (h : L.elements = .ok l)
    (hr : firstRecords L basis quadrature l = .ok records) :
    (∀ e r, (e, r) ∈ records → e ∈ l ∧ r.neighborhood = L.neighborhoodAmong e l) ∧
      ∀ e ∈ l, ∃ r, (e, r) ∈ records := by
  have hstep : ∀ e ∈ l, ∀ p, (do
      let mesh ← L.mesh e.block basis quadrature .aligned
      let neighborhood ← L.neighborhood e l
      return (e, ({ neighborhood, mesh } : Record D))) = Except.ok p →
      p.1 = e ∧ p.2.neighborhood = L.neighborhoodAmong e l := by
    intro e he p hp
    rw [Layout.neighborhood_eq_ok (block_lt_of_mem_layout_elements h he)] at hp
    obtain ⟨mesh, -, n, hn, hp⟩ := by simpa only [bind_eq_ok] using hp
    rw [← pure_eq_ok.1 hp, ← Except.ok.inj hn]
    exact ⟨rfl, rfl⟩
  constructor
  · intro e r hm
    obtain ⟨e', he', hp⟩ := exists_source_of_mapM hr hm
    obtain ⟨rfl, hn⟩ := hstep e' he' _ hp
    exact ⟨he', hn⟩
  · intro e he
    obtain ⟨p, hm, hp⟩ := exists_result_of_mapM hr he
    obtain ⟨rfl, -⟩ := hstep e he p hp
    exact ⟨p.2, hm⟩

/-- A forest is sound when it starts. -/
theorem sound_ofLayout (h : ofLayout L basis quadrature = .ok f) :
    f.Sound ∧ f.layout = L := by
  unfold ofLayout at h
  simp only [bind_eq_ok, pure_eq_ok] at h
  obtain ⟨_, hval, l, hl, records, hrec, rfl⟩ := h
  obtain ⟨hlisted, hall⟩ := firstRecords_eq_ok hl hrec
  have hmem : ∀ e, e ∈ Std.ExtTreeMap.ofList records ↔ e ∈ l := by
    intro e
    rw [Std.ExtTreeMap.mem_ofList, List.contains_iff_mem, List.mem_map]
    constructor
    · rintro ⟨⟨e', r⟩, hm, rfl⟩
      exact (hlisted e' r hm).1
    · intro he
      obtain ⟨r, hm⟩ := hall e he
      exact ⟨(e, r), hm, rfl⟩
  refine ⟨⟨Layout.validate_eq_ok_iff.1 hval, fun e he => ?_, fun x hx => ?_,
    fun e he c hc x => ?_, fun e r hr => ?_⟩, rfl⟩
  · exact block_lt_of_mem_layout_elements hl ((hmem e).1 he)
  · obtain ⟨e, he, hcov⟩ := exists_mem_layout_elements hl hx
    exact ⟨e, (hmem e).2 he, hcov⟩
  · exact eq_of_mem_layout_elements hl ((hmem e).1 he) ((hmem c).1 hc)
  · have hm := (hlisted e r (mem_of_getElem?_ofList hr)).2
    rw [hm]
    refine Layout.neighborhoodAmong_congr fun _ c _ _ => ?_
    rw [mem_elements]
    exact (hmem c).symm

end OfLayout

end Forest

end AdaptiveMesh
