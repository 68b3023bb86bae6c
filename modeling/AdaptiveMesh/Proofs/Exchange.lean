/-
Exchanges keep a forest sound.

An exchange takes elements out of a forest and puts others in that cover the same
cells.  Whatever touches an element that comes touched one that goes, since the cells
at which they meet stay where they are; so the elements beside those that go are the
only ones whose neighbours change, and the only ones that the new elements can touch.
This is why an exchange may look for neighbours among a few candidates and still find
what a search among all elements would find.

Splits and joins are the two exchanges there are.  Each is shown to be one whenever it
succeeds, and to succeed whenever its elements belong together.
-/
import AdaptiveMesh.Forest.Round
import AdaptiveMesh.Proofs.Sound

namespace AdaptiveMesh

namespace Forest

variable {D : Nat} {f g : Forest D} {e c : Element D} {r : Record D} {m : Mesh D}
  {removed added : List (Element D)}

/-! ### Meshes

In a sound forest the neighbourhoods are what a search finds, and only the meshes are not determined
by the elements.  So forests are compared by their elements and meshes, and to change a mesh does
not touch soundness. -/

theorem mem_iff_mesh? : e ∈ f ↔ ∃ m, f.mesh? e = some m := by
  rw [mem_iff_exists_record]
  simp only [mesh?, Option.map_eq_some_iff]
  constructor
  · rintro ⟨r, hr⟩
    exact ⟨r.mesh, r, hr, rfl⟩
  · rintro ⟨-, r, hr, -⟩
    exact ⟨r, hr⟩

theorem mesh?_of_record (h : f.records[e]? = some r) : f.mesh? e = some r.mesh := by
  rw [mesh?, h]
  rfl

/-- In a sound forest the mesh of an element makes its record. -/
theorem Sound.getElem?_eq_some_iff (hf : f.Sound) : f.records[e]? = some r ↔
    f.mesh? e = some r.mesh ∧ r.neighborhood = f.layout.neighborhoodAmong e f.elements := by
  constructor
  · exact fun hr => ⟨mesh?_of_record hr, hf.neighborhood_eq e r hr⟩
  · rintro ⟨hm, hn⟩
    obtain ⟨r', hr', hmesh⟩ := Option.map_eq_some_iff.1 hm
    have hn' := hf.neighborhood_eq e r' hr'
    rw [hr']
    cases r
    cases r'
    simp_all

/-- Sound forests over one layout that have the same elements with the same meshes are one. -/
theorem Sound.eq_of_mesh? (hf : f.Sound) (hg : g.Sound) (hlayout : f.layout = g.layout)
    (h : ∀ e, f.mesh? e = g.mesh? e) : f = g := by
  have helements : f.elements = g.elements := by
    refine f.ascending_elements.eq_of_mem_iff g.ascending_elements fun e => ?_
    rw [mem_elements, mem_elements, mem_iff_mesh?, mem_iff_mesh?, h]
  have hrecords : f.records = g.records := by
    refine Std.ExtTreeMap.ext_getElem? fun e => Option.ext fun r => ?_
    rw [hf.getElem?_eq_some_iff, hg.getElem?_eq_some_iff, h, hlayout, helements]
  cases f
  cases g
  simp_all

theorem getElem?_setMesh :
    (f.setMesh e m).records[c]? =
      if e = c then f.records[c]?.map fun r => { r with mesh := m } else f.records[c]? := by
  show (f.records.modify e _)[c]? = _
  rw [Std.ExtTreeMap.getElem?_modify]
  simp only [Std.LawfulEqOrd.compare_eq_iff_eq]
  split
  · next h => rw [h]
  · rfl

theorem mem_setMesh : c ∈ f.setMesh e m ↔ c ∈ f :=
  Std.ExtTreeMap.mem_modify

theorem mesh?_setMesh :
    (f.setMesh e m).mesh? c = if e = c then (f.mesh? c).map fun _ => m else f.mesh? c := by
  unfold mesh?
  rw [getElem?_setMesh]
  split
  · rw [Option.map_map, Option.map_map]
    rfl
  · rfl

theorem elements_setMesh : (f.setMesh e m).elements = f.elements := by
  refine (ascending_elements _).eq_of_mem_iff (ascending_elements _) fun c => ?_
  rw [mem_elements, mem_elements, mem_setMesh]

/-- A mesh is not part of what makes a forest sound. -/
theorem Sound.setMesh (hf : f.Sound) : (f.setMesh e m).Sound where
  symmetric := hf.symmetric
  block_lt c hc := hf.block_lt c (mem_setMesh.1 hc)
  covered x hx := by
    obtain ⟨c, hc, hcov⟩ := hf.covered x hx
    exact ⟨c, mem_setMesh.2 hc, hcov⟩
  eq_of_covers c hc c' hc' := hf.eq_of_covers c (mem_setMesh.1 hc) c' (mem_setMesh.1 hc')
  neighborhood_eq c r hr := by
    rw [elements_setMesh]
    rw [getElem?_setMesh] at hr
    split at hr
    · obtain ⟨r', hr', rfl⟩ := Option.map_eq_some_iff.1 hr
      exact hf.neighborhood_eq c r' hr'
    · exact hf.neighborhood_eq c r hr

/-! ### Exchanges

The proof goes record by record, in three cases.  An element that comes is searched for among
candidates that have to include all that it touches.  An element beside those that go keeps the
neighbours that stay.  Any other element is left alone, and it has to be shown that nothing changes
for it. -/

/-- The elements that go are in the forest, and those that come cover the same cells, none twice. -/
structure Exchange (f : Forest D) (removed added : List (Element D)) : Prop where
  /-- The elements that go are there. -/
  removed_mem : ∀ e ∈ removed, e ∈ f
  /-- The elements that come cover the cells of those that go. -/
  covers_iff : ∀ x : Cell D, (∃ e ∈ removed, e.Covers x) ↔ ∃ c ∈ added, c.Covers x
  /-- The elements that come share no cells. -/
  eq_of_covers : ∀ c ∈ added, ∀ c' ∈ added, ∀ x : Cell D, c.Covers x → c'.Covers x → c = c'

/-- The forest with an exchange carried out. -/
structure Exchanged (f : Forest D) (removed added : List (Element D)) (m : Mesh D)
    (g : Forest D) : Prop where
  /-- The forest is sound again. -/
  sound : g.Sound
  /-- The blocks are as before. -/
  layout_eq : g.layout = f.layout
  /-- The elements that come start from the mesh, and nothing happens to the mesh of an element that
  stays. -/
  mesh?_eq : ∀ e, g.mesh? e = if e ∈ added then some m else if e ∈ removed then none else f.mesh? e

theorem mem_iff_of_mesh?
    (h : ∀ e, g.mesh? e = if e ∈ added then some m else if e ∈ removed then none else f.mesh? e)
    (e : Element D) : e ∈ g ↔ e ∈ added ∨ e ∈ f ∧ e ∉ removed := by
  rw [mem_iff_mesh?, h, mem_iff_mesh?]
  by_cases ha : e ∈ added
  · simp [ha]
  · by_cases hr : e ∈ removed
    · simp [ha, hr]
    · simp [ha, hr]

theorem Exchanged.mem_iff (h : Exchanged f removed added m g) :
    e ∈ g ↔ e ∈ added ∨ e ∈ f ∧ e ∉ removed :=
  mem_iff_of_mesh? h.mesh?_eq e

/-- The element stays and touches one of those that go. -/
def Beside (f : Forest D) (removed : List (Element D)) (c : Element D) : Prop :=
  c ∈ f ∧ c ∉ removed ∧ ∃ e ∈ removed, ∃ face o, f.layout.touching? e face c = some o

namespace Exchange

/-- An element that comes and was there already is one of those that go. -/
theorem mem_removed (hf : f.Sound) (hx : Exchange f removed added) (hc : c ∈ added) (hcf : c ∈ f) :
    c ∈ removed := by
  obtain ⟨x, hcov⟩ := c.exists_covers
  obtain ⟨e, he, hecov⟩ := (hx.covers_iff x).2 ⟨c, hc, hcov⟩
  have heq := hf.eq_of_covers e (hx.removed_mem e he) c hcf x hecov hcov
  exact heq ▸ he

theorem block_lt_of_mem_added (hf : f.Sound) (hx : Exchange f removed added) (hc : c ∈ added) :
    c.block < f.layout.blocks.length := by
  obtain ⟨x, hcov⟩ := c.exists_covers
  obtain ⟨e, he, hecov⟩ := (hx.covers_iff x).2 ⟨c, hc, hcov⟩
  rw [hcov.1, ← hecov.1]
  exact hf.block_lt e (hx.removed_mem e he)

/-- Whatever touches an element that comes touched one that goes. -/
theorem exists_touching (hf : f.Sound) (hx : Exchange f removed added) (hc : c ∈ added)
    (he : e ∈ f) (hne : e ∉ removed) {face : Face D} {o : Orientation D}
    (h : f.layout.touching? e face c = some o) :
    ∃ c' ∈ removed, f.layout.touching? e face c' = some o := by
  obtain ⟨x, y, hx', hy, hmeets⟩ := Layout.exists_meets_of_touching? h
  obtain ⟨c', hc', hcov⟩ := (hx.covers_iff y).2 ⟨c, hc, hy⟩
  have hno : ¬ e.Overlaps c' :=
    hf.not_overlaps he (hx.removed_mem c' hc') fun heq => hne (heq ▸ hc')
  exact ⟨c', hc', Layout.touching?_of_meets hno hx' hcov hmeets⟩

/-- The elements beside those that go are the ones that touch them. -/
theorem exists_beside (hf : f.Sound) (hx : Exchange f removed added) :
    ∃ b, f.beside removed = .ok b ∧ ∀ c, c ∈ b ↔ f.Beside removed c := by
  obtain ⟨records, hrec⟩ := exists_mapM fun e he => exists_record (hx.removed_mem e he)
  refine ⟨_, by rw [beside, hrec]; rfl, fun c => ?_⟩
  rw [ElementSet.mem_ofList, List.mem_filter, List.mem_flatMap, decide_eq_true_eq]
  constructor
  · rintro ⟨⟨r, hr, hc⟩, hnot⟩
    obtain ⟨e, he, hre⟩ := exists_source_of_mapM hrec hr
    rw [Std.ExtTreeSet.mem_toList] at hc
    obtain ⟨hcf, ht⟩ := (hf.mem_neighbors_iff (record_eq_ok.1 hre)).1 hc
    exact ⟨hcf, hnot, e, he, ht⟩
  · rintro ⟨hcf, hnot, e, he, ht⟩
    obtain ⟨r, hr, hre⟩ := exists_result_of_mapM hrec he
    have hc := (hf.mem_neighbors_iff (record_eq_ok.1 hre)).2 ⟨hcf, ht⟩
    exact ⟨⟨r, hr, Std.ExtTreeSet.mem_toList.2 hc⟩, hnot⟩

end Exchange

/-- The record of an element that stays, brought up to date. -/
def renewed (f : Forest D) (removed added : List (Element D)) (e : Element D) (r : Record D) :
    Record D where
  neighborhood := f.layout.neighborhoodAmong e
    (r.neighborhood.elements.toList.removeAll removed ++ added)
  mesh := r.mesh

theorem refresh_eq_ok (hf : f.Sound) (hr : f.records[e]? = some r) :
    f.refresh removed added e = .ok ⟨e, r, (f.renewed removed added e r).neighborhood⟩ := by
  have hremaining : (r.neighborhood.elements.toList.filter fun c => c ∉ removed)
      = r.neighborhood.elements.toList.removeAll removed := by
    simp [List.removeAll]
  unfold refresh
  rw [record_eq_ok.2 hr]
  refine bind_eq_ok.2 ⟨r, rfl, bind_eq_ok.2 ⟨_, ?_, rfl⟩⟩
  rw [hremaining]
  exact Layout.neighborhood_eq_ok (hf.block_lt e (mem_of_record hr))

/-- The records after an exchange, by what the element was to it: it came, it lies beside the
elements that went, or neither. -/
structure Rewritten (f : Forest D) (removed added : List (Element D)) (m : Mesh D)
    (beside : List (Element D)) (g : Forest D) : Prop where
  layout_eq : g.layout = f.layout
  of_added : ∀ e ∈ added,
    g.records[e]? = some ⟨f.layout.neighborhoodAmong e (beside ++ added), m⟩
  of_beside : ∀ e ∈ beside, ∀ r, f.records[e]? = some r →
    g.records[e]? = some (f.renewed removed added e r)
  of_other : ∀ e, e ∉ added → e ∉ beside →
    g.records[e]? = if e ∈ removed then none else f.records[e]?

/-- Every element beside those that go can be brought up to date. -/
theorem exists_refreshed (hf : f.Sound) (removed added : List (Element D)) {b : List (Element D)}
    (hb : ∀ e ∈ b, e ∈ f) :
    ∃ refreshed, b.mapM (f.refresh removed added) = .ok refreshed ∧
      ∀ p, p ∈ refreshed.map (fun q =>
          (q.element, { q.record with neighborhood := q.neighborhood }))
        ↔ ∃ e ∈ b, ∃ r, f.records[e]? = some r ∧ p = (e, f.renewed removed added e r) := by
  have hrecord : ∀ e ∈ b, ∃ r, f.records[e]? = some r := fun e he =>
    mem_iff_exists_record.1 (hb e he)
  have hrefresh : ∀ e ∈ b, ∃ q, f.refresh removed added e = .ok q := by
    intro e he
    obtain ⟨r, hr⟩ := hrecord e he
    exact ⟨_, refresh_eq_ok hf hr⟩
  obtain ⟨refreshed, hrefreshed⟩ := exists_mapM hrefresh
  refine ⟨refreshed, hrefreshed, fun p => ?_⟩
  rw [List.mem_map]
  constructor
  · rintro ⟨q, hq, rfl⟩
    obtain ⟨e, he, heq⟩ := exists_source_of_mapM hrefreshed hq
    obtain ⟨r, hr⟩ := hrecord e he
    rw [refresh_eq_ok hf hr] at heq
    exact ⟨e, he, r, hr, Except.ok.inj heq ▸ rfl⟩
  · rintro ⟨e, he, r, hr, rfl⟩
    obtain ⟨q, hq, heq⟩ := exists_result_of_mapM hrefreshed he
    rw [refresh_eq_ok hf hr] at heq
    exact ⟨q, hq, Except.ok.inj heq ▸ rfl⟩

theorem getElem?_filter_not_mem (f : Forest D) (removed : List (Element D)) (e : Element D) :
    (f.records.filter fun e _ => e ∉ removed)[e]?
      = if e ∈ removed then none else f.records[e]? := by
  rw [Std.ExtTreeMap.getElem?_filter']
  by_cases hr : e ∈ removed
  · rw [if_pos hr]
    cases f.records[e]? <;> simp [hr]
  · rw [if_neg hr]
    cases f.records[e]? <;> simp [hr]

/-- An exchange is carried out without a fault. -/
theorem Exchange.exists_rewritten (hf : f.Sound) (hx : Exchange f removed added) (m : Mesh D) :
    ∃ edit b, f.replace removed added m = .ok edit ∧ Rewritten f removed added m b edit.forest ∧
      ∀ c, c ∈ b ↔ f.Beside removed c := by
  obtain ⟨b, hb, hmem⟩ := hx.exists_beside hf
  have hnew : f.newRecords (b.toList ++ added) added m = .ok (added.map fun e =>
      (e, ⟨f.layout.neighborhoodAmong e (b.toList ++ added), m⟩)) := by
    refine mapM_eq_ok_map fun e he => ?_
    rw [Layout.neighborhood_eq_ok (hx.block_lt_of_mem_added hf he)]
    rfl
  obtain ⟨refreshed, hrefreshed, hold⟩ := exists_refreshed hf removed added
    fun e he => ((hmem e).1 (Std.ExtTreeSet.mem_toList.1 he)).1
  generalize hold' : refreshed.map (fun q =>
    (q.element, { q.record with neighborhood := q.neighborhood })) = old at hold
  have hkey : ∀ e, e ∉ b.toList → ∀ p ∈ old, p.1 ≠ e := by
    rintro e he p hp rfl
    obtain ⟨e', he', r, -, rfl⟩ := (hold p).1 hp
    exact he he'
  obtain ⟨edit, hedit, hforest⟩ : ∃ edit, f.replace removed added m = .ok edit ∧
      edit.forest = { f with
        records := ((f.records.filter fun e _ => e ∉ removed).insertMany (added.map fun e =>
          (e, ⟨f.layout.neighborhoodAmong e (b.toList ++ added), m⟩))).insertMany old } := by
    rw [← hold']
    exact ⟨_, bind_eq_ok.2 ⟨b, hb, bind_eq_ok.2 ⟨_, hnew, bind_eq_ok.2 ⟨_, hrefreshed, rfl⟩⟩⟩, rfl⟩
  refine ⟨edit, b.toList, hedit, hforest ▸ ⟨rfl, fun e he => ?_, fun e he r hr => ?_,
    fun e ha hb => ?_⟩, fun c => by rw [Std.ExtTreeSet.mem_toList, hmem]⟩
  · have hnot : e ∉ b.toList := by
      intro h
      obtain ⟨hef, hne, -⟩ := (hmem e).1 (Std.ExtTreeSet.mem_toList.1 h)
      exact hne (hx.mem_removed hf he hef)
    refine (getElem?_insertMany_of_not_mem (hkey e hnot)).trans ?_
    refine getElem?_insertMany_of_mem (List.mem_map_of_mem he) fun p hp heq => ?_
    obtain ⟨e', -, rfl⟩ := List.mem_map.1 hp
    obtain rfl : e' = e := heq
    rfl
  · refine getElem?_insertMany_of_mem ((hold _).2 ⟨e, he, r, hr, rfl⟩) fun p hp heq => ?_
    obtain ⟨e', -, r', hr', rfl⟩ := (hold p).1 hp
    obtain rfl : e' = e := heq
    rw [hr, Option.some.injEq] at hr'
    rw [hr']
  · refine (getElem?_insertMany_of_not_mem (hkey e hb)).trans ?_
    refine (getElem?_insertMany_of_not_mem fun p hp heq => ?_).trans
      (getElem?_filter_not_mem f removed e)
    obtain ⟨e', he', rfl⟩ := List.mem_map.1 hp
    exact ha (heq ▸ he')

theorem Rewritten.mesh?_eq {b : List (Element D)} (hg : Rewritten f removed added m b g)
    (hb : ∀ c ∈ b, c ∈ f ∧ c ∉ removed) (e : Element D) :
    g.mesh? e = if e ∈ added then some m else if e ∈ removed then none else f.mesh? e := by
  by_cases ha : e ∈ added
  · rw [if_pos ha, mesh?_of_record (hg.of_added e ha)]
  · rw [if_neg ha]
    by_cases hbe : e ∈ b
    · obtain ⟨hef, hne⟩ := hb e hbe
      obtain ⟨r, hr⟩ := mem_iff_exists_record.1 hef
      rw [if_neg hne, mesh?_of_record hr, mesh?_of_record (hg.of_beside e hbe r hr)]
      rfl
    · rw [mesh?, hg.of_other e ha hbe]
      split <;> rfl

namespace Exchange

variable {x : Cell D}

/-- Every cell of a block is covered after the exchange. -/
theorem exists_covers (hf : f.Sound) (hx : Exchange f removed added)
    (hlt : x.block < f.layout.blocks.length) :
    ∃ e, (e ∈ added ∨ e ∈ f ∧ e ∉ removed) ∧ e.Covers x := by
  obtain ⟨e, he, hcov⟩ := hf.covered x hlt
  by_cases hr : e ∈ removed
  · obtain ⟨c, hc, hcov'⟩ := (hx.covers_iff x).1 ⟨e, hr, hcov⟩
    exact ⟨c, Or.inl hc, hcov'⟩
  · exact ⟨e, Or.inr ⟨he, hr⟩, hcov⟩

/-- No element that stays shares a cell with one that comes. -/
theorem not_covers (hf : f.Sound) (hx : Exchange f removed added) (hc : c ∈ added)
    (he : e ∈ f) (hne : e ∉ removed) (hcov : c.Covers x) : ¬ e.Covers x := by
  intro hecov
  obtain ⟨e', he', hcov'⟩ := (hx.covers_iff x).2 ⟨c, hc, hcov⟩
  have heq := hf.eq_of_covers e' (hx.removed_mem e' he') e he x hcov' hecov
  exact hne (heq ▸ he')

theorem eq_of_covers_after (hf : f.Sound) (hx : Exchange f removed added)
    (he : e ∈ added ∨ e ∈ f ∧ e ∉ removed) (hc : c ∈ added ∨ c ∈ f ∧ c ∉ removed)
    (hcov : e.Covers x) (hcov' : c.Covers x) : e = c := by
  rcases he with he | ⟨he, hne⟩
  · rcases hc with hc | ⟨hc, hnc⟩
    · exact hx.eq_of_covers e he c hc x hcov hcov'
    · exact absurd hcov' (hx.not_covers hf he hc hnc hcov)
  · rcases hc with hc | ⟨hc, -⟩
    · exact absurd hcov (hx.not_covers hf hc he hne hcov')
    · exact hf.eq_of_covers e he c hc x hcov hcov'

/-- An element that comes touches, among those that stay, only elements beside those that go. -/
theorem neighborhoodAmong_added (hf : f.Sound) (hx : Exchange f removed added)
    {b l : List (Element D)} (hb : ∀ c, c ∈ b ↔ f.Beside removed c)
    (hl : ∀ c, c ∈ l ↔ c ∈ added ∨ c ∈ f ∧ c ∉ removed) (he : e ∈ added) :
    f.layout.neighborhoodAmong e (b ++ added) = f.layout.neighborhoodAmong e l := by
  refine Layout.neighborhoodAmong_congr fun face c o ho => ?_
  rw [List.mem_append, hl, hb]
  constructor
  · rintro (⟨hc, hnc, -⟩ | hc)
    · exact Or.inr ⟨hc, hnc⟩
    · exact Or.inl hc
  · rintro (hc | ⟨hc, hnc⟩)
    · exact Or.inr hc
    · have hback := Layout.touching?_symm hf.symmetric ho
      obtain ⟨e', he', ho'⟩ := hx.exists_touching hf he hc hnc hback
      exact Or.inl ⟨hc, hnc, e', he', _, _, Layout.touching?_symm hf.symmetric ho'⟩

/-- An element that stays keeps its neighbours that stay, and may get new ones. -/
theorem neighborhoodAmong_beside (hf : f.Sound) {l : List (Element D)}
    (hl : ∀ c, c ∈ l ↔ c ∈ added ∨ c ∈ f ∧ c ∉ removed) (hr : f.records[e]? = some r) :
    (f.renewed removed added e r).neighborhood = f.layout.neighborhoodAmong e l := by
  refine Layout.neighborhoodAmong_congr fun face c o ho => ?_
  have hremaining : c ∈ r.neighborhood.elements.toList.removeAll removed
      ↔ c ∈ r.neighborhood.elements ∧ c ∉ removed := by
    simp [List.removeAll]
  rw [List.mem_append, hremaining, hf.mem_neighbors_iff hr, hl]
  constructor
  · rintro (⟨⟨hc, -⟩, hnc⟩ | hc)
    · exact Or.inr ⟨hc, hnc⟩
    · exact Or.inl hc
  · rintro (hc | ⟨hc, hnc⟩)
    · exact Or.inr hc
    · exact Or.inl ⟨⟨hc, face, o, ho⟩, hnc⟩

/-- An element that touches none of those that go touches none of those that come. -/
theorem neighborhoodAmong_other (hf : f.Sound) (hx : Exchange f removed added)
    {b l : List (Element D)} (hb : ∀ c, c ∈ b ↔ f.Beside removed c)
    (hl : ∀ c, c ∈ l ↔ c ∈ added ∨ c ∈ f ∧ c ∉ removed) (he : e ∈ f) (hne : e ∉ removed)
    (hnb : e ∉ b) :
    f.layout.neighborhoodAmong e f.elements = f.layout.neighborhoodAmong e l := by
  have hfar : ∀ c ∈ removed, ∀ face o, f.layout.touching? e face c ≠ some o := by
    intro c hc face o ho
    exact hnb ((hb e).2 ⟨he, hne, c, hc, _, _, Layout.touching?_symm hf.symmetric ho⟩)
  refine Layout.neighborhoodAmong_congr fun face c o ho => ?_
  rw [mem_elements, hl]
  constructor
  · intro hc
    exact Or.inr ⟨hc, fun hr => hfar c hr face o ho⟩
  · rintro (hc | ⟨hc, -⟩)
    · obtain ⟨c', hc', ho'⟩ := hx.exists_touching hf hc he hne ho
      exact absurd ho' (hfar c' hc' face o)
    · exact hc

/-- What an exchange finds for the records is what a search among all elements would find. -/
theorem sound_of_rewritten (hf : f.Sound) (hx : Exchange f removed added)
    {b : List (Element D)} (hb : ∀ c, c ∈ b ↔ f.Beside removed c)
    (hg : Rewritten f removed added m b g)
    (hmem : ∀ e, e ∈ g ↔ e ∈ added ∨ e ∈ f ∧ e ∉ removed) : g.Sound where
  symmetric := hg.layout_eq ▸ hf.symmetric
  block_lt e he := by
    rw [hg.layout_eq]
    rcases (hmem e).1 he with ha | ⟨hef, -⟩
    · exact hx.block_lt_of_mem_added hf ha
    · exact hf.block_lt e hef
  covered x hlt := by
    obtain ⟨e, he, hcov⟩ := hx.exists_covers hf (hg.layout_eq ▸ hlt)
    exact ⟨e, (hmem e).2 he, hcov⟩
  eq_of_covers e he c hc x := hx.eq_of_covers_after hf ((hmem e).1 he) ((hmem c).1 hc)
  neighborhood_eq e r hr := by
    have hl : ∀ c, c ∈ g.elements ↔ c ∈ added ∨ c ∈ f ∧ c ∉ removed :=
      fun c => mem_elements.trans (hmem c)
    rw [hg.layout_eq]
    by_cases ha : e ∈ added
    · rw [hg.of_added e ha, Option.some.injEq] at hr
      rw [← hr]
      exact hx.neighborhoodAmong_added hf hb hl ha
    · obtain ⟨hef, hne⟩ := ((hmem e).1 (mem_of_record hr)).resolve_left ha
      by_cases hbe : e ∈ b
      · obtain ⟨r', hr'⟩ := mem_iff_exists_record.1 hef
        rw [hg.of_beside e hbe r' hr', Option.some.injEq] at hr
        rw [← hr]
        exact neighborhoodAmong_beside hf hl hr'
      · rw [hg.of_other e ha hbe, if_neg hne] at hr
        rw [hf.neighborhood_eq e r hr]
        exact hx.neighborhoodAmong_other hf hb hl hef hne hbe

/-- An exchange is carried out, and leaves the forest sound. -/
theorem exists_exchanged (hf : f.Sound) (hx : Exchange f removed added) (m : Mesh D) :
    ∃ edit, f.replace removed added m = .ok edit ∧
      Exchanged f removed added m edit.forest := by
  obtain ⟨edit, b, hedit, hg, hb⟩ := hx.exists_rewritten hf m
  have hmesh := hg.mesh?_eq fun c hc => ⟨((hb c).1 hc).1, ((hb c).1 hc).2.1⟩
  exact ⟨edit, hedit, hx.sound_of_rewritten hf hb hg (mem_iff_of_mesh? hmesh), hg.layout_eq, hmesh⟩

end Exchange

end Forest

end AdaptiveMesh
