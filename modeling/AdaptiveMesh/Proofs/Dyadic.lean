/-
Segments as runs of cells.

A segment covers the cells of the finest grid from its start up to its stop, and
everything that is ever asked of two segments is a question about the cells they
cover.  They overlap when they share a cell.  Since every width divides every larger
one, a segment that shares a cell with a coarser one lies inside it: this is the only
dyadic fact there is, and it is division by the width.
-/
import AdaptiveMesh.Geometry.Segment

namespace AdaptiveMesh

/-- The number of cells of the finest grid along an axis. -/
def cellCount : Nat := segmentCount maxLevel

theorem segmentCount_add (l k : Nat) :
    segmentCount (l + k) = segmentCount l * segmentCount k :=
  Nat.pow_add 2 l k

namespace Segment

variable {s t : Segment} {x y : Nat}

/-- A cell of the finest grid lies in the segment. -/
def Covers (s : Segment) (x : Nat) : Prop := s.start ≤ x ∧ x < s.stop

instance (s : Segment) (x : Nat) : Decidable (s.Covers x) :=
  inferInstanceAs (Decidable (_ ∧ _))

/-! ### The cells of one segment

To divide a cell by the width of a segment is to ask for the segment of that level in which the cell
lies.  The inequalities that define covering and this division are the two forms in which later
proofs use a segment. -/

theorem width_pos (s : Segment) : 0 < s.width := segmentCount_pos _

theorem start_lt_stop (s : Segment) : s.start < s.stop := by
  have := s.width_pos
  unfold stop
  omega

theorem stop_eq (s : Segment) : s.stop = (s.index + 1) * s.width := by
  unfold stop start
  rw [Nat.add_mul, Nat.one_mul]

theorem count_mul_width (s : Segment) : s.count * s.width = cellCount := by
  unfold count width cellCount
  rw [← segmentCount_add, Nat.add_sub_cancel' s.level_le]

theorem stop_le (s : Segment) : s.stop ≤ cellCount := by
  rw [stop_eq, ← count_mul_width s]
  exact Nat.mul_le_mul_right _ s.index_lt

theorem covers_start (s : Segment) : s.Covers s.start := ⟨Nat.le_refl _, s.start_lt_stop⟩

theorem covers_last (s : Segment) : s.Covers (s.stop - 1) := by
  have := s.start_lt_stop
  exact ⟨by omega, by omega⟩

theorem Covers.lt (h : s.Covers x) : x < cellCount := Nat.lt_of_lt_of_le h.2 s.stop_le

/-- The cells of a segment are the ones that its width takes to its index. -/
theorem covers_iff_div_eq : s.Covers x ↔ x / s.width = s.index := by
  have hpos := s.width_pos
  rw [Nat.div_eq_iff hpos, Covers, stop, start]
  omega

/-! ### The cells of two segments -/

theorem overlaps_iff_exists_covers : s.Overlaps t ↔ ∃ x, s.Covers x ∧ t.Covers x := by
  constructor
  · rintro ⟨hst, hts⟩
    rcases Nat.le_total s.start t.start with hle | hle
    · exact ⟨t.start, ⟨hle, hts⟩, t.covers_start⟩
    · exact ⟨s.start, s.covers_start, hle, hst⟩
  · rintro ⟨x, hs, ht⟩
    exact ⟨Nat.lt_of_le_of_lt hs.1 ht.2, Nat.lt_of_le_of_lt ht.1 hs.2⟩

theorem width_eq_of_level_le (hl : s.level ≤ t.level) :
    s.width = t.width * segmentCount (t.level - s.level) := by
  unfold width
  rw [← segmentCount_add]
  congr 1
  have := t.level_le
  omega

/-- A segment that shares a cell with a coarser one lies inside it. -/
theorem covers_of_level_le (hl : s.level ≤ t.level) (hs : s.Covers x) (ht : t.Covers x)
    (hy : t.Covers y) : s.Covers y := by
  rw [covers_iff_div_eq] at *
  rw [width_eq_of_level_le hl, ← Nat.div_div_eq_div_mul] at hs ⊢
  rw [hy, ← ht, hs]

/-- Along one axis the segments of one level share no cells. -/
theorem eq_of_covers (hl : s.level = t.level) (hs : s.Covers x) (ht : t.Covers x) : s = t := by
  rw [covers_iff_div_eq] at hs ht
  have hw : s.width = t.width := by rw [width, width, hl]
  refine key_injective ?_
  rw [key, key, hl, ← hs, ← ht, hw]

/-! ### Halves and parents

The halves of a segment are exactly the segments that have it as their parent, and
each cell of it lies in one of them.
-/

theorem width_half {side : Side} (h : s.level < maxLevel) :
    s.width = 2 * (s.half side h).width := by
  unfold width half
  rw [← segmentCount_succ]
  congr 1
  simp only
  omega

theorem mem_halves :
    t ∈ s.halves ↔ ∃ (h : s.level < maxLevel) (side : Side), t = s.half side h := by
  unfold halves
  split
  · next h =>
    simp only [List.mem_cons, List.not_mem_nil, or_false]
    constructor
    · rintro (rfl | rfl)
      · exact ⟨h, .lower, rfl⟩
      · exact ⟨h, .upper, rfl⟩
    · rintro ⟨_, side, rfl⟩
      cases side
      · exact Or.inl rfl
      · exact Or.inr rfl
  · next h => simp [h]

theorem level_of_mem_halves (h : t ∈ s.halves) : t.level = s.level + 1 := by
  obtain ⟨_, _, rfl⟩ := mem_halves.1 h
  rfl

theorem parent?_eq_none_iff : s.parent? = none ↔ s.level = 0 := by
  unfold parent?
  split
  · next h => exact iff_of_false (by simp) (by omega)
  · next h => exact iff_of_true rfl (by omega)

theorem mem_halves_iff_parent? : t ∈ s.halves ↔ t.parent? = some s := by
  constructor
  · intro h
    obtain ⟨hl, side, rfl⟩ := mem_halves.1 h
    have hpos : 0 < (s.half side hl).level := Nat.succ_pos _
    rw [parent?, dif_pos hpos]
    congr 1
    refine key_injective ?_
    cases side with
    | lower => simp [key, half]
    | upper =>
        simp [key, half]
        omega
  · intro h
    unfold parent? at h
    split at h
    · next hpos =>
      have hs := (Option.some.inj h).symm
      subst hs
      have hle := t.level_le
      refine mem_halves.2 ⟨by simp only; omega, if t.index % 2 = 0 then .lower else .upper, ?_⟩
      refine key_injective ?_
      simp only [key, half]
      split <;> simp <;> omega
    · contradiction

/-- A cell of a segment lies in the half that its place calls for. -/
theorem covers_iff_exists_mem_halves (h : s.level < maxLevel) :
    s.Covers x ↔ ∃ t ∈ s.halves, t.Covers x := by
  have hw : ∀ side, s.width = 2 * (s.half side h).width := fun _ => width_half h
  constructor
  · intro hx
    rw [covers_iff_div_eq, hw .lower, Nat.mul_comm, ← Nat.div_div_eq_div_mul] at hx
    -- both halves have one width, so the place counted in it tells which half it is
    generalize hq : x / (s.half .lower h).width = q at hx
    have hside : ∃ side, q = (s.half side h).index := by
      rcases Nat.mod_two_eq_zero_or_one q with hm | hm
      · exact ⟨.lower, show q = 2 * s.index + 0 by omega⟩
      · exact ⟨.upper, show q = 2 * s.index + 1 by omega⟩
    obtain ⟨side, hside⟩ := hside
    exact ⟨s.half side h, mem_halves.2 ⟨h, side, rfl⟩, covers_iff_div_eq.2 (hq.trans hside)⟩
  · rintro ⟨t, ht, hx⟩
    obtain ⟨_, side, rfl⟩ := mem_halves.1 ht
    rw [covers_iff_div_eq] at hx ⊢
    rw [hw side, Nat.mul_comm, ← Nat.div_div_eq_div_mul, hx]
    unfold half
    simp only
    split <;> omega

theorem covers_of_parent? (h : t.parent? = some s) (hx : t.Covers x) : s.Covers x := by
  have hm := mem_halves_iff_parent?.2 h
  exact (covers_iff_exists_mem_halves (mem_halves.1 hm).1).2 ⟨t, hm, hx⟩

/-! ### All segments of a level

On each level every cell of the axis lies in one segment.  On the finest level this segment is the
cell, and so cells can be named where only segments are to be mentioned. -/

theorem mem_ofLevel {l : Nat} {h : l ≤ maxLevel} : s ∈ ofLevel l h ↔ s.level = l := by
  unfold ofLevel
  rw [List.mem_map]
  constructor
  · rintro ⟨i, -, rfl⟩
    rfl
  · rintro rfl
    exact ⟨⟨s.index, s.index_lt⟩, List.mem_finRange _, rfl⟩

/-- On every level some segment covers a given cell. -/
theorem exists_covers_of_level {l : Nat} (h : l ≤ maxLevel) (hx : x < cellCount) :
    ∃ s : Segment, s.level = l ∧ s.Covers x := by
  have hlt : x / segmentCount (maxLevel - l) < segmentCount l := by
    rw [Nat.div_lt_iff_lt_mul (segmentCount_pos _), ← segmentCount_add,
      Nat.add_sub_cancel' h]
    exact hx
  exact ⟨⟨l, x / segmentCount (maxLevel - l), h, hlt⟩, rfl, covers_iff_div_eq.2 rfl⟩

theorem covers_iff_of_level_eq_maxLevel (h : s.level = maxLevel) : s.Covers x ↔ x = s.index := by
  have hw : s.width = 1 := by
    unfold width
    rw [h, Nat.sub_self]
    rfl
  rw [covers_iff_div_eq, hw, Nat.div_one]

theorem stop_of_level_eq_maxLevel (h : s.level = maxLevel) : s.stop = s.start + 1 := by
  unfold stop width
  rw [h, Nat.sub_self]
  rfl

/-- The cells of the second segment are among those of the first. -/
def Contains (s t : Segment) : Prop := s.start ≤ t.start ∧ t.stop ≤ s.stop

instance (s t : Segment) : Decidable (s.Contains t) :=
  inferInstanceAs (Decidable (_ ∧ _))

/-- To contain a segment of the finest grid is to cover the cell that it consists of. -/
theorem contains_iff_covers (h : t.level = maxLevel) : s.Contains t ↔ s.Covers t.start := by
  unfold Contains Covers
  rw [stop_of_level_eq_maxLevel h]
  exact Iff.rfl

/-! ### The ends of the block -/

theorem touches_lower_iff : s.Touches .lower ↔ s.start = 0 := by
  have hpos := s.width_pos
  simp only [Touches, start, Nat.mul_eq_zero]
  omega

theorem touches_upper_iff : s.Touches .upper ↔ s.stop = cellCount := by
  rw [stop_eq, ← count_mul_width s]
  exact ⟨fun h => by rw [show s.index + 1 = s.count from h],
    fun h => Nat.eq_of_mul_eq_mul_right s.width_pos h⟩

/-- Past the end of the block no segment begins. -/
theorem not_abuts_of_touches {side : Side} (h : s.Touches side) : ¬ s.Abuts side t := by
  have hlt := t.start_lt_stop
  have hle := t.stop_le
  cases side with
  | lower =>
      rw [touches_lower_iff] at h
      simp only [Abuts]
      omega
  | upper =>
      rw [touches_upper_iff] at h
      simp only [Abuts]
      omega

/-! ### Running an axis backwards

What is a start becomes a stop, counted from the other end.  All that is said of segments through
these two numbers is carried over, with the sides exchanged. -/

theorem flipped_flipped (s : Segment) : s.flipped.flipped = s := by
  have hlt : s.index < s.count := s.index_lt
  refine key_injective ?_
  show [s.level, s.count - 1 - (s.count - 1 - s.index)] = [s.level, s.index]
  rw [Nat.sub_sub_self (by omega)]

theorem flipped_stop_add_start (s : Segment) : s.flipped.stop + s.start = cellCount := by
  have hlt := s.index_lt
  have hw : s.flipped.width = s.width := rfl
  rw [stop_eq, start, hw, ← Nat.add_mul, ← count_mul_width s]
  congr 1
  unfold flipped
  simp only [count] at *
  omega

theorem flipped_start_add_stop (s : Segment) : s.flipped.start + s.stop = cellCount := by
  have h := s.flipped_stop_add_start
  have hw : s.flipped.width = s.width := rfl
  unfold stop at *
  omega

theorem covers_flipped_iff (hx : x < cellCount) :
    s.flipped.Covers x ↔ s.Covers (cellCount - 1 - x) := by
  have h1 := s.flipped_stop_add_start
  have h2 := s.flipped_start_add_stop
  unfold Covers
  omega

theorem overlaps_flipped_iff : s.flipped.Overlaps t ↔ s.Overlaps t.flipped := by
  have hs := s.flipped_start_add_stop
  have hs' := s.flipped_stop_add_start
  have ht := t.flipped_start_add_stop
  have ht' := t.flipped_stop_add_start
  unfold Overlaps
  omega

theorem abuts_flipped_iff {side : Side} :
    s.flipped.Abuts side t ↔ s.Abuts side.opposite t.flipped := by
  have hs := s.flipped_start_add_stop
  have hs' := s.flipped_stop_add_start
  have ht := t.flipped_start_add_stop
  have ht' := t.flipped_stop_add_start
  cases side with
  | lower =>
      simp only [Abuts, Side.opposite]
      omega
  | upper =>
      simp only [Abuts, Side.opposite]
      omega

theorem touches_flipped_iff {side : Side} : s.flipped.Touches side ↔ s.Touches side.opposite := by
  have hs := s.flipped_start_add_stop
  have hs' := s.flipped_stop_add_start
  cases side with
  | lower =>
      rw [Side.opposite, touches_lower_iff, touches_upper_iff]
      omega
  | upper =>
      rw [Side.opposite, touches_lower_iff, touches_upper_iff]
      omega

end Segment

end AdaptiveMesh
