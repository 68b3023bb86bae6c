/-
Segments as intervals.

A segment stands for an interval of the block with dyadic ends.  Comparing segments compares these
ends: two segments overlap when one is an ancestor of the other, and otherwise one of them lies
entirely below the other.  Read along the axis run backwards everything stays as it is, with the
sides exchanged.

A level fits into eight bits and an index into thirty-two, and the family of a segment can be
computed on such words: no step leaves their range.  The same goes for comparing two segments of any
levels, which counts in segments of a level that is as fine as both and takes sixty-four bits.
-/
import Mathlib.Algebra.Order.Field.Basic
import Mathlib.Algebra.Order.Ring.Rat
import Mathlib.Data.Nat.Bitwise
import AdaptiveMesh.Proofs.Dyadic

namespace AdaptiveMesh

/-- What the side adds to twice the index of a segment to make the index of its half there. -/
def Side.bit : Side → UInt32
  | lower => 0
  | upper => 1

namespace Segment

variable {s t p : Segment} {side : Side} {x : Nat}

/-! ### Ancestors -/

/-- The second segment is the first one or an ancestor of it. -/
inductive Within : Segment → Segment → Prop where
  | self (s : Segment) : Within s s
  | step {s p t : Segment} (hparent : s.parent? = some p) (h : Within p t) : Within s t

theorem Within.covers (h : Within s t) (hx : s.Covers x) : t.Covers x := by
  induction h with
  | self s => exact hx
  | step hparent _ ih => exact ih (covers_of_parent? hparent hx)

theorem level_of_parent? (h : s.parent? = some p) : s.level = p.level + 1 :=
  level_of_mem_halves (mem_halves_iff_parent?.2 h)

/-- Of two segments that share a cell the finer one has the coarser one as an ancestor. -/
theorem within_of_covers (hl : t.level ≤ s.level) (hs : s.Covers x) (ht : t.Covers x) :
    Within s t := by
  induction hn : s.level - t.level generalizing s with
  | zero =>
      have hsame : s = t := eq_of_covers (by omega) hs ht
      exact hsame ▸ .self s
  | succ n ih =>
      cases hp : s.parent? with
      | none =>
          rw [parent?_eq_none_iff] at hp
          omega
      | some p =>
          have hlevel := level_of_parent? hp
          exact .step hp (ih (by omega) (covers_of_parent? hp hs) (by omega))

theorem overlaps_iff_within : s.Overlaps t ↔ Within s t ∨ Within t s := by
  constructor
  · intro h
    obtain ⟨x, hs, ht⟩ := overlaps_iff_exists_covers.1 h
    rcases Nat.le_total t.level s.level with hle | hle
    · exact Or.inl (within_of_covers hle hs ht)
    · exact Or.inr (within_of_covers hle ht hs)
  · intro h
    rw [overlaps_iff_exists_covers]
    rcases h with h | h
    · exact ⟨s.start, s.covers_start, h.covers s.covers_start⟩
    · exact ⟨t.start, h.covers t.covers_start, t.covers_start⟩

/-! ### Ends as fractions of the block

Fractions of the block do not depend on where the finest grid is.  Segments are compared on its
cells all the same, and this carries over, since the ends of a segment are its first cell and the
cell past its last one, divided by the number of all cells. -/

/-- The lower end of the interval, as a fraction of the block. -/
def lowerEnd (s : Segment) : ℚ := s.index / 2 ^ s.level

/-- The upper end of the interval, as a fraction of the block. -/
def upperEnd (s : Segment) : ℚ := (s.index + 1) / 2 ^ s.level

theorem cellCount_pos : (0 : ℚ) < cellCount := Nat.cast_pos.2 (segmentCount_pos maxLevel)

/-- Any number of segments of the level takes up so many cells of the block. -/
theorem div_count (s : Segment) (n : Nat) :
    (n : ℚ) / 2 ^ s.level = ((n * s.width : Nat) : ℚ) / cellCount := by
  have hcount : (s.count : ℚ) = 2 ^ s.level := by
    show ((2 ^ s.level : Nat) : ℚ) = 2 ^ s.level
    rw [Nat.cast_pow, Nat.cast_ofNat]
  have hwidth : (s.width : ℚ) ≠ 0 := Nat.cast_ne_zero.2 s.width_pos.ne'
  rw [← s.count_mul_width, Nat.cast_mul, Nat.cast_mul, mul_div_mul_right _ _ hwidth, hcount]

theorem lowerEnd_eq (s : Segment) : s.lowerEnd = s.start / cellCount := s.div_count s.index

theorem upperEnd_eq (s : Segment) : s.upperEnd = s.stop / cellCount := by
  rw [stop_eq, ← div_count, Nat.cast_add, Nat.cast_one]
  rfl

/-- All of the first segment lies below the second one. -/
def Below (s t : Segment) : Prop := s.upperEnd ≤ t.lowerEnd

theorem below_iff : s.Below t ↔ s.stop ≤ t.start := by
  unfold Below
  rw [upperEnd_eq, lowerEnd_eq, div_le_div_iff_of_pos_right cellCount_pos, Nat.cast_le]

theorem upperEnd_eq_lowerEnd_iff : s.upperEnd = t.lowerEnd ↔ s.stop = t.start := by
  rw [upperEnd_eq, lowerEnd_eq, div_left_inj' cellCount_pos.ne', Nat.cast_inj]

/-- Of two segments that do not overlap one lies below the other, and not the other way round. -/
theorem not_overlaps_iff : ¬ s.Overlaps t ↔ Xor (s.Below t) (t.Below s) := by
  have hs := s.start_lt_stop
  have ht := t.start_lt_stop
  unfold Overlaps Xor
  rw [below_iff, below_iff]
  omega

theorem abuts_upper_iff : s.Abuts .upper t ↔ s.upperEnd = t.lowerEnd :=
  upperEnd_eq_lowerEnd_iff.symm

/-! ### The family run backwards -/

theorem parent?_half (h : p.level < maxLevel) : (p.half side h).parent? = some p :=
  mem_halves_iff_parent?.1 (mem_halves.2 ⟨h, side, rfl⟩)

theorem sibling?_half (h : p.level < maxLevel) :
    (p.half side h).sibling? = some (p.half side.opposite h) := by
  have hpos : 0 < (p.half side h).level := Nat.succ_pos _
  unfold sibling?
  rw [dif_pos hpos]
  refine congrArg some (key_injective ?_)
  cases side with
  | lower => simp [key, half, Side.opposite]
  | upper => simp [key, half, Side.opposite, Nat.add_mod]

/-- Below the whole block every segment is a half of another one. -/
theorem exists_eq_half (h : 0 < s.level) :
    ∃ (p : Segment) (hp : p.level < maxLevel) (side : Side), s = p.half side hp := by
  cases hp : s.parent? with
  | none =>
      rw [parent?_eq_none_iff] at hp
      omega
  | some p => exact ⟨p, mem_halves.1 (mem_halves_iff_parent?.2 hp)⟩

theorem sibling?_eq_none_iff : s.sibling? = none ↔ s.level = 0 := by
  unfold sibling?
  by_cases h : 0 < s.level
  · rw [dif_pos h]
    exact iff_of_false (by simp) (by omega)
  · rw [dif_neg h]
    exact iff_of_true rfl (by omega)

theorem level_flipped (s : Segment) : s.flipped.level = s.level := rfl

theorem flipped_half (h : p.level < maxLevel) (hflipped : p.flipped.level < maxLevel) :
    (p.half side h).flipped = p.flipped.half side.opposite hflipped := by
  have hlt := p.index_lt
  have hcount := segmentCount_succ p.level
  refine key_injective ?_
  cases side with
  | lower =>
      simp only [key, flipped, half, count, Side.opposite, if_true, reduceCtorEq, if_false]
      rw [hcount]
      congr 2
      omega
  | upper =>
      simp only [key, flipped, half, count, Side.opposite, if_true, reduceCtorEq, if_false]
      rw [hcount]
      congr 2
      omega

theorem parent?_flipped (s : Segment) : s.flipped.parent? = s.parent?.map flipped := by
  by_cases h : 0 < s.level
  · obtain ⟨p, hp, side, rfl⟩ := exists_eq_half h
    have hflipped : p.flipped.level < maxLevel := hp
    rw [flipped_half hp hflipped, parent?_half, parent?_half]
    rfl
  · have hzero : s.level = 0 := by omega
    rw [parent?_eq_none_iff.2 hzero, parent?_eq_none_iff.2 (s.level_flipped.trans hzero)]
    rfl

theorem sibling?_flipped (s : Segment) : s.flipped.sibling? = s.sibling?.map flipped := by
  by_cases h : 0 < s.level
  · obtain ⟨p, hp, side, rfl⟩ := exists_eq_half h
    have hflipped : p.flipped.level < maxLevel := hp
    rw [flipped_half hp hflipped, sibling?_half, sibling?_half, Option.map_some,
      flipped_half hp hflipped]
  · have hzero : s.level = 0 := by omega
    rw [sibling?_eq_none_iff.2 hzero, sibling?_eq_none_iff.2 (s.level_flipped.trans hzero)]
    rfl

theorem child?_flipped (s : Segment) (side : Side) :
    s.flipped.child? side.opposite = (s.child? side).map flipped := by
  unfold child?
  by_cases h : s.level < maxLevel
  · have hflipped : s.flipped.level < maxLevel := h
    rw [dif_pos h, dif_pos hflipped, Option.map_some, flipped_half h hflipped]
  · have hflipped : ¬ s.flipped.level < maxLevel := h
    rw [dif_neg h, dif_neg hflipped]
    rfl

/-! ### Words

The index of a segment of the finest grid takes no more than sixteen bits, and no member of a family
is finer.  So neither doubling an index nor shifting a one by the level reaches the end of a word,
and equations between words are equations between numbers. -/

/-- The segment that an eight-bit level and a thirty-two-bit index name, if they name one. -/
def ofWords? (level : UInt8) (index : UInt32) : Option Segment :=
  (ofLevelIndex level.toNat index.toNat).toOption

/-- The level as a word. -/
def levelWord (s : Segment) : UInt8 := UInt8.ofNat s.level

/-- The index as a word. -/
def indexWord (s : Segment) : UInt32 := UInt32.ofNat s.index

theorem index_lt_cellCount (s : Segment) : s.index < cellCount := by
  rw [← s.count_mul_width]
  exact Nat.lt_of_lt_of_le s.index_lt (Nat.le_mul_of_pos_right _ s.width_pos)

theorem toNat_levelWord (s : Segment) : s.levelWord.toNat = s.level := by
  have hle : s.level ≤ 16 := s.level_le
  unfold levelWord
  rw [UInt8.toNat_ofNat']
  omega

theorem toNat_indexWord (s : Segment) : s.indexWord.toNat = s.index := by
  have hlt : s.index < 65536 := s.index_lt_cellCount
  unfold indexWord
  rw [UInt32.toNat_ofNat']
  omega

theorem ofWords?_eq_some_iff {level : UInt8} {index : UInt32} :
    ofWords? level index = some s ↔ level.toNat = s.level ∧ index.toNat = s.index := by
  unfold ofWords? ofLevelIndex
  constructor
  · intro h
    split at h
    · split at h
      · have hs := Option.some.inj h
        rw [← hs]
        exact ⟨rfl, rfl⟩
      · contradiction
    · contradiction
  · intro h
    obtain ⟨hlevel, hindex⟩ := h
    rw [dif_pos (hlevel ▸ s.level_le), dif_pos (hlevel ▸ hindex ▸ s.index_lt)]
    refine congrArg some (key_injective ?_)
    show [level.toNat, index.toNat] = [s.level, s.index]
    rw [hlevel, hindex]

theorem ofWords?_self (s : Segment) : ofWords? s.levelWord s.indexWord = some s :=
  ofWords?_eq_some_iff.2 ⟨s.toNat_levelWord, s.toNat_indexWord⟩

theorem ofWords?_parent (h : p.level < maxLevel) :
    ofWords? ((p.half side h).levelWord - 1) ((p.half side h).indexWord / 2) = some p := by
  have hlevel : p.level + 1 ≤ 16 := h
  rw [ofWords?_eq_some_iff, UInt8.toNat_sub, UInt32.toNat_div, toNat_levelWord, toNat_indexWord]
  show (2 ^ 8 - 1 + (p.level + 1)) % 2 ^ 8 = p.level ∧ _ / 2 = p.index
  refine ⟨by omega, ?_⟩
  cases side with
  | lower => simp [half]
  | upper =>
      simp only [half, reduceCtorEq, if_false]
      omega

theorem ofWords?_child (h : s.level < maxLevel) (side : Side) :
    ofWords? (s.levelWord + 1) (s.indexWord * 2 + side.bit) = some (s.half side h) := by
  have hlevel : s.level + 1 ≤ 16 := h
  have hindex : s.index < 65536 := s.index_lt_cellCount
  rw [ofWords?_eq_some_iff, UInt8.toNat_add, UInt32.toNat_add, UInt32.toNat_mul, toNat_levelWord,
    toNat_indexWord]
  show (s.level + 1) % 2 ^ 8 = s.level + 1 ∧
    (s.index * 2 % 2 ^ 32 + side.bit.toNat) % 2 ^ 32 = 2 * s.index + if side = .lower then 0 else 1
  refine ⟨by omega, ?_⟩
  cases side with
  | lower =>
      show (s.index * 2 % 2 ^ 32 + 0) % 2 ^ 32 = 2 * s.index + 0
      omega
  | upper =>
      show (s.index * 2 % 2 ^ 32 + 1) % 2 ^ 32 = 2 * s.index + 1
      omega

theorem ofWords?_sibling (h : p.level < maxLevel) :
    ofWords? (p.half side h).levelWord ((p.half side h).indexWord ^^^ 1)
      = some (p.half side.opposite h) := by
  rw [ofWords?_eq_some_iff, UInt32.toNat_xor, toNat_levelWord, toNat_indexWord]
  refine ⟨rfl, ?_⟩
  cases side with
  | lower => exact Nat.xor_one_of_even (even_two_mul p.index)
  | upper => exact Nat.xor_one_of_odd ⟨p.index, rfl⟩

theorem segmentCount_le {l : Nat} (h : l ≤ maxLevel) : segmentCount l ≤ 65536 :=
  Nat.pow_le_pow_right (by decide) h

/-- The shift that counts the segments of a level does not leave its word. -/
theorem toNat_one_shiftLeft {w : UInt64} (h : w.toNat ≤ maxLevel) :
    ((1 : UInt64) <<< w).toNat = segmentCount w.toNat := by
  have hle := segmentCount_le h
  have hmax : w.toNat ≤ 16 := h
  have hwide : w.toNat % 64 = w.toNat := Nat.mod_eq_of_lt (by omega)
  have hshift : 1 <<< w.toNat = segmentCount w.toNat := Nat.one_shiftLeft w.toNat
  rw [UInt64.toNat_shiftLeft, UInt64.toNat_one, hwide, hshift]
  omega

theorem ofWords?_flipped (s : Segment) :
    ofWords? s.levelWord ((((1 : UInt64) <<< s.levelWord.toUInt64) - 1).toUInt32 - s.indexWord)
      = some s.flipped := by
  have hword : s.levelWord.toUInt64.toNat = s.level := by
    rw [UInt8.toNat_toUInt64, toNat_levelWord]
  have hcount := toNat_one_shiftLeft (hword ▸ s.level_le)
  have hle := segmentCount_le s.level_le
  have hlt := s.index_lt
  rw [ofWords?_eq_some_iff, UInt32.toNat_sub, UInt64.toNat_toUInt32, UInt64.toNat_sub, hcount,
    hword, UInt64.toNat_one, toNat_levelWord, toNat_indexWord]
  refine ⟨rfl, ?_⟩
  show _ = segmentCount s.level - 1 - s.index
  omega

/-! ### Comparing on words

To be compared, the ends of a segment are scaled up to a level that is as fine as both segments.
The shift depends on the other segment, but it leads no further than to the number of cells of the
block. -/

/-- The lower end of the segment, counted in segments of a level that is at least as fine. -/
def lowerWord (s : Segment) (level : UInt8) : UInt64 :=
  s.indexWord.toUInt64 * ((1 : UInt64) <<< (level - s.levelWord).toUInt64)

/-- The upper end of the segment, counted in segments of a level that is at least as fine. -/
def upperWord (s : Segment) (level : UInt8) : UInt64 :=
  s.lowerWord level + ((1 : UInt64) <<< (level - s.levelWord).toUInt64)

section Ends

variable {l : UInt8} (hl : l.toNat ≤ maxLevel)
include hl

theorem toNat_scale (hs : s.level ≤ l.toNat) :
    ((1 : UInt64) <<< (l - s.levelWord).toUInt64).toNat = segmentCount (l.toNat - s.level) := by
  have hle : s.levelWord ≤ l := by rwa [UInt8.le_iff_toNat_le, toNat_levelWord]
  have hword : (l - s.levelWord).toUInt64.toNat = l.toNat - s.level := by
    rw [UInt8.toNat_toUInt64, UInt8.toNat_sub_of_le _ _ hle, toNat_levelWord]
  rw [toNat_one_shiftLeft (by omega), hword]

theorem toNat_lowerWord (hs : s.level ≤ l.toNat) :
    (s.lowerWord l).toNat = s.index * segmentCount (l.toNat - s.level) := by
  have hindex : s.index ≤ 65536 := Nat.le_of_lt s.index_lt_cellCount
  have hmul := Nat.mul_le_mul hindex (segmentCount_le (l := l.toNat - s.level) (by omega))
  unfold lowerWord
  rw [UInt64.toNat_mul, UInt32.toNat_toUInt64, toNat_indexWord, toNat_scale hl hs]
  omega

theorem toNat_upperWord (hs : s.level ≤ l.toNat) :
    (s.upperWord l).toNat = (s.index + 1) * segmentCount (l.toNat - s.level) := by
  have hindex : s.index + 1 ≤ 65536 := s.index_lt_cellCount
  have hmul := Nat.mul_le_mul hindex (segmentCount_le (l := l.toNat - s.level) (by omega))
  rw [Nat.add_one_mul] at hmul ⊢
  unfold upperWord
  rw [UInt64.toNat_add, toNat_lowerWord hl hs, toNat_scale hl hs]
  omega

theorem width_eq_mul (hs : s.level ≤ l.toNat) :
    s.width = segmentCount (l.toNat - s.level) * segmentCount (maxLevel - l.toNat) := by
  unfold width
  rw [← segmentCount_add]
  congr 1
  omega

theorem start_eq_mul (hs : s.level ≤ l.toNat) :
    s.start = (s.lowerWord l).toNat * segmentCount (maxLevel - l.toNat) := by
  rw [start, width_eq_mul hl hs, toNat_lowerWord hl hs, Nat.mul_assoc]

theorem stop_eq_mul (hs : s.level ≤ l.toNat) :
    s.stop = (s.upperWord l).toNat * segmentCount (maxLevel - l.toNat) := by
  rw [stop_eq, width_eq_mul hl hs, toNat_upperWord hl hs, Nat.mul_assoc]

theorem overlaps_iff_words (hs : s.level ≤ l.toNat) (ht : t.level ≤ l.toNat) :
    s.Overlaps t ↔ s.lowerWord l < t.upperWord l ∧ t.lowerWord l < s.upperWord l := by
  have hpos := segmentCount_pos (maxLevel - l.toNat)
  unfold Overlaps
  rw [start_eq_mul hl hs, stop_eq_mul hl ht, start_eq_mul hl ht, stop_eq_mul hl hs,
    Nat.mul_lt_mul_right hpos, Nat.mul_lt_mul_right hpos, UInt64.lt_iff_toNat_lt,
    UInt64.lt_iff_toNat_lt]

theorem abuts_upper_iff_words (hs : s.level ≤ l.toNat) (ht : t.level ≤ l.toNat) :
    s.Abuts .upper t ↔ s.upperWord l = t.lowerWord l := by
  have hpos := segmentCount_pos (maxLevel - l.toNat)
  show s.stop = t.start ↔ _
  rw [stop_eq_mul hl hs, start_eq_mul hl ht, Nat.mul_left_inj hpos.ne', UInt64.toNat_inj]

end Ends

/-! ### Dyadic intervals -/

/-- The family of a segment, computed on words.  Wherever there is a member it is a segment, and the
words name it, so that nothing has wrapped around. -/
structure InWords (s : Segment) : Prop where
  /-- The segment is named by its own words. -/
  self : ofWords? s.levelWord s.indexWord = some s
  /-- Below the whole block there is a parent. -/
  parent : if 0 < s.level then
      ∃ p, s.parent? = some p ∧ ofWords? (s.levelWord - 1) (s.indexWord / 2) = some p
    else s.parent? = none
  /-- Above the finest level there is a half on each side. -/
  child : ∀ side, if s.level < maxLevel then
      ∃ c, s.child? side = some c ∧
        ofWords? (s.levelWord + 1) (s.indexWord * 2 + side.bit) = some c
    else s.child? side = none
  /-- Below the whole block there is another half of the parent. -/
  sibling : if 0 < s.level then
      ∃ c, s.sibling? = some c ∧ ofWords? s.levelWord (s.indexWord ^^^ 1) = some c
    else s.sibling? = none
  /-- Every segment can be read along the axis run backwards. -/
  flipped : ofWords? s.levelWord
    ((((1 : UInt64) <<< s.levelWord.toUInt64) - 1).toUInt32 - s.indexWord) = some s.flipped

theorem inWords (s : Segment) : s.InWords where
  self := s.ofWords?_self
  parent := by
    by_cases h : 0 < s.level
    · obtain ⟨p, hp, side, rfl⟩ := exists_eq_half h
      rw [if_pos h]
      exact ⟨p, parent?_half hp, ofWords?_parent hp⟩
    · rw [if_neg h, parent?_eq_none_iff]
      omega
  child := by
    intro side
    by_cases h : s.level < maxLevel
    · rw [if_pos h]
      exact ⟨s.half side h, dif_pos h, ofWords?_child h side⟩
    · rw [if_neg h]
      exact dif_neg h
  sibling := by
    by_cases h : 0 < s.level
    · obtain ⟨p, hp, side, rfl⟩ := exists_eq_half h
      rw [if_pos h]
      exact ⟨p.half side.opposite hp, sibling?_half hp, ofWords?_sibling hp⟩
    · rw [if_neg h, sibling?_eq_none_iff]
      omega
  flipped := s.ofWords?_flipped

/-- What comparing two segments comes to: a matter of their ends, as fractions of the block or as
words that count segments of the finer one of the two levels. -/
structure ComparedByEnds (s t : Segment) : Prop where
  /-- Segments overlap if they are equal or one is an ancestor of the other, and only then. -/
  overlaps : s.Overlaps t ↔ Within s t ∨ Within t s
  /-- Of segments that do not overlap exactly one lies below the other. -/
  apart : ¬ s.Overlaps t ↔ Xor (s.Below t) (t.Below s)
  /-- To abut is mutual, with the sides exchanged. -/
  abuts_back : s.Abuts .upper t ↔ t.Abuts .lower s
  /-- Segments abut where the one ends and the other begins. -/
  abuts : s.Abuts .upper t ↔ s.upperEnd = t.lowerEnd
  /-- Words tell whether the segments overlap. -/
  overlaps_words : let l := max s.levelWord t.levelWord
    s.Overlaps t ↔ s.lowerWord l < t.upperWord l ∧ t.lowerWord l < s.upperWord l
  /-- Words tell whether the segments abut. -/
  abuts_words : let l := max s.levelWord t.levelWord
    s.Abuts .upper t ↔ s.upperWord l = t.lowerWord l

theorem comparedByEnds (s t : Segment) : s.ComparedByEnds t := by
  have hlevel : (max s.levelWord t.levelWord).toNat = max s.level t.level := by
    rw [UInt8.toNat_max, toNat_levelWord, toNat_levelWord]
  have hl : (max s.levelWord t.levelWord).toNat ≤ maxLevel :=
    hlevel ▸ Nat.max_le.2 ⟨s.level_le, t.level_le⟩
  have hs : s.level ≤ (max s.levelWord t.levelWord).toNat := hlevel ▸ Nat.le_max_left ..
  have ht : t.level ≤ (max s.levelWord t.levelWord).toNat := hlevel ▸ Nat.le_max_right ..
  exact {
    overlaps := overlaps_iff_within
    apart := not_overlaps_iff
    abuts_back := Iff.rfl
    abuts := abuts_upper_iff
    overlaps_words := overlaps_iff_words hl hs ht
    abuts_words := abuts_upper_iff_words hl hs ht }

/-- What it comes to to read segments along the axis run backwards. -/
structure Mirrored (s t : Segment) : Prop where
  /-- Run backwards twice, the axis is as it was. -/
  twice : s.flipped.flipped = s
  /-- The parent is mirrored with the segment. -/
  parent : s.flipped.parent? = s.parent?.map Segment.flipped
  /-- The sibling is mirrored with the segment. -/
  sibling : s.flipped.sibling? = s.sibling?.map Segment.flipped
  /-- The half on one side is mirrored to the half on the other side. -/
  child : ∀ side, s.flipped.child? side.opposite = (s.child? side).map Segment.flipped
  /-- Segments overlap as before. -/
  overlaps : s.flipped.Overlaps t.flipped ↔ s.Overlaps t
  /-- Segments abut as before, on the other side. -/
  abuts : ∀ side, s.flipped.Abuts side.opposite t.flipped ↔ s.Abuts side t
  /-- The end of the block is reached as before, on the other side. -/
  touches : ∀ side, s.flipped.Touches side.opposite ↔ s.Touches side

theorem mirrored (s t : Segment) : s.Mirrored t where
  twice := s.flipped_flipped
  parent := s.parent?_flipped
  sibling := s.sibling?_flipped
  child := s.child?_flipped
  overlaps := by rw [overlaps_flipped_iff, flipped_flipped]
  abuts := fun side => by rw [abuts_flipped_iff, flipped_flipped, Side.opposite_opposite]
  touches := fun side => by rw [touches_flipped_iff, Side.opposite_opposite]

/-- Segments are dyadic intervals: their family stays within the words that hold them, they compare
by their ends, they can be mirrored, and nothing abuts them past the end of the block. -/
theorem dyadic_intervals (s t : Segment) :
    s.InWords ∧ s.ComparedByEnds t ∧ s.Mirrored t ∧
      ∀ side, ¬ (s.Touches side ∧ s.Abuts side t) :=
  ⟨s.inWords, s.comparedByEnds t, s.mirrored t, fun _ h => not_abuts_of_touches h.1 h.2⟩

end Segment

end AdaptiveMesh
