/-
Comparing and raising.

A comparison with a neighbour raises flags: a join becomes nothing or a split, anything
else becomes a split.  Raising is an order on decisions, so a decision that was raised
anywhere is never the one it came from, and `changed` tells exactly whether it was.

An axis comes to split only towards a neighbour that will be two levels finer, and a
comparison that leaves a decision as it is finds the element content with the neighbour.
-/
import AdaptiveMesh.Proofs.Enforcement
import AdaptiveMesh.Proofs.Neighborhood
import AdaptiveMesh.Proofs.Outcome

namespace AdaptiveMesh

variable {D : Nat}

/-! ### Flags

What one comparison can do to a flag, and what several can do one after another, is the same.
Raising is therefore transitive, and no proof has to count comparisons. -/

namespace Flag

variable {a b c : Flag} {l n mine theirs : Nat}

/-- The level to which a flag leads. -/
def levelFrom (f : Flag) (level : Nat) : Nat :=
  match f with
  | .split => level + 1
  | .join => level - 1
  | _ => level

theorem levelFrom_le (f : Flag) (l : Nat) : f.levelFrom l ≤ l + 1 := by
  cases f <;> simp only [levelFrom] <;> omega

theorem le_levelFrom_add_one (f : Flag) (l : Nat) : l ≤ f.levelFrom l + 1 := by
  cases f <;> simp only [levelFrom] <;> omega

theorem levelFrom_of_ne {f : Flag} (hs : f ≠ .split) (hj : f ≠ .join) : f.levelFrom l = l := by
  cases f <;> first | rfl | contradiction

theorem levelFrom_le_of_ne_split {f : Flag} (hs : f ≠ .split) : f.levelFrom l ≤ l := by
  cases f <;> simp only [levelFrom] <;> first | omega | contradiction

theorem le_levelFrom_of_ne_join {f : Flag} (hj : f ≠ .join) : l ≤ f.levelFrom l := by
  cases f <;> simp only [levelFrom] <;> first | omega | contradiction

/-- The second flag is the first one or what comparisons may raise it to. -/
def RaisedTo (a b : Flag) : Prop :=
  b = a ∨ (a = .join ∧ b = .doNothing) ∨ (a ≠ .split ∧ b = .split)

theorem RaisedTo.trans (h : a.RaisedTo b) (h' : b.RaisedTo c) : a.RaisedTo c := by
  rcases h with rfl | ⟨rfl, rfl⟩ | ⟨ha, rfl⟩
  · exact h'
  · rcases h' with rfl | ⟨h', -⟩ | ⟨-, rfl⟩
    · exact Or.inr (Or.inl ⟨rfl, rfl⟩)
    · contradiction
    · exact Or.inr (Or.inr ⟨by simp, rfl⟩)
  · rcases h' with rfl | ⟨h', -⟩ | ⟨h', -⟩
    · exact Or.inr (Or.inr ⟨ha, rfl⟩)
    · contradiction
    · contradiction

theorem RaisedTo.antisymm (h : a.RaisedTo b) (h' : b.RaisedTo a) : a = b := by
  rcases h with rfl | ⟨rfl, rfl⟩ | ⟨ha, rfl⟩
  · rfl
  · rcases h' with h' | ⟨h', -⟩ | ⟨-, h'⟩ <;> contradiction
  · rcases h' with rfl | ⟨h', -⟩ | ⟨h', -⟩
    · rfl
    · contradiction
    · contradiction

/-- What a comparison asks for raises the flag, and the flag ends one level below the neighbour. -/
theorem raised?_eq_some (h : a.raised? mine theirs = some (b, n)) :
    a.RaisedTo b ∧ b ≠ a ∧ theirs = n + 1 := by
  unfold raised? at h
  split at h
  · contradiction
  · split at h
    · simp only [Option.some.injEq, Prod.mk.injEq] at h
      obtain ⟨rfl, rfl⟩ := h
      exact ⟨Or.inr (Or.inr ⟨by simp, rfl⟩), by simp, by omega⟩
    · split at h
      · simp only [Option.some.injEq, Prod.mk.injEq] at h
        obtain ⟨rfl, rfl⟩ := h
        exact ⟨Or.inr (Or.inl ⟨rfl, rfl⟩), by simp, by omega⟩
      · contradiction
  · next hs hj =>
    split at h
    · simp only [Option.some.injEq, Prod.mk.injEq] at h
      obtain ⟨rfl, rfl⟩ := h
      exact ⟨Or.inr (Or.inr ⟨hs, rfl⟩), fun h => hs h.symm, by omega⟩
    · contradiction

/-- A neighbour within one level asks for nothing. -/
theorem raised?_eq_none_of_le (h : theirs ≤ mine + 1) : a.raised? mine theirs = none := by
  unfold raised?
  split
  · rfl
  · rw [if_neg (by omega), if_neg (by omega)]
  · exact if_neg (by omega)

/-- The level that comes with what is asked for is the one the new flag leads to. -/
theorem levelFrom_of_raised?_eq_some (h : a.raised? (a.levelFrom l) theirs = some (b, n))
    (hl : a = .join → 0 < l) : n = b.levelFrom l := by
  unfold raised? at h
  split at h
  · contradiction
  · have hpos := hl rfl
    split at h
    · simp only [levelFrom, Option.some.injEq, Prod.mk.injEq] at h
      obtain ⟨rfl, rfl⟩ := h
      simp only [levelFrom]
      omega
    · split at h
      · simp only [levelFrom, Option.some.injEq, Prod.mk.injEq] at h
        obtain ⟨rfl, rfl⟩ := h
        simp only [levelFrom]
        omega
      · contradiction
  · next hs hj =>
    split at h
    · simp only [Option.some.injEq, Prod.mk.injEq] at h
      obtain ⟨rfl, rfl⟩ := h
      cases a <;> simp_all [levelFrom]
    · contradiction

/-- A flag of which nothing is asked stays within one level of a neighbour that is at most two
levels finer than the element. -/
theorem le_of_raised?_eq_none (h : a.raised? (a.levelFrom l) theirs = none)
    (hl : a = .join → 0 < l) (hle : theirs ≤ l + 2) : theirs ≤ a.levelFrom l + 1 := by
  unfold raised? at h
  cases a <;> simp only [levelFrom] at h ⊢ <;> grind

end Flag

/-! ### Decisions -/

namespace Decision

variable {a b c : Decision D} {e : Element D}

/-- The second decision is the first one or what comparisons may raise it to. -/
def RaisedTo (a b : Decision D) : Prop := ∀ d, (a.get d).RaisedTo (b.get d)

theorem RaisedTo.refl (a : Decision D) : a.RaisedTo a := fun _ => Or.inl rfl

theorem RaisedTo.trans (h : a.RaisedTo b) (h' : b.RaisedTo c) : a.RaisedTo c :=
  fun d => (h d).trans (h' d)

theorem RaisedTo.antisymm (h : a.RaisedTo b) (h' : b.RaisedTo a) : a = b :=
  ext_get fun d => (h d).antisymm (h' d)

/-- A decision that was raised in two steps differs from the first one if either step did
anything. -/
theorem RaisedTo.ne_iff (h : a.RaisedTo b) (h' : b.RaisedTo c) : c ≠ a ↔ b ≠ a ∨ c ≠ b := by
  constructor
  · intro hne
    by_cases hb : b = a
    · exact Or.inr fun hc => hne (hc.trans hb)
    · exact Or.inl hb
  · rintro hor rfl
    obtain rfl := h.antisymm h'
    exact hor.elim (fun hne => hne rfl) fun hne => hne rfl

/-- What is raised keeps its splits. -/
theorem RaisedTo.get_eq_split (h : a.RaisedTo b) {d : Fin D} (hd : a.get d = .split) :
    b.get d = .split := by
  rcases h d with heq | ⟨ha, -⟩ | ⟨-, hb⟩
  · exact heq.trans hd
  · rw [hd] at ha
    contradiction
  · exact hb

/-- A flag that is not raised to a split stays, unless it was a join. -/
theorem RaisedTo.get_eq (h : a.RaisedTo b) {d : Fin D} (hs : b.get d ≠ .split)
    (hj : a.get d ≠ .join) : b.get d = a.get d := by
  rcases h d with heq | ⟨ha, -⟩ | ⟨-, hb⟩
  · exact heq
  · exact absurd ha hj
  · exact absurd hb hs

theorem raisedTo_dropJoinsBesideSplit (a : Decision D) : a.RaisedTo a.dropJoinsBesideSplit := by
  intro d
  rw [get_dropJoinsBesideSplit]
  split
  · next h => exact Or.inr (Or.inl ⟨h.2, rfl⟩)
  · exact Or.inl rfl

/-- The element has a parent along every axis that joins. -/
def CanJoin (flags : Decision D) (e : Element D) : Prop :=
  ∀ d, flags.get d = .join → 0 < (e.segment d).level

/-- The element has children along every axis that splits. -/
def CanSplit (flags : Decision D) (e : Element D) : Prop :=
  ∀ d, flags.get d = .split → (e.segment d).level < maxLevel

/-- Along every axis that splits the element is below a bound. -/
def SplitsBelow (flags : Decision D) (e : Element D) (bound : Fin D → Nat) : Prop :=
  ∀ d, flags.get d = .split → (e.segment d).level < bound d

theorem RaisedTo.canJoin (h : a.RaisedTo b) (ha : a.CanJoin e) : b.CanJoin e := by
  intro d hd
  rcases h d with heq | ⟨-, hb⟩ | ⟨-, hb⟩
  · exact ha d (heq ▸ hd)
  · rw [hd] at hb
    contradiction
  · rw [hd] at hb
    contradiction

end Decision

theorem Element.get_desiredLevels (e : Element D) (flags : Decision D) (d : Fin D) :
    (e.desiredLevels flags).get d = (flags.get d).levelFrom (e.segment d).level := by
  unfold desiredLevels
  rw [get_ofFn]
  cases flags.get d <;> rfl

theorem Element.get_desiredLevelsThrough (c : Element D) (flags : Decision D) (o : Orientation D)
    (d : Fin D) : (c.desiredLevelsThrough flags o).get d
      = (flags.get (o.axis d)).levelFrom (c.segment (o.axis d)).level := by
  unfold desiredLevelsThrough Orientation.fromNeighbor
  rw [get_ofFn, get_desiredLevels]

/-- Children have the levels to which the decision leads that made them. -/
theorem Element.levelFrom_of_mem_children {e c : Element D} {flags : Decision D}
    {l : List (Element D)} (h : e.children flags = .ok l) (hj : ¬ flags.Has .join) (hc : c ∈ l)
    (d : Fin D) : (c.segment d).level = (flags.get d).levelFrom (e.segment d).level := by
  rw [level_of_mem_children h hc]
  split
  · next hd => rw [hd, Flag.levelFrom]
  · next hd => exact (Flag.levelFrom_of_ne hd fun hd => hj ⟨d, hd⟩).symm

/-- A parent has the levels to which the decision to join into it leads. -/
theorem Element.levelFrom_of_parent {e p : Element D} {flags : Decision D}
    (h : e.parent flags = .ok p) (hs : ¬ flags.Has .split) (d : Fin D) :
    (p.segment d).level = (flags.get d).levelFrom (e.segment d).level := by
  rw [level_of_parent h]
  split
  · next hd => rw [hd, Flag.levelFrom, Nat.add_sub_cancel]
  · next hd => exact (Flag.levelFrom_of_ne (fun hd => hs ⟨d, hd⟩) hd).symm

/-- An element that acts on a decision is not led beyond the finest grid. -/
theorem Decision.CanSplit.desiredLevels_le {flags : Decision D} {e : Element D}
    (h : flags.CanSplit e) (d : Fin D) : (e.desiredLevels flags).get d ≤ maxLevel := by
  rw [Element.get_desiredLevels]
  have hle := (e.segment d).level_le
  cases hd : flags.get d with
  | split => exact h d hd
  | join => exact Nat.le_trans (Nat.sub_le _ _) hle
  | _ => exact hle

/-! ### One comparison

A standing carries the levels along with the flags, and with them whether anything was changed.
`From` says that both are right, and then what a comparison does can be said of decisions alone. -/

/-- Along this axis an element is compared with its neighbours across the face. -/
def Face.Compares (face : Face D) (normal : Bool) (d : Fin D) : Prop :=
  d ≠ face.axis ∨ normal = true

namespace Standing

variable {s : Standing D} {e : Element D} {flags : Decision D} {face : Face D}
  {theirs : Vector Nat D} {normal : Bool} {d : Fin D}

/-- The standing of an element before any comparison. -/
def start (e : Element D) (flags : Decision D) : Standing D where
  flags := flags
  levels := e.desiredLevels flags

/-- The standing came from a decision by raising flags, and knows whether it did. -/
structure From (e : Element D) (flags : Decision D) (s : Standing D) : Prop where
  /-- The levels are those to which the flags lead. -/
  levels : s.levels = e.desiredLevels s.flags
  /-- The flags were raised or left. -/
  raised : flags.RaisedTo s.flags
  /-- A change was noted exactly if there was one. -/
  changed : s.changed = true ↔ s.flags ≠ flags

theorem from_start (e : Element D) (flags : Decision D) : From e flags (start e flags) where
  levels := rfl
  raised := .refl flags
  changed := iff_of_false (by simp [start]) fun h => h rfl

/-- The first comparisons raised a decision and the last one raised it further. -/
theorem From.step {s' : Standing D} (h : From e flags s)
    (hlevels : s'.levels = e.desiredLevels s'.flags) (hraised : s.flags.RaisedTo s'.flags)
    (hchanged : s'.changed = true ↔ s.changed = true ∨ s'.flags ≠ s.flags) : From e flags s' where
  levels := hlevels
  raised := h.raised.trans hraised
  changed := by rw [hchanged, h.raised.ne_iff hraised, h.changed]

/-- An axis along which the element is compared is asked for what its flag is raised to. -/
theorem asked?_eq_some_iff {a : Flag × Nat} : s.asked? face theirs normal d = some a ↔
    face.Compares normal d ∧
      (s.flags.get d).raised? (s.levels.get d) (theirs.get d) = some a := by
  unfold asked? Face.Compares
  split
  · next hskip => simp [hskip]
  · next hnot =>
    rw [not_and_or, Bool.not_eq_false] at hnot
    exact (and_iff_right hnot).symm

theorem asked?_of_compares (h : face.Compares normal d) :
    s.asked? face theirs normal d = (s.flags.get d).raised? (s.levels.get d) (theirs.get d) := by
  unfold asked?
  refine if_neg fun hskip => ?_
  rcases h with hne | hon
  · exact hne hskip.1
  · rw [hskip.2] at hon
    contradiction

/-- An axis of which the neighbour's level asks nothing is not asked. -/
theorem asked?_eq_none_of_le (h : theirs.get d ≤ s.levels.get d + 1) :
    s.asked? face theirs normal d = none := by
  unfold asked?
  split
  · rfl
  · exact Flag.raised?_eq_none_of_le h

theorem get_raise_of_none (h : s.asked? face theirs normal d = none) :
    (s.raise face theirs normal).flags.get d = s.flags.get d ∧
      (s.raise face theirs normal).levels.get d = s.levels.get d := by
  unfold raise
  simp only [get_ofFn, h]
  exact ⟨rfl, rfl⟩

theorem get_raise_of_some {a : Flag × Nat} (h : s.asked? face theirs normal d = some a) :
    (s.raise face theirs normal).flags.get d = a.1 ∧
      (s.raise face theirs normal).levels.get d = a.2 := by
  unfold raise
  simp only [get_ofFn, h]
  exact ⟨rfl, rfl⟩

theorem raisedTo_raise : s.flags.RaisedTo (s.raise face theirs normal).flags := by
  intro d
  cases ha : s.asked? face theirs normal d with
  | none => exact Or.inl (get_raise_of_none ha).1
  | some a =>
      rw [(get_raise_of_some ha).1]
      exact (Flag.raised?_eq_some (asked?_eq_some_iff.1 ha).2).1

/-- Whatever is asked for changes the decision. -/
theorem raise_flags_ne_iff : (s.raise face theirs normal).flags ≠ s.flags ↔
    ∃ d, (s.asked? face theirs normal d).isSome := by
  constructor
  · intro hne
    by_contra hno
    refine hne (ext_get fun d => (get_raise_of_none ?_).1)
    cases ha : s.asked? face theirs normal d with
    | none => rfl
    | some a => exact absurd ⟨d, by rw [ha]; rfl⟩ hno
  · rintro ⟨d, hd⟩ heq
    obtain ⟨a, ha⟩ := Option.isSome_iff_exists.1 hd
    have hget := (get_raise_of_some ha).1
    rw [heq] at hget
    exact (Flag.raised?_eq_some (asked?_eq_some_iff.1 ha).2).2.1 hget.symm

theorem From.raise (h : From e flags s) (hj : flags.CanJoin e) :
    From e flags (s.raise face theirs normal) := by
  refine h.step (ext_get fun d => ?_) raisedTo_raise ?_
  · have hlevel : s.levels.get d = (s.flags.get d).levelFrom (e.segment d).level := by
      rw [h.levels, Element.get_desiredLevels]
    rw [Element.get_desiredLevels]
    cases ha : s.asked? face theirs normal d with
    | none => rw [(get_raise_of_none ha).1, (get_raise_of_none ha).2, hlevel]
    | some a =>
        have hr := (asked?_eq_some_iff.1 ha).2
        rw [hlevel] at hr
        rw [(get_raise_of_some ha).1, (get_raise_of_some ha).2]
        exact Flag.levelFrom_of_raised?_eq_some hr (h.raised.canJoin hj d)
  · rw [raise_flags_ne_iff]
    unfold Standing.raise
    rw [Bool.or_eq_true, decide_eq_true_eq]

/-- Beside a sibling a join is given up if its levels are not those to which the flags lead, and
nothing else is changed. -/
theorem get_leaveSibling (s : Standing D) (e : Element D) (face : Face D) (theirs : Vector Nat D)
    (d : Fin D) : (s.leaveSibling e face theirs).flags.get d = s.flags.get d ∨
      (face.axis = d ∧ e.HasPotentialSibling face ∧ s.levels ≠ theirs) ∧
        s.flags.get d = .join ∧ (s.leaveSibling e face theirs).flags.get d = .doNothing := by
  unfold leaveSibling
  split
  · next hleave =>
    obtain ⟨hsibling, hjoin, hne⟩ := hleave
    dsimp only
    rw [get_setAxis]
    split
    · next hd =>
      subst hd
      exact Or.inr ⟨⟨rfl, hsibling, hne⟩, hjoin, rfl⟩
    · exact Or.inl rfl
  · exact Or.inl rfl

theorem raisedTo_leaveSibling : s.flags.RaisedTo (s.leaveSibling e face theirs).flags := by
  intro d
  rcases s.get_leaveSibling e face theirs d with heq | ⟨-, hjoin, hstay⟩
  · exact Or.inl heq
  · exact Or.inr (Or.inl ⟨hjoin, hstay⟩)

theorem raisedTo_compare : s.flags.RaisedTo (s.compare e face theirs normal).flags :=
  raisedTo_raise.trans raisedTo_leaveSibling

theorem From.leaveSibling (h : From e flags s) (hj : flags.CanJoin e) :
    From e flags (s.leaveSibling e face theirs) := by
  have hraised : s.flags.RaisedTo (s.leaveSibling e face theirs).flags := raisedTo_leaveSibling
  unfold Standing.leaveSibling at hraised ⊢
  split
  · next hleave =>
    rw [if_pos hleave] at hraised
    obtain ⟨-, hjoin, -⟩ := hleave
    have hpos := h.raised.canJoin hj _ hjoin
    refine h.step (ext_get fun d => ?_) hraised ?_
    · rw [Element.get_desiredLevels, get_setAxis, get_setAxis, h.levels]
      split
      · next hd =>
        subst hd
        rw [Element.get_desiredLevels, hjoin]
        exact Nat.sub_add_cancel hpos
      · rw [Element.get_desiredLevels]
    · refine iff_of_true rfl (Or.inr fun heq => ?_)
      have hget := congrArg (fun v => Vector.get v face.axis) heq
      dsimp only at hget
      rw [get_setAxis, if_pos rfl, hjoin] at hget
      contradiction
  · exact h

theorem From.compare (h : From e flags s) (hj : flags.CanJoin e) :
    From e flags (s.compare e face theirs normal) :=
  (h.raise hj).leaveSibling hj

/-- What is asked of a decision does not depend on how it came about. -/
theorem From.asked?_eq (h : From e flags s) :
    s.asked? face theirs normal = (start e s.flags).asked? face theirs normal := by
  funext d
  unfold asked?
  rw [h.levels]
  rfl

/-- What a comparison makes of a decision does not depend on whether an earlier one changed it. -/
theorem From.flags_compare (h : From e flags s) :
    (s.compare e face theirs normal).flags
      = ((start e s.flags).compare e face theirs normal).flags := by
  have hasked : s.asked? face theirs normal = (start e s.flags).asked? face theirs normal :=
    h.asked?_eq
  have hflags : (s.raise face theirs normal).flags
      = ((start e s.flags).raise face theirs normal).flags := by
    unfold Standing.raise
    rw [hasked]
    rfl
  have hlevels : (s.raise face theirs normal).levels
      = ((start e s.flags).raise face theirs normal).levels := by
    unfold Standing.raise
    rw [hasked, h.levels]
    rfl
  unfold Standing.compare Standing.leaveSibling
  rw [hflags, hlevels]
  split
  · rfl
  · exact hflags

/-- What an axis is raised to leads to the level that comes with it. -/
theorem From.levelFrom_of_asked? {a : Flag × Nat} (h : From e flags s) (hj : flags.CanJoin e)
    (ha : s.asked? face theirs normal d = some a) : a.1.levelFrom (e.segment d).level = a.2 := by
  have hraised : From e flags (s.raise face theirs normal) := h.raise hj
  have hget := congrArg (fun v => Vector.get v d) hraised.levels
  rw [Element.get_desiredLevels, (get_raise_of_some ha).1, (get_raise_of_some ha).2] at hget
  exact hget.symm

/-- A comparison makes an axis split only towards a neighbour that will be two levels finer. -/
theorem From.split_compare (h : From e flags s) (hj : flags.CanJoin e)
    (hd : (s.compare e face theirs normal).flags.get d = .split) :
    s.flags.get d = .split ∨
      face.Compares normal d ∧ theirs.get d = (e.segment d).level + 2 := by
  rcases get_leaveSibling (s.raise face theirs normal) e face theirs d with heq | ⟨-, -, hstay⟩
  · have hraise : (s.raise face theirs normal).flags.get d = .split := heq.symm.trans hd
    cases ha : s.asked? face theirs normal d with
    | none => exact Or.inl ((get_raise_of_none ha).1 ▸ hraise)
    | some a =>
        rw [(get_raise_of_some ha).1] at hraise
        have hlevel := h.levelFrom_of_asked? hj ha
        rw [hraise, Flag.levelFrom] at hlevel
        have htheirs := (Flag.raised?_eq_some (asked?_eq_some_iff.1 ha).2).2.2
        exact Or.inr ⟨(asked?_eq_some_iff.1 ha).1, by omega⟩
  · rw [Standing.compare, hstay] at hd
    contradiction

/-- An element has nothing to revise because of a neighbour across a face: the neighbour asks for
nothing, and no join is decided on that would leave it behind. -/
structure Content (s : Standing D) (e : Element D) (face : Face D) (theirs : Vector Nat D)
    (normal : Bool) : Prop where
  /-- No axis is too coarse for the neighbour. -/
  unasked : ∀ d, s.asked? face theirs normal d = none
  /-- If the element joins towards the neighbour, both will be at the same levels. -/
  together : e.HasPotentialSibling face → s.flags.get face.axis = .join → s.levels = theirs

/-- A comparison leaves the decision of an element as it is exactly if the element is content. -/
theorem flags_compare_eq_iff :
    (s.compare e face theirs normal).flags = s.flags ↔ s.Content e face theirs normal := by
  constructor
  · intro h
    have hraise : (s.raise face theirs normal).flags = s.flags := by
      have hback : (s.raise face theirs normal).flags.RaisedTo
          (s.compare e face theirs normal).flags := raisedTo_leaveSibling
      exact (h ▸ hback).antisymm raisedTo_raise
    have hnone : ∀ d, s.asked? face theirs normal d = none := by
      intro d
      cases ha : s.asked? face theirs normal d with
      | none => rfl
      | some a => exact absurd hraise (raise_flags_ne_iff.2 ⟨d, by rw [ha]; rfl⟩)
    have hlevels : (s.raise face theirs normal).levels = s.levels :=
      ext_get fun d => (get_raise_of_none (hnone d)).2
    refine ⟨hnone, fun hsibling hjoin => Classical.byContradiction fun hne => ?_⟩
    -- the join towards the sibling would have been given up
    unfold Standing.compare Standing.leaveSibling at h
    rw [hraise, hlevels, if_pos ⟨hsibling, hjoin, hne⟩] at h
    have hget := congrArg (fun v => Vector.get v face.axis) h
    dsimp only at hget
    rw [get_setAxis, if_pos rfl, hjoin] at hget
    contradiction
  · intro h
    have hflags : (s.raise face theirs normal).flags = s.flags :=
      ext_get fun d => (get_raise_of_none (h.unasked d)).1
    have hlevels : (s.raise face theirs normal).levels = s.levels :=
      ext_get fun d => (get_raise_of_none (h.unasked d)).2
    unfold Standing.compare Standing.leaveSibling
    rw [hflags, hlevels, if_neg fun hleave => hleave.2.2 (h.together hleave.1 hleave.2.1), hflags]

end Standing

end AdaptiveMesh
