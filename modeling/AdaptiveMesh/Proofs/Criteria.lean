/-
Criteria that cannot contradict each other.

Two flags for one axis cannot be combined exactly if the one undoes the other.  What a criterion
may propose along an axis is known up front, and criteria are refused if among all of that
there are two flags of which one undoes the other.  So the proposals of criteria that were
accepted can be combined, whatever the element, and putting them together makes nothing up:
along each axis the result is what some criterion proposed, or nothing if none has an opinion.
-/
import AdaptiveMesh.Policy.Config
import AdaptiveMesh.Proofs.Traversal

namespace AdaptiveMesh

variable {D : Nat}

/-! ### Flags -/

namespace Flag

variable {a b c : Flag}

/-- Two flags cannot be combined exactly if they undo each other. -/
theorem combine?_eq_none_iff :
    a.combine? b = none ↔ a.tendency ≠ .neutral ∧ b = a.opposite := by
  cases a <;> cases b <;> decide

theorem combine?_eq_some (h : a.combine? b = some c) : c = a ∨ c = b := by
  unfold combine? at h
  split at h
  · exact Or.inr (Option.some.inj h).symm
  repeat' split at h
  all_goals simp_all

theorem opposite_ne_undefined (h : a.tendency ≠ .neutral) : a.opposite ≠ .undefined := by
  cases a <;> simp_all [tendency, opposite]

end Flag

theorem FlagSet.mem_ofList {l : List Flag} {a : Flag} : a ∈ FlagSet.ofList l ↔ a ∈ l := by
  unfold ofList
  rw [Std.ExtTreeSet.mem_ofList, List.contains_iff_mem]

theorem FlagSet.conflicts_iff {s t : FlagSet} :
    s.Conflicts t ↔ ∃ a ∈ s, a.tendency ≠ .neutral ∧ a.opposite ∈ t := by
  unfold Conflicts
  simp only [Std.ExtTreeSet.mem_toList]

/-! ### Putting proposals together

Proposals are put together one after another, and what has come out so far is, along each axis, the
flag of one of them.  As any two of them combine, it combines with the next one, and the same holds
again. -/

namespace Decision

variable {a b start : Decision D} {l : List (Decision D)}

/-- Along no axis do the flags undo each other. -/
def Combines (a b : Decision D) : Prop := ∀ d, (a.get d).combine? (b.get d) ≠ none

theorem combine_eq_ok (h : a.Combines b) :
    ∃ r, combine a b = .ok r ∧ ∀ d, r.get d = a.get d ∨ r.get d = b.get d := by
  have hclash : a.clash? b = none := by
    refine firstFound?_eq_none_iff.2 fun d => ?_
    obtain ⟨flag, hflag⟩ := Option.ne_none_iff_exists'.1 (h d)
    rw [hflag]
  unfold combine
  rw [hclash]
  refine ⟨_, rfl, fun d => ?_⟩
  obtain ⟨flag, hflag⟩ := Option.ne_none_iff_exists'.1 (h d)
  rw [get_ofFn, hflag]
  exact Flag.combine?_eq_some hflag

/-- Decisions that combine with each other are put together, and what comes of them along an axis is
the flag of one of them. -/
theorem foldlM_combine_eq_ok (h : l.Pairwise Combines) (hstart : ∀ a ∈ l, start.Combines a) :
    ∃ r, l.foldlM combine start = .ok r ∧
      ∀ d, r.get d = start.get d ∨ ∃ a ∈ l, r.get d = a.get d := by
  induction l generalizing start with
  | nil => exact ⟨start, rfl, fun d => Or.inl rfl⟩
  | cons a l ih =>
      obtain ⟨ha, hl⟩ := List.pairwise_cons.1 h
      obtain ⟨hfirst, hrest⟩ := List.forall_mem_cons.1 hstart
      obtain ⟨next, hnext, hget⟩ := combine_eq_ok hfirst
      have hcombines : ∀ b ∈ l, next.Combines b := by
        intro b hb d
        rcases hget d with heq | heq
        · exact heq ▸ hrest b hb d
        · exact heq ▸ ha b hb d
      obtain ⟨r, hr, hfrom⟩ := ih hl hcombines
      refine ⟨r, by rw [List.foldlM_cons, hnext]; exact hr, fun d => ?_⟩
      rcases hfrom d with heq | ⟨b, hb, heq⟩
      · rw [heq]
        rcases hget d with heq | heq
        · exact Or.inl heq
        · exact Or.inr ⟨a, List.mem_cons_self, heq⟩
      · exact Or.inr ⟨b, List.mem_cons_of_mem a hb, heq⟩

theorem combineAll_eq_ok (h : l.Pairwise Combines) :
    ∃ r, combineAll l = .ok r ∧ ∀ d, r.get d = .undefined ∨ ∃ a ∈ l, r.get d = a.get d := by
  have hundecided : ∀ d, (undecided : Decision D).get d = .undefined :=
    fun d => get_replicate _ d
  have hstart : ∀ a ∈ l, (undecided : Decision D).Combines a := by
    intro a _ d
    rw [hundecided]
    simp [Flag.combine?]
  obtain ⟨r, hr, hfrom⟩ := foldlM_combine_eq_ok h hstart
  refine ⟨r, hr, fun d => ?_⟩
  rw [← hundecided d]
  exact hfrom d

end Decision

/-! ### What criteria propose -/

namespace Criterion

variable {k : Criterion D} {criteria : List (Criterion D)} {limits : Limits D} {e : Element D}
  {m : Mesh D} {d : Fin D}

/-- Outside its scope a criterion has no opinion. -/
theorem get_propose_of_not_mem (hd : d ∉ k.scope) : (k.propose limits e m).get d = .undefined := by
  unfold propose
  cases k with
  | increaseResolution s =>
      dsimp only
      rw [get_ofFn]
      exact if_neg hd
  | driveToTarget t =>
      dsimp only
      rw [get_ofFn]
      exact if_neg hd

/-- Within its scope a criterion proposes one of the flags that it was said to. -/
theorem get_propose_mem_possible (hd : d ∈ k.scope) :
    (k.propose limits e m).get d ∈ k.possible d := by
  unfold propose possible
  cases k with
  | increaseResolution s =>
      have hd : d ∈ s := hd
      dsimp only
      rw [get_ofFn, if_pos hd, if_pos hd, FlagSet.mem_ofList]
      split <;> simp
  | driveToTarget t =>
      have hd : d ∈ t.scope := hd
      dsimp only
      rw [get_ofFn, if_pos hd, if_pos hd, FlagSet.mem_ofList]
      split
      · simp
      · unfold Target.step
        repeat' split
        all_goals simp

/-- Having no opinion is not among the flags that a criterion is said to propose. -/
theorem ne_undefined_of_mem_possible {a : Flag} (h : a ∈ k.possible d) : a ≠ .undefined := by
  unfold possible at h
  cases k with
  | increaseResolution s =>
      dsimp only at h
      split at h
      · rw [FlagSet.mem_ofList] at h
        rintro rfl
        simp at h
      · exact absurd h Std.ExtTreeSet.not_mem_empty
  | driveToTarget t =>
      have hne := t.flags_ne d
      dsimp only at h
      split at h
      · rw [FlagSet.mem_ofList] at h
        rintro rfl
        simp [hne.symm] at h
      · exact absurd h Std.ExtTreeSet.not_mem_empty

theorem get_propose_eq_undefined_iff :
    (k.propose limits e m).get d = .undefined ↔ d ∉ k.scope :=
  ⟨fun h hd => ne_undefined_of_mem_possible (get_propose_mem_possible hd) h,
    get_propose_of_not_mem⟩

/-- Criteria that are not opposed cannot ask for opposite things. -/
theorem pairwise_of_opposed?_eq_none (h : opposed? criteria = none) :
    criteria.Pairwise fun a b => ∀ d, ¬ FlagSet.Conflicts (a.possible d) (b.possible d) := by
  unfold opposed? at h
  rw [List.findSome?_eq_none_iff] at h
  refine List.pairwise_iff_getElem.2 fun i j hi hj hij d hconflicts => ?_
  have hfirst : (criteria[i], i) ∈ criteria.zipIdx :=
    List.mem_zipIdx_iff_getElem?.2 (List.getElem?_eq_getElem hi)
  have hsecond : (criteria[j], j) ∈ criteria.zipIdx.drop (i + 1) := by
    refine List.mem_drop_iff_getElem.2 ⟨j - (i + 1), by simp; omega, ?_⟩
    rw [List.getElem_zipIdx]
    simp only [show i + 1 + (j - (i + 1)) = j by omega, Nat.zero_add]
  have hnone := List.findSome?_eq_none_iff.1 (h _ hfirst) _ hsecond
  have hd := firstFound?_eq_none_iff.1 hnone d
  rw [if_pos hconflicts] at hd
  contradiction

/-- Proposals of criteria that cannot ask for opposite things combine. -/
theorem combines_propose {k' : Criterion D}
    (h : ∀ d, ¬ FlagSet.Conflicts (k.possible d) (k'.possible d)) :
    (k.propose limits e m).Combines (k'.propose limits e m) := by
  intro d hnone
  obtain ⟨htendency, hopposite⟩ := Flag.combine?_eq_none_iff.1 hnone
  have hd : d ∈ k.scope := Classical.byContradiction fun hd => by
    rw [get_propose_of_not_mem hd] at htendency
    exact htendency rfl
  have hd' : d ∈ k'.scope := Classical.byContradiction fun hd' => by
    rw [get_propose_of_not_mem hd'] at hopposite
    exact Flag.opposite_ne_undefined htendency hopposite.symm
  refine h d (FlagSet.conflicts_iff.2 ⟨_, get_propose_mem_possible hd, htendency, ?_⟩)
  rw [← hopposite]
  exact get_propose_mem_possible hd'

/-- Criteria that are not opposed always have a common proposal, and along each axis it is that of
one of them. -/
theorem exists_combineAll (h : opposed? criteria = none) (limits : Limits D) (e : Element D)
    (m : Mesh D) :
    ∃ flags, Decision.combineAll (criteria.map fun k => k.propose limits e m) = .ok flags ∧
      ∀ d, flags.get d = .undefined ∨
        ∃ k ∈ criteria, flags.get d = (k.propose limits e m).get d := by
  have hcombines :
      (criteria.map fun k => k.propose limits e m).Pairwise Decision.Combines :=
    List.pairwise_map.2 ((pairwise_of_opposed?_eq_none h).imp combines_propose)
  obtain ⟨flags, hflags, hfrom⟩ := Decision.combineAll_eq_ok hcombines
  refine ⟨flags, hflags, fun d => (hfrom d).imp_right ?_⟩
  rintro ⟨proposal, hproposal, heq⟩
  obtain ⟨k, hk, rfl⟩ := List.mem_map.1 hproposal
  exact ⟨k, hk, heq⟩

/-! ### Criteria that were accepted -/

/-- Criteria that are accepted do what they are said to, whatever the element.  Each has an opinion
along the axes of its scope and nowhere else, it proposes one of the flags that it can propose, and
all proposals go together. -/
theorem proposals_agree {isotropy : Isotropy} (h : clash? criteria isotropy = none)
    (limits : Limits D) (e : Element D) (m : Mesh D) :
    (∀ k ∈ criteria, ∀ d, ((k.propose limits e m).get d = .undefined ↔ d ∉ k.scope) ∧
      (d ∈ k.scope → (k.propose limits e m).get d ∈ k.possible d)) ∧
    ∃ flags, Decision.combineAll (criteria.map fun k => k.propose limits e m) = .ok flags := by
  refine ⟨fun k _ d => ⟨get_propose_eq_undefined_iff, get_propose_mem_possible⟩, ?_⟩
  obtain ⟨flags, hflags, -⟩ := exists_combineAll (Option.or_eq_none_iff.1 h).1 limits e m
  exact ⟨flags, hflags⟩

/-- Two criteria that share the first axis, and one for the second axis that goes on splitting once
it has reached its target. -/
def shared : List (Criterion 2) :=
  [.increaseResolution ⟨#v[true, false]⟩, .increaseResolution ⟨#v[true, false]⟩,
    .driveToTarget {
      extents := Vector.replicate 2 4
      levels := Vector.replicate 2 0
      flags := .uniform .split
      scope := ⟨#v[false, true]⟩
      extents_pos := by decide
      levels_le := by decide
      flags_ne := by decide }]

/-- As many points as the criterion for the second axis asks for. -/
def sharedMesh : Mesh 2 where
  extents := Vector.replicate 2 4
  basis := Vector.replicate 2 .legendre
  quadrature := Vector.replicate 2 .gaussLobatto
  supported := by decide
  minimum_le := by decide

theorem proposals_agree_shared :
    clash? shared .anisotropic = none ∧
    (∀ k ∈ shared, (k.propose .loosest (Element.root 0 Nat.two_pos) sharedMesh).get 0 = .undefined ↔
      0 ∉ k.scope) ∧
    ∃ flags, Decision.combineAll
      (shared.map fun k => k.propose .loosest (Element.root 0 Nat.two_pos) sharedMesh) =
        .ok flags := by
  have haccepted : clash? shared .anisotropic = none := by decide +kernel
  obtain ⟨hpossible, hagree⟩ :=
    proposals_agree haccepted .loosest (Element.root 0 Nat.two_pos) sharedMesh
  exact ⟨haccepted, fun k hk => (hpossible k hk 0).1, hagree⟩

end Criterion

/-- No two criteria of a run are opposed. -/
theorem Config.opposed?_eq_none (config : Config D) :
    Criterion.opposed? config.criteria = none :=
  (Option.or_eq_none_iff.1 config.agree).1

/-- The criteria of a run always have a common proposal, and along each axis it is that of one of
them. -/
theorem Config.exists_propose (config : Config D) (e : Element D) (m : Mesh D) :
    ∃ flags, config.propose e m = .ok flags ∧ ∀ d, flags.get d = .undefined ∨
      ∃ k ∈ config.criteria, flags.get d = (k.propose config.policies.limits e m).get d := by
  obtain ⟨flags, hflags, hfrom⟩ :=
    Criterion.exists_combineAll config.opposed?_eq_none config.policies.limits e m
  exact ⟨flags, mapError_eq_ok.2 hflags, hfrom⟩

end AdaptiveMesh
