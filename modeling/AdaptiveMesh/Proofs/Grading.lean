/-
Graded forests.

A forest is graded when the levels of neighbours differ by one at most, along every
axis of the one and the corresponding axis of the other.  Balancing is there to keep a
forest graded: each element compares the levels to which its decision leads with those
of its neighbours, and raises its decision where they would be too far apart.

In a run without limits of its own, what settles is balanced.  Enforcing a decision
again could take back only what leads beyond the finest grid, and as no neighbour wants
to go there, no element is made to.  So every element is content with what its
neighbours decided, and neighbours are neighbours of each other.
-/
import AdaptiveMesh.Proofs.Round

namespace AdaptiveMesh

variable {D : Nat}

/-- Two levels differ by one at most. -/
def Near (a b : Nat) : Prop := a ≤ b + 1 ∧ b ≤ a + 1

instance (a b : Nat) : Decidable (Near a b) :=
  inferInstanceAs (Decidable (_ ∧ _))

theorem Near.symm {a b : Nat} (h : Near a b) : Near b a := ⟨h.2, h.1⟩

theorem Near.refl (a : Nat) : Near a a := ⟨Nat.le_succ a, Nat.le_succ a⟩

namespace Config

/-- A run that may split and join, axis by axis and with no limits of its own. -/
structure Unlimited (config : Config D) : Prop where
  mode_eq : config.rules.mode = .full
  isotropy_eq : config.policies.isotropy = .anisotropic
  limits_eq : config.policies.limits = .loosest

/-- Such a run that balances along all axes. -/
structure Unrestricted (config : Config D) : Prop extends Unlimited config where
  balanceNormal_eq : config.policies.balanceNormal = true

/-- Along this axis the run compares neighbours across this face. -/
def Checks (config : Config D) (face : Face D) (d : Fin D) : Prop :=
  d ≠ face.axis ∨ config.policies.balanceNormal = true

theorem Checks.compares {config : Config D} {face : Face D} {d : Fin D}
    (h : config.Checks face d) : face.Compares config.policies.balanceNormal d := h

theorem Unrestricted.checks {config : Config D} (h : config.Unrestricted) (face : Face D)
    (d : Fin D) : config.Checks face d :=
  Or.inr h.balanceNormal_eq

end Config

namespace Forest

/-- The levels of neighbours, arranged by the element's axes, differ by one at most. -/
def Graded (f : Forest D) : Prop :=
  ∀ (e : Element D) (r : Record D), f.records[e]? = some r → ∀ (face : Face D) (k : Contact D),
    r.neighborhood[face] = some k → ∀ c ∈ k.elements, ∀ d,
      Near (e.segment d).level ((k.orientation.fromNeighbor c.levels).get d)

instance (f : Forest D) : Decidable f.Graded :=
  decidable_of_iff
    (∀ p ∈ f.records.toList, ∀ q ∈ p.2.neighborhood.contacts, ∀ c ∈ q.2.elements.toList,
      ∀ d, Near (p.1.segment d).level ((q.2.orientation.fromNeighbor c.levels).get d)) (by
    unfold Graded
    simp only [Prod.forall, Std.ExtTreeMap.mem_toList_iff_getElem?_eq_some,
      Neighborhood.mem_contacts, Std.ExtTreeSet.mem_toList])

theorem get_fromNeighbor_levels (o : Orientation D) (c : Element D) (d : Fin D) :
    (o.fromNeighbor c.levels).get d = (c.segment (o.axis d)).level := by
  unfold Orientation.fromNeighbor Element.levels
  rw [get_ofFn, get_ofFn]

variable {f g : Forest D} {config : Config D} {final : Decisions D} {outcomes : List (Outcome D)}
  {o o' : Outcome D} {e c p : Element D} {face : Face D} {k : Orientation D}

/-- In a sound forest it is all elements that touch whose levels must be close. -/
theorem Sound.graded_iff (hf : f.Sound) : f.Graded ↔ ∀ e ∈ f, ∀ c ∈ f, ∀ face k,
    f.layout.touching? e face c = some k →
      ∀ d, Near (e.segment d).level (c.segment (k.axis d)).level := by
  unfold Graded
  simp only [get_fromNeighbor_levels]
  constructor
  · intro h e he c hc face k hk d
    obtain ⟨r, hr⟩ := mem_iff_exists_record.1 he
    obtain ⟨contact, hcontact, hcm, rfl⟩ := hf.exists_contact hr hc hk
    exact h e r hr face contact hcontact c hcm d
  · intro h e r hr face contact hcontact c hc d
    obtain ⟨hcf, hk⟩ := (hf.mem_contact_iff hr hcontact).1 hc
    exact h e (mem_of_record hr) c hcf face _ hk d

/-! ### Nothing is taken back -/

namespace Enforced

variable {flags flags' raised : Decision D} {r : Record D} {feed : Feed D}

theorem canSplit (h : f.Enforced config e flags) (hconfig : config.Unlimited) :
    flags.CanSplit e := by
  obtain ⟨r, given, -, h⟩ := h
  intro d hd
  have hnone := Policies.crossing?_eq_none_of_enforce h d
  rw [hconfig.limits_eq, hd] at hnone
  exact Policies.crossing?_loosest_split_iff.1 hnone

/-- Enforcing a decision again that was raised within the finest grid only drops joins beside a
split. -/
theorem again_eq (h : f.Enforced config e flags) (hconfig : config.Unlimited)
    (hr : f.records[e]? = some r) (hraised : flags.RaisedTo raised) (hsplit : raised.CanSplit e)
    (again : config.enforce e r.mesh raised = .ok flags') :
    flags' = raised.dropJoinsBesideSplit := by
  have hclosed : ∀ d, flags.get d ≠ .undefined := by
    obtain ⟨r', given, -, h⟩ := h
    exact Policies.get_ne_undefined_of_enforce h
  refine Policies.enforce_eq_dropJoinsBesideSplit hconfig.isotropy_eq again
    (fun d => ?_) fun d => ?_
  · rcases hraised d with heq | ⟨-, heq⟩ | ⟨-, heq⟩
    · exact heq ▸ hclosed d
    · simp [heq]
    · simp [heq]
  · rcases hraised d with heq | ⟨-, heq⟩ | ⟨-, heq⟩
    · exact heq ▸ h.crossing?_eq_none hr d
    · rw [heq]
      rfl
    · rw [heq, hconfig.limits_eq]
      exact Policies.crossing?_loosest_split_iff.2 (hsplit d heq)

/-- Without limits of its own, a run only ever raises an enforced decision. -/
theorem raisedTo (h : f.Enforced config e flags) (hconfig : config.Unlimited)
    (hr : f.records[e]? = some r)
    (hfeed : ∀ c theirs, feed c = some theirs → f.Enforced config c theirs)
    (hs : Settles config (r.site e) r.mesh flags feed flags') : flags.RaisedTo flags' := by
  cases hs with
  | unbalanced => exact .refl flags
  | unchanged _ balanced same => exact (Site.balance_from balanced h.canJoin).raised
  | enforced _ balanced changed again =>
      have hfrom := Site.balance_from balanced h.canJoin
      have hsplit := Site.canSplit_balance balanced h.canJoin (h.canSplit hconfig)
        fun c _ theirs htheirs => (hfeed c theirs htheirs).canSplit hconfig
      rw [h.again_eq hconfig hr hfrom.raised hsplit again]
      exact hfrom.raised.trans (Decision.raisedTo_dropJoinsBesideSplit _)

end Enforced

/-! ### What settles is balanced

A pass that changes nothing is, for every element, a balancing that changes nothing, against the
very decisions that settle in it.  So each of two neighbours is content with the other one, and
their levels are bounded by each other both ways. -/

namespace Settled

theorem canSplit (h : Settled f config final outcomes) (ho : o ∈ outcomes) :
    o.flags.CanSplit o.element :=
  fun _ hd => Decision.level_lt_of_replacement (h.replacement ho) hd

theorem canJoin (h : Settled f config final outcomes) (ho : o ∈ outcomes) :
    o.flags.CanJoin o.element :=
  (h.enforced o ho).canJoin

/-- Elements whose decisions settled are content with their neighbours, unless enforcing a decision
again takes back what balancing had made of it. -/
theorem content_of_again_ne (h : Settled f config final outcomes) (hf : f.Sound)
    (ho : o ∈ outcomes) (ho' : o' ∈ outcomes)
    (hk : f.layout.touching? o.element face o'.element = some k)
    (hmode : config.rules.mode = .full)
    (hagain : ∀ r revision, f.records[o.element]? = some r →
      (r.site o.element).balance config.policies.balanceNormal o.flags (fun c => final[c]?)
        = .ok (.balanced revision) → revision.flags ≠ o.flags →
      config.enforce o.element r.mesh revision.flags ≠ .ok o.flags) :
    (Standing.start o.element o.flags).Content o.element face
      (o'.element.desiredLevelsThrough o'.flags k) config.policies.balanceNormal := by
  obtain ⟨r, hr, hsettles, -⟩ := h.acted o ho
  obtain ⟨contact, hcontact, hc, rfl⟩ := hf.exists_contact hr (h.mem ho') hk
  have hagain := fun revision => hagain r revision hr
  have hcanJoin := h.canJoin ho
  generalize o.flags = flags at hsettles hagain hcanJoin ⊢
  cases hsettles with
  | unbalanced hnot =>
      refine absurd ⟨hmode, fun hempty => ?_⟩ hnot
      have hcn : o'.element ∈ (r.site o.element).neighbors :=
        Site.mem_neighbors_of_contact hcontact hc
      rw [hempty] at hcn
      exact Std.ExtTreeSet.not_mem_empty hcn
  | unchanged _ balanced same =>
      exact Site.content_of_balance balanced hcanJoin same
        ⟨contact, hcontact, o'.element, hc, o'.flags, h.decided o' ho', rfl⟩
  | @enforced revision _ _ balanced changed again =>
      have hfrom := Site.balance_from balanced hcanJoin
      exact absurd again (hagain revision balanced (hfrom.changed.1 changed))

section Unlimited

variable (h : Settled f config final outcomes) (hf : f.Sound)
  (hall : ∀ e ∈ f, ∃ o ∈ outcomes, o.element = e) (hconfig : config.Unlimited)

include h hf hall hconfig

/-- In a run without limits of its own, elements whose decisions settled are content with their
neighbours. -/
theorem content (ho : o ∈ outcomes) (ho' : o' ∈ outcomes)
    (hk : f.layout.touching? o.element face o'.element = some k) :
    (Standing.start o.element o.flags).Content o.element face
      (o'.element.desiredLevelsThrough o'.flags k) config.policies.balanceNormal := by
  refine h.content_of_again_ne hf ho ho' hk hconfig.mode_eq fun r revision hr hbal hne again => ?_
  -- a decision that was raised does not come back to itself when it is enforced again
  have henforced := h.enforced o ho
  have hneighbor : ∀ c ∈ r.neighborhood.elements, ∀ theirs, final[c]? = some theirs →
      theirs.CanSplit c := by
    intro c hc theirs htheirs
    obtain ⟨o', ho', rfl⟩ := hall c ((hf.mem_neighbors_iff hr).1 hc).1
    rw [h.decided o' ho', Option.some.injEq] at htheirs
    exact htheirs ▸ h.canSplit ho'
  have hfrom := Site.balance_from hbal henforced.canJoin
  have hsplit := Site.canSplit_balance hbal henforced.canJoin (h.canSplit ho) hneighbor
  have heq := henforced.again_eq hconfig hr hfrom.raised hsplit again
  have hback : revision.flags.RaisedTo o.flags :=
    heq ▸ Decision.raisedTo_dropJoinsBesideSplit revision.flags
  exact hne (hfrom.raised.antisymm hback).symm

/-- Along an axis that is compared, what settled leads a neighbour at most one level beyond the
element, if the neighbour was not further ahead. -/
theorem le_desired (ho : o ∈ outcomes) (ho' : o' ∈ outcomes)
    (hk : f.layout.touching? o.element face o'.element = some k) {d : Fin D}
    (hchecks : config.Checks face d)
    (hle : (o'.element.segment (k.axis d)).level ≤ (o.element.segment d).level + 1) :
    (o'.flags.get (k.axis d)).levelFrom (o'.element.segment (k.axis d)).level
      ≤ (o.flags.get d).levelFrom (o.element.segment d).level + 1 := by
  have hasked := (h.content hf hall hconfig ho ho' hk).unasked d
  rw [Standing.asked?_of_compares hchecks.compares, Element.get_desiredLevelsThrough] at hasked
  refine Flag.le_of_raised?_eq_none ?_ (h.canJoin ho d) ?_
  · rw [← Element.get_desiredLevels]
    exact hasked
  · have hdesired := Flag.levelFrom_le (o'.flags.get (k.axis d))
      (o'.element.segment (k.axis d)).level
    exact Nat.le_trans hdesired (Nat.succ_le_succ hle)

end Unlimited

/-- In a graded forest, what settled leads neighbours to levels that differ by one at most. -/
theorem near_desired (h : Settled f config final outcomes) (hf : f.Sound)
    (hall : ∀ e ∈ f, ∃ o ∈ outcomes, o.element = e) (hconfig : config.Unrestricted)
    (hgraded : f.Graded) (ho : o ∈ outcomes) (ho' : o' ∈ outcomes)
    (hk : f.layout.touching? o.element face o'.element = some k) (d : Fin D) :
    Near ((o.flags.get d).levelFrom (o.element.segment d).level)
      ((o'.flags.get (k.axis d)).levelFrom (o'.element.segment (k.axis d)).level) := by
  have hnear := hf.graded_iff.1 hgraded _ (h.mem ho) _ (h.mem ho') face k hk d
  have hback := Layout.touching?_symm hf.symmetric hk
  have hfree := hconfig.toUnlimited
  have hle := h.le_desired hf hall hfree ho' ho hback (hconfig.checks _ (k.axis d))
  rw [Orientation.inverse_axis_axis] at hle
  exact ⟨hle hnear.1, h.le_desired hf hall hfree ho ho' hk (hconfig.checks _ d) hnear.2⟩

end Settled

end Forest

end AdaptiveMesh
