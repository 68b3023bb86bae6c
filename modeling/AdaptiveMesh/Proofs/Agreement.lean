/-
What neighbours agree on.

A round ends its passes when no decision changes any more, and every decision was then
compared with those of all neighbours.  So whatever one comparison insists on holds
between any two neighbours: along the axes that a run compares no neighbour will be more
than one level beyond an element, and an element that joins will be at the levels of
whatever lies on the side of its sibling.

Each pass compares with the decisions of the pass before and changes an element's own as it
goes along, so this is a matter of the last pass only.  It could fail there if enforcing a
decision again took back what a comparison had asked for, and the pass went on to call the
decision unchanged.  Without limits of its own a run takes nothing back.
-/
import AdaptiveMesh.Proofs.GradedRound

namespace AdaptiveMesh

namespace Forest

variable {D : Nat} {f : Forest D} {config : Config D} {final : Decisions D}
  {outcomes : List (Outcome D)} {o o' : Outcome D} {face : Face D} {k : Orientation D}

/-- Along the axes that a run compares, no neighbour is more than one level beyond an element. -/
def Stepped (f : Forest D) (config : Config D) : Prop :=
  ∀ (e : Element D) (r : Record D), f.records[e]? = some r → ∀ (face : Face D) (k : Contact D),
    r.neighborhood[face] = some k → ∀ c ∈ k.elements, ∀ d, config.Checks face d →
      (k.orientation.fromNeighbor c.levels).get d ≤ (e.segment d).level + 1

theorem Graded.stepped (h : f.Graded) (config : Config D) : f.Stepped config :=
  fun e r hr face k hk c hc d _ => (h e r hr face k hk c hc d).2

/-- The decision of a neighbour, seen through the orientation in which it is listed across a face,
suits that of the element. -/
structure Agrees (config : Config D) (face : Face D) (k : Orientation D) (o o' : Outcome D) :
    Prop where
  /-- Along the axes that are compared the neighbour will not be more than one level beyond. -/
  stepped : ∀ d, config.Checks face d →
    (o'.element.desiredLevelsThrough o'.flags k).get d ≤ (o.element.desiredLevels o.flags).get d + 1
  /-- If the element joins towards the neighbour, both will be at the same levels. -/
  together : o.element.HasPotentialSibling face → o.flags.get face.axis = .join →
    o'.element.desiredLevelsThrough o'.flags k = o.element.desiredLevels o.flags

/-- Where no neighbour was far ahead, decisions that settled agree. -/
theorem Settled.agrees (h : Settled f config final outcomes) (hf : f.Sound)
    (hall : ∀ e ∈ f, ∃ o ∈ outcomes, o.element = e) (hconfig : config.Unlimited)
    (hstepped : f.Stepped config) (ho : o ∈ outcomes) (ho' : o' ∈ outcomes)
    (hk : f.layout.touching? o.element face o'.element = some k) : Agrees config face k o o' where
  stepped d hchecks := by
    obtain ⟨r, hr⟩ := mem_iff_exists_record.1 (h.mem ho)
    obtain ⟨contact, hcontact, hc, rfl⟩ := hf.exists_contact hr (h.mem ho') hk
    have hle := hstepped _ r hr face contact hcontact _ hc d hchecks
    rw [get_fromNeighbor_levels] at hle
    rw [Element.get_desiredLevelsThrough, Element.get_desiredLevels]
    exact h.le_desired hf hall hconfig ho ho' hk hchecks hle
  together hsibling hjoin :=
    ((h.content hf hall hconfig ho ho' hk).together hsibling hjoin).symm

/-- In a run without limits of its own, over a forest in which no neighbour is far ahead, the
decisions on which a round settles agree between any two neighbours. -/
theorem Reachable.settlement_agrees (hf : Reachable f) (hconfig : config.Unlimited)
    (hstepped : f.Stepped config) {order : List (Element D)} (horder : order.Perm f.elements)
    {s : Settlement D} (hs : f.settlement config order = .ok s) :
    (∀ e, e ∈ f ↔ ∃ o ∈ s.outcomes, o.element = e) ∧
    ∀ o ∈ s.outcomes, ∀ r, f.records[o.element]? = some r → ∀ (face : Face D) (k : Contact D),
      r.neighborhood[face] = some k → ∀ o' ∈ s.outcomes, o'.element ∈ k.elements →
        Agrees config face k.orientation o o' := by
  obtain ⟨final, hsettled, hall⟩ := settled_of_settlement hs
  have hcover := hall hf.sound fun e he => horder.mem_iff.2 (mem_elements.2 he)
  refine ⟨fun e => ⟨hcover e, ?_⟩, fun o ho r hr face k hk o' ho' hc => ?_⟩
  · rintro ⟨o, ho, rfl⟩
    exact hsettled.mem ho
  · obtain ⟨-, htouch⟩ := (hf.sound.mem_contact_iff hr hk).1 hc
    exact hsettled.agrees hf.sound hcover hconfig hstepped ho ho' htouch

/-- In the mixed forest all elements but one settle on a join. -/
theorem settlement_agrees_mixedForest :
    ∃ s, mixedForest.settlement coarsest mixedForest.elements = .ok s ∧
      s.outcomes.map (fun o => o.flags.get 0)
        = [.join, .join, .doNothing, .join, .join, .join] ∧
      ∀ o ∈ s.outcomes, ∀ r, mixedForest.records[o.element]? = some r →
        ∀ (face : Face 2) (k : Contact 2), r.neighborhood[face] = some k →
          ∀ o' ∈ s.outcomes, o'.element ∈ k.elements → Agrees coarsest face k.orientation o o' := by
  have hflags : (mixedForest.settlement coarsest mixedForest.elements).toOption.map
      (fun s => s.outcomes.map fun o => o.flags.get 0)
        = some [.join, .join, .doNothing, .join, .join, .join] := by
    decide +kernel
  cases h : mixedForest.settlement coarsest mixedForest.elements with
  | error fault =>
      rw [h] at hflags
      contradiction
  | ok s =>
      rw [h] at hflags
      refine ⟨s, rfl, Option.some.inj hflags, ?_⟩
      exact (Reachable.settlement_agrees reachable_mixedForest unrestricted_coarsest.toUnlimited
        (graded_mixedForest.stepped coarsest) (.refl _) h).2

end Forest

end AdaptiveMesh
