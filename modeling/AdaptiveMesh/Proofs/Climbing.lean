/-
Decisions only climb.

Balancing raises flags and enforcing a decision again may lower them, so a flag can come
back down: a split that the limits do not allow is closed in favour of staying.  What
does not happen is that a flag returns to where it was.  A flag that is neither a split
nor settled on staying leaves that state for good, and one that stays can only become a
split.  `Flag.rung` counts how far a flag has come, and a decision that changes at all
gains height.

If all axes must agree the argument is about the strongest of them.  An enforced
decision is the same along all axes, some axis of it was raised, and no axis that was
not raised is stronger than that one.

Rebalancing an enforced decision is just that, so it never coarsens one, however often it is
done and whatever neighbours publish in between.
-/
import Mathlib.Algebra.BigOperators.Fin
import Mathlib.Algebra.Order.BigOperators.Group.Finset
import Mathlib.Logic.Relation
import AdaptiveMesh.Proofs.Reachable

namespace AdaptiveMesh

variable {D : Nat}

/-! ### Flags

Rungs are not ranks.  A flag that was raised and then closed in favour of staying may be ranked
below the one that it came from, and yet it has left that one for good. -/

namespace Flag

variable {a b c : Flag}

/-- The second flag is the first one, or it stays or splits and the first one did not split. -/
def Climbs (a b : Flag) : Prop := b = a ∨ a ≠ .split ∧ (b = .doNothing ∨ b = .split)

/-- The number of times that a flag may have climbed. -/
def rung : Flag → Nat
  | .split => 2
  | .doNothing => 1
  | _ => 0

theorem rung_le (f : Flag) : f.rung ≤ 2 := by
  cases f <;> decide

theorem Climbs.rung_lt (h : a.Climbs b) (hne : b ≠ a) : a.rung < b.rung := by
  rcases h with heq | ⟨ha, rfl | rfl⟩
  · exact absurd heq hne
  · cases a <;> simp_all [rung]
  · cases a <;> simp_all [rung]

theorem Climbs.rung_le (h : a.Climbs b) : a.rung ≤ b.rung := by
  by_cases heq : b = a
  · rw [heq]
  · exact Nat.le_of_lt (h.rung_lt heq)

theorem RaisedTo.climbs (h : a.RaisedTo b) : a.Climbs b := by
  rcases h with heq | ⟨rfl, rfl⟩ | ⟨ha, rfl⟩
  · exact Or.inl heq
  · exact Or.inr ⟨by simp, Or.inl rfl⟩
  · exact Or.inr ⟨ha, Or.inr rfl⟩

theorem Climbs.trans (h : a.Climbs b) (h' : b.Climbs c) : a.Climbs c := by
  rcases h with rfl | ⟨ha, hb⟩
  · exact h'
  · rcases h' with rfl | ⟨-, hc⟩
    · exact Or.inr ⟨ha, hb⟩
    · exact Or.inr ⟨ha, hc⟩

/-- A flag that climbs leads no lower than before. -/
theorem Climbs.levelFrom_le {l : Nat} (h : a.Climbs b) : a.levelFrom l ≤ b.levelFrom l := by
  rcases h with rfl | ⟨ha, rfl | rfl⟩
  · exact Nat.le_refl _
  · exact levelFrom_le_of_ne_split ha
  · exact Nat.le_succ_of_le (levelFrom_le_of_ne_split ha)

/-- Closing a flag that was raised is climbing, unless the flag splits. -/
theorem RaisedTo.climbs_doNothing (h : a.RaisedTo b) (hb : a = .split → b ≠ .split) :
    a.Climbs .doNothing := by
  refine Or.inr ⟨fun ha => ?_, Or.inl rfl⟩
  rcases h with heq | ⟨hj, -⟩ | ⟨hs, -⟩
  · exact hb ha (heq.trans ha)
  · rw [ha] at hj
    contradiction
  · exact hs ha

end Flag

/-! ### Enforcing again -/

namespace Policies

variable {p : Policies D} {r : Rules} {e : Element D} {m : Mesh D} {a b c : Decision D}

theorem climbs_of_anisotropic (hp : p.isotropy = .anisotropic)
    (ha : ∀ d, p.limits.crossing? e m d (a.get d) = none) (hraised : a.RaisedTo b)
    (h : p.enforce r e m b = .ok c) (d : Fin D) : (a.get d).Climbs (c.get d) := by
  rcases get_enforce_eq hp h d with heq | heq
  · exact heq ▸ (hraised d).climbs
  · rw [heq]
    refine (hraised d).climbs_doNothing fun hsplit hb => ?_
    -- a split that the limits allowed before is allowed again
    have hkept := get_enforce_of_crossing?_eq_none hp h hb (hsplit ▸ ha d)
    rw [hkept] at heq
    contradiction

/-- If all axes must agree, a raised decision ends up splitting or staying along all of them. -/
theorem get_strongest_of_raisedTo {f : Flag} (hraised : (Decision.uniform f).RaisedTo b)
    (hne : b ≠ Decision.uniform f) :
    f ≠ .split ∧ (b.resolve.strongest = .doNothing ∨ b.resolve.strongest = .split) := by
  have hraised : ∀ d, f.RaisedTo (b.get d) := fun d => by
    have hd := hraised d
    rwa [Decision.get_uniform] at hd
  obtain ⟨d, hd⟩ : ∃ d, b.get d ≠ f := by
    by_contra hno
    refine hne (ext_get fun d => ?_)
    rw [Decision.get_uniform]
    exact Classical.byContradiction fun h => hno ⟨d, h⟩
  obtain ⟨c, hc, hrank⟩ := b.resolve.exists_get_eq_strongest d
  rw [Decision.resolve, get_ofFn, get_ofFn] at hrank
  rw [hc, Decision.resolve, get_ofFn]
  rcases (hraised d).resolve_left hd with ⟨rfl, hstay⟩ | ⟨hs, hsplit⟩
  · rw [hstay] at hrank
    rcases hraised c with hsame | ⟨-, hc⟩ | ⟨-, hc⟩
    · rw [hsame] at hrank
      exact absurd hrank (by decide)
    · exact ⟨by simp, Or.inl (by rw [hc]; rfl)⟩
    · exact ⟨by simp, Or.inr (by rw [hc]; rfl)⟩
  · rw [hsplit] at hrank
    rcases hraised c with hsame | ⟨-, hc⟩ | ⟨-, hc⟩
    · rw [hsame] at hrank
      cases f <;> contradiction
    · rw [hc] at hrank
      exact absurd hrank (by decide)
    · exact ⟨hs, Or.inr (by rw [hc]; rfl)⟩

theorem climbs_of_isotropic {f : Flag} (hp : p.isotropy = .isotropic)
    (hraised : (Decision.uniform f).RaisedTo b) (hne : b ≠ Decision.uniform f)
    (h : p.enforce r e m b = .ok c) (d : Fin D) :
    ((Decision.uniform f : Decision D).get d).Climbs (c.get d) := by
  obtain ⟨hf, hstrongest⟩ := get_strongest_of_raisedTo hraised hne
  rw [Decision.get_uniform]
  refine Or.inr ⟨hf, ?_⟩
  rcases enforce_eq_uniform hp h with rfl | rfl
  · rw [Decision.get_uniform]
    exact hstrongest
  · rw [Decision.get_uniform]
    exact Or.inl rfl

end Policies

/-! ### Decisions -/

namespace Decision

variable {a b c : Decision D}

/-- The second decision is the first one, or along some axes it climbed. -/
def Climbs (a b : Decision D) : Prop := ∀ d, (a.get d).Climbs (b.get d)

theorem Climbs.refl (a : Decision D) : a.Climbs a := fun _ => Or.inl rfl

theorem Climbs.trans (h : a.Climbs b) (h' : b.Climbs c) : a.Climbs c :=
  fun d => (h d).trans (h' d)

/-- A decision that climbs leads no lower than before. -/
theorem Climbs.desiredLevels_le (h : a.Climbs b) (e : Element D) (d : Fin D) :
    (e.desiredLevels a).get d ≤ (e.desiredLevels b).get d := by
  rw [Element.get_desiredLevels, Element.get_desiredLevels]
  exact (h d).levelFrom_le

theorem Climbs.get_eq_split (h : a.Climbs b) {d : Fin D} (hd : a.get d = .split) :
    b.get d = .split :=
  (h d).elim (fun heq => heq.trans hd) fun hne => absurd hd hne.1

theorem RaisedTo.climbs (h : a.RaisedTo b) : a.Climbs b := fun d => (h d).climbs

/-- The number of times that the flags of a decision may have climbed. -/
def height (flags : Decision D) : Nat := ∑ d : Fin D, (flags.get d).rung

theorem height_le (flags : Decision D) : flags.height ≤ 2 * D := by
  calc flags.height ≤ ∑ _d : Fin D, 2 := Finset.sum_le_sum fun d _ => (flags.get d).rung_le
    _ = 2 * D := by rw [Finset.sum_const, Finset.card_univ, Fintype.card_fin, smul_eq_mul,
        Nat.mul_comm]

theorem Climbs.height_le (h : a.Climbs b) : a.height ≤ b.height :=
  Finset.sum_le_sum fun d _ => (h d).rung_le

theorem Climbs.height_lt (h : a.Climbs b) (hne : b ≠ a) : a.height < b.height := by
  obtain ⟨d, hd⟩ : ∃ d, b.get d ≠ a.get d := by
    by_contra hno
    exact hne (ext_get fun d => Classical.byContradiction fun hd => hno ⟨d, hd⟩)
  exact Finset.sum_lt_sum (fun d _ => (h d).rung_le) ⟨d, Finset.mem_univ d, (h d).rung_lt hd⟩

end Decision

/-- Balancing an enforced decision and enforcing it again lets it climb. -/
theorem Settles.climbs {config : Config D} {s : Site D} {m : Mesh D} {flags flags' : Decision D}
    {feed : Feed D} (h : Settles config s m flags feed flags')
    (he : config.enforce s.element m flags = .ok flags) : flags.Climbs flags' := by
  have hjoin : flags.CanJoin s.element := fun d hd => Policies.level_pos_of_enforce he hd
  cases h with
  | unbalanced => exact .refl flags
  | unchanged _ balanced same =>
      exact (Site.balance_from balanced hjoin).raised.climbs
  | enforced _ balanced changed again =>
      have hfrom := Site.balance_from balanced hjoin
      intro d
      cases hp : config.policies.isotropy with
      | anisotropic =>
          exact Policies.climbs_of_anisotropic hp (Policies.crossing?_eq_none_of_enforce he)
            hfrom.raised again d
      | isotropic =>
          obtain ⟨flag, rfl⟩ := Policies.exists_uniform_of_enforce hp he
          exact Policies.climbs_of_isotropic hp hfrom.raised (hfrom.changed.1 changed) again d

namespace Forest

variable {f : Forest D} {config : Config D} {e : Element D} {r : Record D}
  {flags flags' : Decision D} {feed : Feed D}

theorem Enforced.exists_uniform (h : f.Enforced config e flags)
    (hp : config.policies.isotropy = .isotropic) : ∃ flag, flags = .uniform flag := by
  obtain ⟨r, given, -, h⟩ := h
  exact Policies.exists_uniform_of_enforce hp h

/-- Balancing an enforced decision of the forest and enforcing it again lets it climb. -/
theorem Enforced.climbs (h : f.Enforced config e flags) (hr : f.records[e]? = some r)
    (hs : Settles config (r.site e) r.mesh flags feed flags') : flags.Climbs flags' :=
  hs.climbs (h.enforce_eq_self hr)

end Forest

/-! ### Rebalancing -/

namespace Config

variable {config : Config D} {s : Site D} {m : Mesh D} {flags flags' : Decision D} {feed : Feed D}
  {o : Outcome D}

/-- What comes of rebalancing an enforced decision is enforced, and it has climbed. -/
theorem climbs_of_rebalance (he : config.enforce s.element m flags = .ok flags)
    (h : config.rebalance s m flags feed = .ok (.completed o)) :
    config.enforce s.element m o.flags = .ok o.flags ∧ flags.Climbs o.flags := by
  obtain ⟨final, hsettles, happly⟩ := rebalance_eq_completed h
  obtain ⟨-, rfl, -⟩ := Decision.apply_eq_ok happly
  exact ⟨hsettles.enforce_eq_self he, hsettles.climbs he⟩

/-- Rebalancing the one decision against what neighbours may publish completes with the other. -/
def Rebalances (config : Config D) (s : Site D) (m : Mesh D) (flags flags' : Decision D) : Prop :=
  ∃ feed o, config.rebalance s m flags feed = .ok (.completed o) ∧ o.flags = flags'

/-- However often an enforced decision is rebalanced it climbs, whatever is published in between. -/
theorem climbs_of_rebalances (he : config.enforce s.element m flags = .ok flags)
    (h : Relation.ReflTransGen (config.Rebalances s m) flags flags') :
    config.enforce s.element m flags' = .ok flags' ∧ flags.Climbs flags' := by
  induction h with
  | refl => exact ⟨he, .refl flags⟩
  | tail _ hstep ih =>
      obtain ⟨feed, o, h, rfl⟩ := hstep
      obtain ⟨hnext, hclimbs⟩ := climbs_of_rebalance ih.1 h
      exact ⟨hnext, ih.2.trans hclimbs⟩

/-- Rebalancing never coarsens an enforced decision, whatever neighbours the element has and
whatever they publish: along no axis does it lead lower than before, splits stay, and a flag that
changes becomes staying or a split. -/
theorem rebalance_never_coarsens (he : config.enforce s.element m flags = .ok flags)
    (h : config.rebalance s m flags feed = .ok (.completed o)) (d : Fin D) :
    (s.element.desiredLevels flags).get d ≤ (s.element.desiredLevels o.flags).get d ∧
      (flags.get d = .split → o.flags.get d = .split) ∧
      (o.flags.get d = flags.get d ∨ o.flags.get d = .doNothing ∨ o.flags.get d = .split) := by
  obtain ⟨-, hclimbs⟩ := climbs_of_rebalance he h
  exact ⟨hclimbs.desiredLevels_le s.element d, hclimbs.get_eq_split,
    (hclimbs d).imp_right And.right⟩

end Config

section Ring

open Forest

/-- The record of the element of the split ring that was not cut. -/
def bigRecord : Record 2 :=
  (splitRing.record (square (1, 1) (0, 0))).toOption.get (by decide +kernel)

/-- The site of that element. -/
def bigSite : Site 2 := bigRecord.site (square (1, 1) (0, 0))

/-- Neighbours that are to be cut once more along the second axis. -/
def finerFeed : Feed 2 := fun _ => some #v[.doNothing, .split]

/-- Beside neighbours that will be two levels finer, the element that was not cut gives up its join
along the first axis and is cut along the second one. -/
theorem rebalance_never_coarsens_splitRing :
    ∃ o, turning.rebalance bigSite bigRecord.mesh #v[.join, .doNothing] finerFeed =
        .ok (.completed o) ∧ o.flags = #v[.doNothing, .split] ∧
      ∀ d, (bigSite.element.desiredLevels #v[.join, .doNothing]).get d ≤
        (bigSite.element.desiredLevels o.flags).get d := by
  have he : turning.enforce bigSite.element bigRecord.mesh #v[.join, .doNothing] =
      .ok #v[.join, .doNothing] := by
    decide +kernel
  have hflags : (match turning.rebalance bigSite bigRecord.mesh #v[.join, .doNothing] finerFeed with
      | .ok (.completed o) => some o.flags
      | _ => none) = some #v[.doNothing, .split] := by
    decide +kernel
  split at hflags
  · next o h =>
    exact ⟨o, h, Option.some.inj hflags, fun d => (Config.rebalance_never_coarsens he h d).1⟩
  · contradiction

end Ring

end AdaptiveMesh
