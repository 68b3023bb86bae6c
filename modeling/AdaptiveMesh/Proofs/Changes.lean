/-
What an exchange reports.

Only the elements beside those that go see something new across their faces, and an exchange
reports for each of them what it saw before and what it sees now.  Both are what a search
among all elements would find: the search among all old elements, and the one among all new
ones.  So the report of an exchange can be told from the two forests alone, and it does not
matter from which side one looks at them.
-/
import AdaptiveMesh.Proofs.Exchange

namespace AdaptiveMesh

variable {D : Nat}

/-- The change from the other side: what was there before is there now. -/
def Change.reversed (c : Change D) : Change D :=
  { c with previous := c.current, current := c.previous }

/-- Two neighbourhoods differ across the same faces, whichever of them came first. -/
theorem Neighborhood.changes_comm (previous current : Neighborhood D) (e : Element D) :
    current.changes previous e = (previous.changes current e).map Change.reversed := by
  unfold changes
  rw [List.map_filterMap]
  refine congrArg (List.filterMap · (Face.all D)) (funext fun face => ?_)
  by_cases h : previous[face] = current[face]
  · rw [if_pos h, if_pos h.symm]
    rfl
  · rw [if_neg h, if_neg (Ne.symm h)]
    rfl

namespace Forest

variable {f g : Forest D} {e c : Element D} {m : Mesh D} {removed added : List (Element D)}
  {edit : Edit D}

/-- What a search among all elements finds around a place. -/
def around (f : Forest D) (e : Element D) : Neighborhood D :=
  f.layout.neighborhoodAmong e f.elements

/-- What some elements see change from one forest to another. -/
def changesBetween (f g : Forest D) (l : List (Element D)) : List (Change D) :=
  l.flatMap fun c => (f.around c).changes (g.around c) c

theorem changesBetween_comm (f g : Forest D) (l : List (Element D)) :
    g.changesBetween f l = (f.changesBetween g l).map Change.reversed := by
  unfold changesBetween
  rw [List.map_flatMap]
  exact congrArg (List.flatMap · l) (funext fun c => Neighborhood.changes_comm _ _ c)

/-- An exchange reports what the elements beside those that go see change, in ascending order. -/
theorem Exchange.changes_eq (hf : f.Sound) (hx : Exchange f removed added)
    (h : f.replace removed added m = .ok edit) (hg : Exchanged f removed added m edit.forest) :
    ∃ b, Ascending b ∧ (∀ c, c ∈ b ↔ f.Beside removed c) ∧
      edit.changes = f.changesBetween edit.forest b := by
  obtain ⟨b, hb, hmem⟩ := hx.exists_beside hf
  obtain ⟨b', hb', h⟩ := bind_eq_ok.1 h
  obtain rfl : b = b' := by rwa [hb, Except.ok.injEq] at hb'
  obtain ⟨new, -, h⟩ := bind_eq_ok.1 h
  obtain ⟨refreshed, hrefreshed, h⟩ := bind_eq_ok.1 h
  have hchanges : edit.changes = refreshed.flatMap fun q =>
      q.record.neighborhood.changes q.neighborhood q.element := by
    rw [← pure_eq_ok.1 h]
  refine ⟨b.toList, Std.ExtTreeSet.ordered_toList, fun c => ?_, ?_⟩
  · rw [Std.ExtTreeSet.mem_toList, hmem]
  · rw [hchanges]
    refine flatMap_of_mapM hrefreshed fun c hc q hq => ?_
    obtain ⟨hcf, -⟩ := (hmem c).1 (Std.ExtTreeSet.mem_toList.1 hc)
    obtain ⟨r, hr⟩ := mem_iff_exists_record.1 hcf
    have hnow : (f.renewed removed added c r).neighborhood = edit.forest.around c := by
      unfold around
      rw [hg.layout_eq]
      exact neighborhoodAmong_beside hf (fun c => mem_elements.trans hg.mem_iff) hr
    rw [refresh_eq_ok hf hr, Except.ok.injEq] at hq
    rw [← hq, hnow, hf.neighborhood_eq c r hr]
    rfl

end Forest

end AdaptiveMesh
