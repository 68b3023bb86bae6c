/-
Sides, directions and faces.

A block and an element have two faces per axis.  A `Direction` names a face by an
axis number that nobody has checked yet, which is how callers name one; `Face D`
names one that exists in dimension `D`.

A `FaceTable` holds one entry for every face.  What lies across a face is then a
total function that can be stored, compared and changed one face at a time.
-/
import AdaptiveMesh.Geometry.Axis

namespace AdaptiveMesh

/-- The lower or the upper end of an axis. -/
inductive Side where
  | lower
  | upper
deriving DecidableEq, Repr

namespace Side

/-- The other end of the axis. -/
def opposite : Side → Side
  | lower => upper
  | upper => lower

@[simp] theorem opposite_opposite (s : Side) : s.opposite.opposite = s := by
  cases s <;> rfl

/-- The sign that marks the side in a direction's name. -/
def sign : Side → String
  | lower => "-"
  | upper => "+"

end Side

/-- A face named by an axis number that may not exist. -/
structure Direction where
  /-- The number of the axis, counted from zero. -/
  axis : Nat
  /-- The end of that axis. -/
  side : Side
deriving DecidableEq, Repr

instance : ToString Direction where
  toString d := d.side.sign ++ toString d.axis

/-- A face of a block or element in dimension `D`. -/
structure Face (D : Nat) where
  /-- The axis normal to the face. -/
  axis : Fin D
  /-- The end of that axis on which the face lies. -/
  side : Side
deriving DecidableEq, Repr

namespace Face

variable {D : Nat}

/-- The face at the other end of the same axis. -/
def opposite (f : Face D) : Face D := { f with side := f.side.opposite }

@[simp] theorem opposite_axis (f : Face D) : f.opposite.axis = f.axis := rfl

@[simp] theorem opposite_opposite (f : Face D) : f.opposite.opposite = f := by
  simp [opposite]

/-- The face as a direction, with nothing left to check. -/
def toDirection (f : Face D) : Direction := ⟨f.axis, f.side⟩

instance : ToString (Face D) where
  toString f := toString f.toDirection

/-- Every face, axis by axis, the lower one first. -/
def all (D : Nat) : List (Face D) :=
  (List.finRange D).flatMap fun a => [⟨a, .lower⟩, ⟨a, .upper⟩]

@[simp] theorem mem_all (f : Face D) : f ∈ all D := by
  obtain ⟨a, s⟩ := f
  cases s <;> simp [all, List.mem_flatMap]

end Face

/-- The face that a direction names in dimension `D`, if the axis exists. -/
def Direction.toFace? (d : Direction) (D : Nat) : Option (Face D) :=
  if h : d.axis < D then some ⟨⟨d.axis, h⟩, d.side⟩ else none

@[simp] theorem Face.toFace?_toDirection {D : Nat} (f : Face D) :
    f.toDirection.toFace? D = some f :=
  dif_pos f.axis.isLt

/-- One entry for every face. -/
structure FaceTable (D : Nat) (α : Type) where
  /-- The entries of the lower faces, by axis. -/
  lower : Vector α D
  /-- The entries of the upper faces, by axis. -/
  upper : Vector α D
deriving DecidableEq

namespace FaceTable

variable {D : Nat} {α : Type}

/-- The entry of a face. -/
def get (t : FaceTable D α) (f : Face D) : α :=
  match f.side with
  | .lower => t.lower.get f.axis
  | .upper => t.upper.get f.axis

instance : GetElem (FaceTable D α) (Face D) α (fun _ _ => True) where
  getElem t f _ := t.get f

/-- The table of the values of `g`. -/
def ofFn (g : Face D → α) : FaceTable D α where
  lower := Vector.ofFn fun a => g ⟨a, .lower⟩
  upper := Vector.ofFn fun a => g ⟨a, .upper⟩

/-- The table with the entry of one face replaced. -/
def set (t : FaceTable D α) (f : Face D) (x : α) : FaceTable D α :=
  match f.side with
  | .lower => { t with lower := setAxis t.lower f.axis x }
  | .upper => { t with upper := setAxis t.upper f.axis x }

theorem getElem_eq_get (t : FaceTable D α) (f : Face D) : t[f] = t.get f := rfl

@[simp] theorem getElem_ofFn (g : Face D → α) (f : Face D) : (ofFn g)[f] = g f := by
  obtain ⟨a, s⟩ := f
  cases s <;> simp [getElem_eq_get, get, ofFn]

theorem getElem_set (t : FaceTable D α) (f g : Face D) (x : α) :
    (t.set f x)[g] = if f = g then x else t[g] := by
  obtain ⟨a, s⟩ := f
  obtain ⟨b, u⟩ := g
  cases s <;> cases u <;>
    simp [getElem_eq_get, get, set, get_setAxis]

/-- A table is the function from faces to entries that it stores. -/
theorem ext_getElem {t u : FaceTable D α} (h : ∀ f : Face D, t[f] = u[f]) : t = u := by
  obtain ⟨tl, tu⟩ := t
  obtain ⟨ul, uu⟩ := u
  congr 1
  · exact ext_get fun a => h ⟨a, .lower⟩
  · exact ext_get fun a => h ⟨a, .upper⟩

theorem set_eq_self {t : FaceTable D α} {f : Face D} {x : α} (h : t[f] = x) : t.set f x = t := by
  refine ext_getElem fun g => ?_
  rw [getElem_set]
  by_cases hg : f = g
  · rw [if_pos hg, ← hg, h]
  · rw [if_neg hg]

/-- Two entries can be replaced in either order, unless they are different ones of the same face. -/
theorem set_comm (t : FaceTable D α) {f g : Face D} {x y : α} (h : f = g → x = y) :
    (t.set f x).set g y = (t.set g y).set f x := by
  refine ext_getElem fun k => ?_
  rw [getElem_set, getElem_set, getElem_set, getElem_set]
  by_cases hf : f = k
  · by_cases hg : g = k
    · rw [if_pos hg, if_pos hf, h (hf.trans hg.symm)]
    · rw [if_neg hg, if_pos hf, if_pos hf]
  · rw [if_neg hf, if_neg hf]

end FaceTable

end AdaptiveMesh
