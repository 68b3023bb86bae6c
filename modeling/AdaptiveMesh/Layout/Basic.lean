/-
The coarse layout of a domain.

A domain is a row of blocks.  Each block starts with some grid points and some
uniform refinement, and each of its faces is either a boundary of the domain or
glued to a face of a block, possibly its own.  `Layout.glue` records a gluing on
both of its sides, the far one with the inverse orientation, so that neither side
has to be preferred later.
-/
import AdaptiveMesh.Fault

namespace AdaptiveMesh

/-- What lies across a glued block face. -/
structure Gluing (D : Nat) where
  /-- The block on the other side. -/
  block : Nat
  /-- How this block's axes correspond to the other block's. -/
  orientation : Orientation D
deriving DecidableEq

/-- A block before any refinement of its elements. -/
structure Block (D : Nat) where
  /-- The grid points of its first elements. -/
  extents : Vector Nat D
  /-- The refinement levels of its first elements. -/
  levels : Vector Nat D := Vector.replicate D 0
  /-- What lies across each face. -/
  gluings : FaceTable D (Option (Gluing D)) := FaceTable.ofFn fun _ => none
  /-- The first elements are no deeper than the finest grid. -/
  levels_le : ∀ d : Fin D, levels.get d ≤ maxLevel := by simp
deriving DecidableEq

namespace Block

variable {D : Nat}

/-- The glued faces, in ascending order, with what lies across them. -/
def glued (b : Block D) : List (Face D × Gluing D) :=
  (Face.all D).filterMap fun f => b.gluings[f].map (f, ·)

/-- The first elements of the block with a number, in ascending order. -/
def elements (b : Block D) (number : Nat) (h : 0 < D) : List (Element D) :=
  (choices (Vector.ofFn fun d => Segment.ofLevel (b.levels.get d) (b.levels_le d))).map
    fun segments => ⟨number, segments, h⟩

end Block

/-- The blocks of a domain; a block's number is its place in the row. -/
structure Layout (D : Nat) where
  /-- The row of blocks. -/
  blocks : List (Block D)
deriving DecidableEq

namespace Layout

variable {D : Nat}

/-- One unrefined block with no gluings for each entry. -/
def ofExtents (extents : List (Vector Nat D)) : Layout D where
  blocks := extents.map fun e => { extents := e }

/-- The block with a number. -/
def block (L : Layout D) (number : Nat) : Except (Fault D) (Block D) :=
  match L.blocks[number]? with
  | some b => .ok b
  | none => .error (.unknownBlock number)

/-- The layout with a block's first elements at other levels. -/
def withLevels (L : Layout D) (number : Nat) (levels : Vector Nat D) :
    Except (Fault D) (Layout D) :=
  match h : firstAxis? fun d : Fin D => maxLevel < levels.get d with
  | some d => .error (.setup (.initialLevelTooDeep (levels.get d) number))
  | none => do
    let b ← L.block number
    have levels_le : ∀ d : Fin D, levels.get d ≤ maxLevel := fun d => by
      have := firstAxis?_eq_none_iff.1 h d
      omega
    return { blocks := L.blocks.set number { b with levels, levels_le } }

/-! ### Gluing

The two sides of a gluing are recorded one after the other.  Where a face is glued to itself both
are entries for that face, and the second one finds the first in its way unless the two are equal.
-/

/-- The layout with one side of a gluing recorded; a face keeps the gluing it has. -/
def attach (L : Layout D) (number : Nat) (face : Face D) (g : Gluing D) :
    Except (Fault D) (Layout D) := do
  let b ← L.block number
  match b.gluings[face] with
  | none =>
    let gluings := b.gluings.set face (some g)
    return { blocks := L.blocks.set number { b with gluings } }
  | some old =>
    if old = g then return L
    else throw (.setup (.faceTaken face number old.block))

/-- The face through which a glued neighbour sees this side. -/
def backFace (o : Orientation D) (face : Face D) : Face D := (o.mapFace face).opposite

/-- The layout with a face of one block glued to another block, recorded on both sides. -/
def glue (L : Layout D) (number : Nat) (direction : Direction) (other : Nat)
    (o : Orientation D) : Except (Fault D) (Layout D) :=
  match direction.toFace? D with
  | none => .error (.setup (.directionOutOfRange direction))
  | some face => do
    let _ ← L.block other
    let near ← L.attach number face ⟨other, o⟩
    near.attach other (backFace o face) ⟨number, o.inverse⟩

/-- What is wrong with one face of a block: the block across it is missing, or does not see the
same gluing from its side. -/
def gluingFaultAt? (L : Layout D) (number : Nat) (b : Block D) (face : Face D) :
    Option (Fault D) :=
  match b.gluings[face] with
  | none => none
  | some g =>
    match L.blocks[g.block]? with
    | none => some (.unknownBlock g.block)
    | some other =>
      if other.gluings[backFace g.orientation face] = some ⟨number, g.orientation.inverse⟩ then none
      else some (.setup (.gluingOneSided face number))

/-- The first face whose gluing is not recorded the same way on both sides. -/
def gluingFault? (L : Layout D) : Option (Fault D) :=
  L.blocks.zipIdx.findSome? fun (b, number) =>
    (Face.all D).findSome? (L.gluingFaultAt? number b)

/-- Succeeds if every gluing is recorded the same way on both sides. -/
def validate (L : Layout D) : Except (Fault D) Unit :=
  match L.gluingFault? with
  | some fault => .error fault
  | none => .ok ()

/-! ### First elements -/

/-- The grid points of the first elements of a block. -/
def extents (L : Layout D) (number : Nat) : Except (Fault D) (Vector Nat D) := do
  return (← L.block number).extents

/-- The first elements of all blocks, in ascending order. -/
def elements (L : Layout D) : Except (Fault D) (List (Element D)) :=
  if h : 0 < D then .ok (L.blocks.zipIdx.flatMap fun (b, number) => b.elements number h)
  else if L.blocks.isEmpty then .ok []
  else .error (.invalidElement .noAxes)

/-- The first mesh of a block's elements, as seen through an orientation. -/
def mesh (L : Layout D) (number : Nat) (basis : Basis) (quadrature : Quadrature)
    (o : Orientation D) : Except (Fault D) (Mesh D) := do
  let m ← (Mesh.uniform (← L.extents number) basis quadrature).mapError Fault.ofMesh
  return m.oriented o

end Layout

end AdaptiveMesh
