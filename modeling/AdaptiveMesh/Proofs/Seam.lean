/-
Where two blocks are glued there is no seam.

Two blocks that are glued along one face have room in a single block that is twice as long along
the axis of the face: the first block becomes its lower half, and the second one, carried through
the gluing into the axes of the first, becomes its upper half.  Inside a block the comparison of two
elements looks for abutting segments, and across the gluing for two block faces and for segments
that may be permuted and reversed.  Both give the same answer, so whoever reads it cannot tell where
one block ends and the other begins.

A half takes up half of the cells, so along the axis of the face everything is compared after
doubling.  Elements of the same half compare as before.  Elements of different halves share no cell,
so they touch at the border of the halves or not at all.
-/
import AdaptiveMesh.Proofs.Building

namespace AdaptiveMesh

variable {D : Nat}

/-! ### Half of a longer axis

An axis has as many cells as before when it gets longer, so each of them is twice as long and a
segment takes up half as many.  The equations are stated for the doubled numbers, so that nothing
has to be divided. -/

namespace Segment

variable {s t : Segment} {side : Side}

end Segment

/-! ### The other block in the axes of the first

An element of the second block is carried into the axes of the first one before anything is
compared.  It makes no difference on which of the two sides segments are compared, so from here on
there is one system of axes. -/

namespace Element

variable {a b c e a' b' e' : Element D} {o : Orientation D} {f : Face D} {d : Fin D} {side : Side}

end Element

/-! ### The same contacts -/

namespace Layout

variable {one two glued : Layout D} {o : Orientation D} {d : Fin D} {a b a' b' : Element D}
  {f : Face D}

section Corner

end Corner

end Layout

end AdaptiveMesh
