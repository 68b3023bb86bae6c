/-
Lists as text.
-/

namespace AdaptiveMesh

/-- The entries between brackets, with commas between them. -/
def bracketed {α : Type} [ToString α] (l : List α) : String :=
  "[" ++ ", ".intercalate (l.map toString) ++ "]"

end AdaptiveMesh
