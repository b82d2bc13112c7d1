/-!
# Pieces of a qualified name

A qualified name is a row of pieces with `::` between them. Splitting goes from left to right, so
of three colons the first two are the separator and the third opens the next piece.
-/

namespace CallGraph.Text

/-- The pieces between the separators, empty ones included; there is always at least one. -/
def pieces : List Char → List (List Char)
  | [] => [[]]
  | ':' :: ':' :: rest => [] :: pieces rest
  | c :: rest =>
    match pieces rest with
    | [] => [[c]]
    | p :: ps => (c :: p) :: ps

theorem pieces_ne_nil (cs : List Char) : pieces cs ≠ [] := by
  fun_cases pieces cs <;> simp

end CallGraph.Text
