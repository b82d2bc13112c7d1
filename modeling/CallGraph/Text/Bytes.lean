/-!
# The length of a text in bytes

Lengths in mangled names and in the input are counted in bytes of UTF-8.
-/

namespace CallGraph.Text

/-- The number of bytes of a text in UTF-8. -/
def byteLength : List Char → Nat
  | [] => 0
  | c :: rest => c.utf8Size + byteLength rest

end CallGraph.Text
