/-!
# Blank characters

The characters that count as blank around a type spelling, and trimming by them. The class is the
`White_Space` property of Unicode, so it holds the no-break and ideographic spaces and leaves out
the zero-width ones.
-/

namespace CallGraph.Text

/-- The property `White_Space`. -/
def isBlank (c : Char) : Bool :=
  let n := c.toNat
  (0x09 ≤ n && n ≤ 0x0D) || n == 0x20 || n == 0x85 || n == 0xA0 || n == 0x1680 ||
    (0x2000 ≤ n && n ≤ 0x200A) || n == 0x2028 || n == 0x2029 || n == 0x202F ||
    n == 0x205F || n == 0x3000

/-- The text without the blanks at its two ends. -/
def trim (cs : List Char) : List Char :=
  ((cs.dropWhile isBlank).reverse.dropWhile isBlank).reverse

theorem length_trim_le (cs : List Char) : (trim cs).length ≤ cs.length := by
  have h₁ := (cs.dropWhile_sublist isBlank).length_le
  have h₂ := ((cs.dropWhile isBlank).reverse.dropWhile_sublist isBlank).length_le
  simp only [trim, List.length_reverse] at h₂ ⊢
  omega

end CallGraph.Text
