import CallGraph.Json.Literal
import CallGraph.Json.Number

/-!
# Tokens of a JSON text

The first character that is not blank decides what a token is. A scalar that cannot be right takes
the rest of the text with it.
-/

namespace CallGraph.Json

inductive Token where
  | openArr
  | closeArr
  | openObj
  | closeObj
  | comma
  | colon
  | literal (l : Literal)
  /-- A word or a number. -/
  | scalar (v : Json)
  /-- A character that starts nothing. -/
  | stray

/-- The four blanks of the grammar. -/
def isSpace (c : Char) : Bool :=
  c == ' ' || c == '\t' || c == '\n' || c == '\r'

/-- A word whose first letter has been taken; `tail` is what has to follow. -/
def scanWord (v : Json) : (tail cs : List Char) → Json × List Char
  | [], cs => (v, cs)
  | _ :: _, [] => (.flawed .word .endInValue (some .endInValue), [])
  | w :: tail, c :: cs =>
    if c = w then scanWord v tail cs else (.flawed .word .badWord (some .badWord), [])

def scanToken (c : Char) (rest : List Char) : Token × List Char :=
  let scalar (r : Json × List Char) : Token × List Char := (.scalar r.1, r.2)
  match c with
  | '[' => (.openArr, rest)
  | ']' => (.closeArr, rest)
  | '{' => (.openObj, rest)
  | '}' => (.closeObj, rest)
  | ',' => (.comma, rest)
  | ':' => (.colon, rest)
  | '"' =>
    let r := scanLiteral rest
    (.literal r.1, r.2)
  | 'n' => scalar (scanWord .null ['u', 'l', 'l'] rest)
  | 't' => scalar (scanWord (.bool true) ['r', 'u', 'e'] rest)
  | 'f' => scalar (scanWord (.bool false) ['a', 'l', 's', 'e'] rest)
  | '-' => scalar (scanNumber true rest)
  | c => if c.isDigit then scalar (scanNumber false (c :: rest)) else (.stray, [])

/-- The next token and what stands behind it. -/
def nextToken? (cs : List Char) : Option (Token × List Char) :=
  match cs.dropWhile isSpace with
  | [] => none
  | c :: rest => some (scanToken c rest)

/-! ## What is left is shorter -/

theorem length_scanWord_le (v : Json) (tail cs : List Char) :
    (scanWord v tail cs).2.length ≤ cs.length := by
  fun_induction scanWord v tail cs <;> simp_all
  omega

theorem length_scanToken_le (c : Char) (rest : List Char) :
    (scanToken c rest).2.length ≤ rest.length := by
  unfold scanToken
  dsimp only
  split
  case h_7 => exact length_scanLiteral_le rest
  case h_8 => exact length_scanWord_le _ _ rest
  case h_9 => exact length_scanWord_le _ _ rest
  case h_10 => exact length_scanWord_le _ _ rest
  case h_11 => exact length_scanNumber_le true rest
  case h_12 =>
    split
    next h => exact length_scanNumber_cons_le false h rest
    next => simp
  all_goals exact Nat.le_refl _

theorem length_lt_of_nextToken? {cs rest : List Char} {t : Token}
    (h : nextToken? cs = some (t, rest)) : rest.length < cs.length := by
  unfold nextToken? at h
  have hd : (cs.dropWhile isSpace).length ≤ cs.length := (cs.dropWhile_sublist _).length_le
  split at h
  · cases h
  next c r hr =>
    obtain rfl : (scanToken c r).2 = rest := congrArg Prod.snd (Option.some.inj h)
    have := length_scanToken_le c r
    rw [hr, List.length_cons] at hd
    omega

end CallGraph.Json
