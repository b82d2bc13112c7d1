import CallGraph.Json.Basic
import CallGraph.Text.Bytes

/-!
# String literals of a JSON text

What stands after the opening quotation mark, read up to the closing one. Reading wants characters,
so the two halves of a character beyond the basic plane have to follow each other; skipping only
wants to find the closing quotation mark past well-formed escapes.
-/

namespace CallGraph.Json

def hexDigit? (c : Char) : Option Nat :=
  if c.isDigit then some (c.toNat - '0'.toNat)
  else if 'a' ≤ c ∧ c ≤ 'f' then some (c.toNat - 'a'.toNat + 10)
  else if 'A' ≤ c ∧ c ≤ 'F' then some (c.toNat - 'A'.toNat + 10)
  else none

/-- The unit of text that four hexadecimal digits name. -/
def unit16? (a b c d : Char) : Option Nat :=
  match hexDigit? a, hexDigit? b, hexDigit? c, hexDigit? d with
  | some a, some b, some c, some d => some (((a * 16 + b) * 16 + c) * 16 + d)
  | _, _, _, _ => none

def isHighHalf (n : Nat) : Bool :=
  0xD800 ≤ n && n ≤ 0xDBFF

def isLowHalf (n : Nat) : Bool :=
  0xDC00 ≤ n && n ≤ 0xDFFF

/-- The character that two halves make. -/
def joinHalves (high low : Nat) : Char :=
  Char.ofNat ((high - 0xD800) * 0x400 + (low - 0xDC00) + 0x10000)

/-- The escapes of one letter. -/
def escaped? : Char → Option Char
  | '"' => some '"'
  | '\\' => some '\\'
  | '/' => some '/'
  | 'b' => some '\x08'
  | 'f' => some '\x0c'
  | 'n' => some '\n'
  | 'r' => some '\r'
  | 't' => some '\t'
  | _ => none

/-- The fault of an escape `\u` after which fewer than four characters are left: the text has ended
if there are not even four bytes of it. -/
def cutUnit (rest : List Char) : Fault :=
  if Text.byteLength rest < 4 then .endInString else .badEscape

/-- The fault of a first half that no second half follows. -/
def cutPair : List Char → Fault
  | [] => .endInString
  | ['\\'] => .endInString
  | '\\' :: 'u' :: rest => cutUnit rest
  | _ => .halfEscape

/-- Read up to the closing quotation mark; `before` holds the characters read, newest first. -/
def readLiteral (before : List Char) : List Char → Except Fault (List Char × List Char)
  | [] => .error .endInString
  | '"' :: rest => .ok (before.reverse, rest)
  | ['\\'] => .error .endInString
  | '\\' :: 'u' :: a :: b :: c :: d :: rest =>
    match unit16? a b c d with
    | none => .error .badEscape
    | some n =>
      if isLowHalf n then .error .loneHalf
      else if isHighHalf n then
        match rest with
        | '\\' :: 'u' :: e :: f :: g :: h :: rest' =>
          match unit16? e f g h with
          | none => .error .badEscape
          | some m =>
            if isLowHalf m then readLiteral (joinHalves n m :: before) rest'
            else .error .loneHalf
        | rest => .error (cutPair rest)
      else readLiteral (Char.ofNat n :: before) rest
  | '\\' :: 'u' :: rest => .error (cutUnit rest)
  | '\\' :: e :: rest =>
    match escaped? e with
    | some c => readLiteral (c :: before) rest
    | none => .error .badEscape
  | c :: rest =>
    if c.toNat < 0x20 then .error .controlCharacter
    else readLiteral (c :: before) rest

/-- What stands behind the closing quotation mark. -/
def skipLiteral : List Char → Except Fault (List Char)
  | [] => .error .endInString
  | '"' :: rest => .ok rest
  | ['\\'] => .error .endInString
  | '\\' :: 'u' :: a :: b :: c :: d :: rest =>
    if (unit16? a b c d).isSome then skipLiteral rest else .error .badEscape
  | '\\' :: 'u' :: rest => .error (cutUnit rest)
  | '\\' :: e :: rest =>
    if (escaped? e).isSome then skipLiteral rest else .error .badEscape
  | c :: rest =>
    if c.toNat < 0x20 then .error .controlCharacter else skipLiteral rest

/-- A literal as both ways of going through it see it. -/
inductive Literal where
  | whole (s : String)
  /-- It has an end, and cannot be read. -/
  | unpaired (f : Fault)
  | broken (reading skipping : Fault)

def scanLiteral (cs : List Char) : Literal × List Char :=
  match readLiteral [] cs with
  | .ok (s, rest) => (.whole (String.ofList s), rest)
  | .error f =>
    match skipLiteral cs with
    | .ok rest => (.unpaired f, rest)
    | .error g => (.broken f g, [])

def Literal.value : Literal → Json
  | .whole s => .str s
  | .unpaired f => .flawed .string f none
  | .broken f g => .flawed .string f (some g)

/-! ## What is left is no longer -/

theorem length_le_of_readLiteral {before cs s rest : List Char}
    (h : readLiteral before cs = .ok (s, rest)) : rest.length ≤ cs.length := by
  fun_induction readLiteral before cs <;> simp_all <;> omega

theorem length_le_of_skipLiteral {cs rest : List Char} (h : skipLiteral cs = .ok rest) :
    rest.length ≤ cs.length := by
  fun_induction skipLiteral cs <;> simp_all <;> omega

theorem length_scanLiteral_le (cs : List Char) : (scanLiteral cs).2.length ≤ cs.length := by
  unfold scanLiteral
  split
  next h => exact length_le_of_readLiteral h
  next =>
    split
    next h => exact length_le_of_skipLiteral h
    next => simp

end CallGraph.Json
