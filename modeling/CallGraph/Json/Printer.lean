import CallGraph.Decimal.Shortest
import CallGraph.Json.Basic

/-!
# Writing JSON text

Two layouts of one value: on a single line without blanks, and with every entry on a line of its own.
Where a value has no text, because it stands for a fault, nothing is written.
-/

namespace CallGraph.Json

def Number.chars : Number → List Char
  | .natural n => (toString n).toList
  | .negative n => '-' :: (toString n).toList
  | .double bits => (Decimal.textOfDouble bits).toList

/-- A hexadecimal digit. -/
def hexChar (n : Nat) : Char :=
  Nat.digitChar n

/-- A character of a string literal. Control characters are escaped, and so is what would end the
literal or start an escape. -/
def literalChar (c : Char) : List Char :=
  match c with
  | '"' => ['\\', '"']
  | '\\' => ['\\', '\\']
  | '\x08' => ['\\', 'b']
  | '\x0c' => ['\\', 'f']
  | '\n' => ['\\', 'n']
  | '\r' => ['\\', 'r']
  | '\t' => ['\\', 't']
  | c =>
    if c.toNat < 0x20 then
      ['\\', 'u', '0', '0', hexChar (c.toNat / 16), hexChar (c.toNat % 16)]
    else [c]

def literal (s : String) : List Char :=
  '"' :: s.toList.flatMap literalChar ++ ['"']

/-! ## On one line -/

mutual

def chars : Json → List Char
  | .null => ['n', 'u', 'l', 'l']
  | .bool true => ['t', 'r', 'u', 'e']
  | .bool false => ['f', 'a', 'l', 's', 'e']
  | .num n => n.chars
  | .str s => literal s
  | .arr items => '[' :: items.chars true ++ [']']
  | .obj members => '\x7b' :: members.chars true ++ ['\x7d']
  | .missing _ => []
  | .flawed _ _ _ => []
  | .deep v => v.chars

/-- The entries, with a comma before each but the first. -/
def Items.chars (isFirst : Bool) : Items → List Char
  | .item v rest => (if isFirst then [] else [',']) ++ v.chars ++ rest.chars false
  | .done => []
  | .stop _ => []
  | .dangling _ => []

def Members.chars (isFirst : Bool) : Members → List Char
  | .member (.ok key) v rest =>
    (if isFirst then [] else [',']) ++ literal key ++ ':' :: v.chars ++ rest.chars false
  | .member (.error _) _ rest => rest.chars isFirst
  | .done => []
  | .stop _ => []
  | .dangling _ => []

end

/-- The text of a value on one line. -/
def render (v : Json) : String :=
  String.ofList v.chars

/-! ## On many lines -/

/-- A new line at a depth, two blanks for every container around it. -/
def newLine (depth : Nat) : List Char :=
  '\n' :: List.replicate (2 * depth) ' '

mutual

def prettyChars (depth : Nat) : Json → List Char
  | .arr .done => ['[', ']']
  | .arr items => '[' :: items.prettyChars (depth + 1) true ++ newLine depth ++ [']']
  | .obj .done => ['\x7b', '\x7d']
  | .obj members => '\x7b' :: members.prettyChars (depth + 1) true ++ newLine depth ++ ['\x7d']
  | .deep v => v.prettyChars depth
  | .null => ['n', 'u', 'l', 'l']
  | .bool true => ['t', 'r', 'u', 'e']
  | .bool false => ['f', 'a', 'l', 's', 'e']
  | .num n => n.chars
  | .str s => literal s
  | .missing _ => []
  | .flawed _ _ _ => []

def Items.prettyChars (depth : Nat) (isFirst : Bool) : Items → List Char
  | .item v rest =>
    (if isFirst then [] else [',']) ++ newLine depth ++ v.prettyChars depth ++
      rest.prettyChars depth false
  | .done => []
  | .stop _ => []
  | .dangling _ => []

def Members.prettyChars (depth : Nat) (isFirst : Bool) : Members → List Char
  | .member (.ok key) v rest =>
    (if isFirst then [] else [',']) ++ newLine depth ++ literal key ++
      ':' :: ' ' :: v.prettyChars depth ++ rest.prettyChars depth false
  | .member (.error _) _ rest => rest.prettyChars depth isFirst
  | .done => []
  | .stop _ => []
  | .dangling _ => []

end

/-- The text of a value, an entry a line. -/
def pretty (v : Json) : String :=
  String.ofList (v.prettyChars 0)

end CallGraph.Json
