/-!
# JSON as a reader sees it

A text need not be whole for the first part of it to be read: a reader that goes from left to right
meets values, and somewhere it may meet a fault. `Json` is what such a reader sees. Values that are
well formed look as usual; the place where the text stops making sense is itself part of the tree,
so that whoever interprets the tree from left to right meets faults of the text and faults of its
meaning in the order in which they stand.

Two ways of going through a value are told apart. Reading it (`Json.fault?`) looks at everything.
Skipping it (`Json.skipFault?`), which is what happens to a field that nobody asked for, checks the
grammar alone and lets pass what only matters to someone who wants the value: an escape that names
half a character, a number too large to hold, a nesting that is too deep.
-/

namespace CallGraph

/-- How a text fails to be JSON. The first four mean that it ends too early; the others that it holds
something that cannot stand there. -/
inductive Json.Fault where
  | endInValue
  | endInList
  | endInObject
  | endInString
  | noValue
  | noColon
  | noListComma
  | noObjectComma
  | trailingComma
  | trailingText
  | keyNotString
  | badWord
  | badNumber
  | numberTooLarge
  | controlCharacter
  | badEscape
  | halfEscape
  | loneHalf
  | tooDeep
  deriving Repr, DecidableEq

/-- The text ends too early. -/
def Json.Fault.isEnd : Fault → Bool
  | .endInValue | .endInList | .endInObject | .endInString => true
  | _ => false

def Json.Fault.message : Fault → String
  | .endInValue => "EOF while parsing a value"
  | .endInList => "EOF while parsing a list"
  | .endInObject => "EOF while parsing an object"
  | .endInString => "EOF while parsing a string"
  | .noValue => "expected value"
  | .noColon => "expected `:`"
  | .noListComma => "expected `,` or `]`"
  | .noObjectComma => "expected `,` or `\x7d`"
  | .trailingComma => "trailing comma"
  | .trailingText => "trailing characters"
  | .keyNotString => "key must be a string"
  | .badWord => "expected ident"
  | .badNumber => "invalid number"
  | .numberTooLarge => "number out of range"
  | .controlCharacter => "control character (\\u0000-\\u001F) found while parsing a string"
  | .badEscape => "invalid escape"
  | .halfEscape => "unexpected end of hex escape"
  | .loneHalf => "lone leading surrogate in hex escape"
  | .tooDeep => "recursion limit exceeded"

/-- A number as it is kept: without fraction and exponent and small enough, exactly; otherwise as a
double, by its bits. `negative n` is `-n`. -/
inductive Json.Number where
  | natural (n : Nat)
  | negative (n : Nat)
  | double (bits : UInt64)
  deriving Repr, DecidableEq

/-- What a scalar looks like from its first character. -/
inductive Json.Lexeme where
  | word
  | number
  | string
  deriving Repr, DecidableEq

mutual

inductive Json where
  | null
  | bool (b : Bool)
  | num (n : Json.Number)
  | str (s : String)
  | arr (items : Json.Items)
  | obj (members : Json.Members)
  /-- No value starts here. -/
  | missing (f : Json.Fault)
  /-- A scalar that starts and cannot be read; skipping it may find nothing wrong. -/
  | flawed (l : Json.Lexeme) (reading : Json.Fault) (skipping : Option Json.Fault)
  /-- A container that opens beyond the nesting limit. -/
  | deep (v : Json)

/-- The inside of an array and how it ends. -/
inductive Json.Items where
  | done
  /-- After an item, or after the opening bracket, there is neither a comma nor a closing bracket. -/
  | stop (f : Json.Fault)
  /-- After a comma there is no item. -/
  | dangling (f : Json.Fault)
  | item (v : Json) (rest : Json.Items)

/-- The inside of an object and how it ends. -/
inductive Json.Members where
  | done
  /-- After a member there is neither a comma nor a closing bracket, or after the opening bracket
  neither a key nor a closing bracket. -/
  | stop (f : Json.Fault)
  /-- After a comma there is no member. -/
  | dangling (f : Json.Fault)
  | member (key : Except Json.Fault String) (v : Json) (rest : Json.Members)

end

namespace Json

instance : Inhabited Json := ⟨.null⟩

def Items.ofList (tail : Items) : List Json → Items
  | [] => tail
  | v :: vs => .item v (ofList tail vs)

def Members.ofList (tail : Members) : List (Except Fault String × Json) → Members
  | [] => tail
  | (k, v) :: ms => .member k v (ofList tail ms)

/-- The number of items. -/
def Items.length : Items → Nat
  | .item _ rest => rest.length + 1
  | .done => 0
  | .stop _ => 0
  | .dangling _ => 0

/-- A whole array. -/
def array (vs : List Json) : Json :=
  .arr (Items.ofList .done vs)

/-- A whole object with these members in this order. -/
def object (ms : List (String × Json)) : Json :=
  .obj (Members.ofList .done (ms.map fun m => (.ok m.1, m.2)))

/-! ## The first fault met -/

mutual

/-- The first fault that reading the value meets. -/
def fault? : Json → Option Fault
  | .arr items => items.fault?
  | .obj members => members.fault?
  | .missing f => some f
  | .flawed _ f _ => some f
  | .deep _ => some .tooDeep
  | .null | .bool _ | .num _ | .str _ => none

def Items.fault? : Items → Option Fault
  | .done => none
  | .stop f => some f
  | .dangling f => some f
  | .item v rest =>
    match v.fault? with
    | some f => some f
    | none => rest.fault?

def Members.fault? : Members → Option Fault
  | .done => none
  | .stop f => some f
  | .dangling f => some f
  | .member (.error f) _ _ => some f
  | .member (.ok _) v rest =>
    match v.fault? with
    | some f => some f
    | none => rest.fault?

end

mutual

/-- The first fault that skipping the value meets. -/
def skipFault? : Json → Option Fault
  | .arr items => items.skipFault?
  | .obj members => members.skipFault?
  | .missing f => some f
  | .flawed _ _ f => f
  | .deep v => v.skipFault?
  | .null | .bool _ | .num _ | .str _ => none

def Items.skipFault? : Items → Option Fault
  | .done => none
  | .stop f => some f
  | .dangling f => some f
  | .item v rest =>
    match v.skipFault? with
    | some f => some f
    | none => rest.skipFault?

def Members.skipFault? : Members → Option Fault
  | .done => none
  | .stop f => some f
  | .dangling f => some f
  | .member _ v rest =>
    match v.skipFault? with
    | some f => some f
    | none => rest.skipFault?

end

end Json

end CallGraph
