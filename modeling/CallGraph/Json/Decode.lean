import CallGraph.Decimal.Shortest
import CallGraph.Json.Reader
import CallGraph.Text.Quoted

/-!
# From JSON to values

What can be wrong with a value of the wrong shape, and how scalars, lists and optional values are
taken from JSON. Interpretation goes from left to right and stops at the first thing that is wrong,
whether it is wrong as JSON or as a value.
-/

namespace CallGraph.Json

/-- What was found where something else was wanted. -/
inductive Found where
  | null
  | bool (b : Bool)
  | integer (i : Int)
  | double (bits : UInt64)
  | text (s : String)
  | list
  | table
  deriving Repr, DecidableEq

/-- What was wanted. -/
inductive Wanted where
  | text
  | flag
  | id
  | list
  | table
  | nothing
  | variantName
  | variantIndex (count : Nat)
  | record (name : String)
  | tagged (name : String)
  deriving Repr, DecidableEq

/-- The causes for which a value is refused. -/
inductive DecodeError where
  | fault (f : Fault)
  | wrongType (found : Found) (wanted : Wanted)
  | outOfRange (i : Int) (wanted : Wanted)
  | missingField (name : String)
  | duplicateField (name : String)
  | unknownVariant (name : String) (known : List String)
  /-- A list of fields has no entry at position `position`, for a field that has to be given. -/
  | tooShort (position : Nat) (shape : String) (fields : Nat)
  | tooLong (length fields : Nat)
  /-- A unit file is neither a list of units nor a unit. -/
  | noUnits
  deriving Repr, DecidableEq

/-! ## Wording -/

def Found.phrase : Found → String
  | .null => "null"
  | .bool b => s!"boolean `{b}`"
  | .integer i => s!"integer `{i}`"
  | .double bits => "floating point `" ++ Decimal.textOfDouble bits ++ "`"
  | .text s => "string " ++ Text.quoted s
  | .list => "sequence"
  | .table => "map"

def Wanted.phrase : Wanted → String
  | .text => "a string"
  | .flag => "a boolean"
  | .id => "u32"
  | .list => "a sequence"
  | .table => "a map"
  | .nothing => "unit"
  | .variantName => "variant identifier"
  | .variantIndex count => s!"variant index 0 <= i < {count}"
  | .record name => "struct " ++ name
  | .tagged name => "internally tagged enum " ++ name

/-- A count of elements. -/
def elements (n : Nat) : String :=
  if n = 1 then "1 element" else s!"{n} elements"

def DecodeError.message : DecodeError → String
  | .fault f => f.message
  | .wrongType found wanted => "invalid type: " ++ found.phrase ++ ", expected " ++ wanted.phrase
  | .outOfRange i wanted => s!"invalid value: integer `{i}`, expected " ++ wanted.phrase
  | .missingField name => "missing field `" ++ name ++ "`"
  | .duplicateField name => "duplicate field `" ++ name ++ "`"
  | .unknownVariant name known =>
    "unknown variant `" ++ name ++ "`, expected one of " ++
      ", ".intercalate (known.map fun k => "`" ++ k ++ "`")
  | .tooShort position shape fields =>
    s!"invalid length {position}, expected " ++ shape ++ " with " ++ elements fields
  | .tooLong length fields => s!"invalid length {length}, expected " ++ elements fields ++ " in sequence"
  | .noUnits => "data did not match any variant of untagged enum UnitFile"

/-! ## Scalars -/

abbrev Result (α : Type) := Except DecodeError α

def Number.found : Number → Found
  | .natural n => .integer n
  | .negative n => .integer (-(n : Int))
  | .double bits => .double bits

/-- The error for a value that is not what was wanted. Of a container only its kind is looked at. -/
def mismatch (wanted : Wanted) : Json → DecodeError
  | .null => .wrongType .null wanted
  | .bool b => .wrongType (.bool b) wanted
  | .num n => .wrongType n.found wanted
  | .str s => .wrongType (.text s) wanted
  | .arr _ => .wrongType .list wanted
  | .obj _ => .wrongType .table wanted
  | .missing f => .fault f
  | .flawed _ f _ => .fault f
  | .deep _ => .fault .tooDeep

def asText : Json → Result String
  | .str s => .ok s
  | v => .error (v.mismatch .text)

def asFlag : Json → Result Bool
  | .bool b => .ok b
  | v => .error (v.mismatch .flag)

/-- Ids are unsigned words of 32 bits. -/
def asId : Json → Result UInt32
  | .num (.natural n) => if n < UInt32.size then .ok n.toUInt32 else .error (.outOfRange n .id)
  | .num (.negative n) => .error (.outOfRange (-(n : Int)) .id)
  | v => .error (v.mismatch .id)

/-- `null` stands for no value. -/
def asOptional {α : Type} (decode : Json → Result α) : Json → Result (Option α)
  | .null => .ok none
  | v => (decode v).map some

/-! ## Containers -/

def Items.decode {α : Type} (decode : Json → Result α) : Items → Result (List α)
  | .done => .ok []
  | .stop f => .error (.fault f)
  | .dangling f => .error (.fault f)
  | .item v rest => do
    let a ← decode v
    let as ← rest.decode decode
    return a :: as

def asList {α : Type} (decode : Json → Result α) : Json → Result (List α)
  | .arr items => items.decode decode
  | v => .error (v.mismatch .list)

/-- The members in the order of the text, a key that is repeated as often as it stands there. -/
def Members.decode {α : Type} (decode : Json → Result α) : Members → Result (List (String × α))
  | .done => .ok []
  | .stop f => .error (.fault f)
  | .dangling f => .error (.fault f)
  | .member (.error f) _ _ => .error (.fault f)
  | .member (.ok k) v rest => do
    let a ← decode v
    let as ← rest.decode decode
    return (k, a) :: as

def asTable {α : Type} (decode : Json → Result α) : Json → Result (List (String × α))
  | .obj members => members.decode decode
  | v => .error (v.mismatch .table)

/-! ## Whole texts -/

/-- The value of a text. Text behind the outermost value is looked at last. -/
def decodeText {α : Type} (decode : Json → Result α) (text : String) : Result α := do
  let d := Document.ofString text
  let a ← decode d.value
  if d.hasTrailing then throw (.fault .trailingText)
  return a

end CallGraph.Json
