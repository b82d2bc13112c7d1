import CallGraph.Decl.Form
import CallGraph.SourceUnit.Validation

/-!
# The JSON form of units
-/

namespace CallGraph.SourceUnit

open Json in
/-- The fields of a unit; only its name may be left out. -/
def form (ahead : Bool) : Json.Record SourceUnit where
  name := "TranslationUnit"
  blank := empty ""
  fields :=
    [.optional "name" asText fun x u => { u with name := x },
      .required "decls" (asList (Decl.ofJson ahead)) fun x u => { u with decls := x.toArray },
      .required "top_level" (asList asId) fun x u => { u with topLevel := x }]

def ofJson (ahead : Bool) : Json → Json.Result SourceUnit :=
  (form ahead).decode

/-- The object of a unit, with all its fields. -/
def toJson (u : SourceUnit) : Json :=
  .object
    [("name", .str u.name),
      ("decls", .array (u.decls.toList.map Decl.toJson)),
      ("top_level", .array (u.topLevel.map fun id => Stmt.idToJson (some id)))]

/-- Read one unit, valid or not. -/
def read (text : String) : Json.Result SourceUnit :=
  Json.decodeText (ofJson false) text

/-- Why a text gives no valid unit. -/
inductive ReadError where
  | json (e : Json.DecodeError)
  | invalid (e : UnitError)
  deriving Repr, DecidableEq

/-- Read one unit, which has to be valid. -/
def readValid (text : String) : Except ReadError SourceUnit :=
  match read text with
  | .error e => .error (.json e)
  | .ok u =>
    match u.error? with
    | some e => .error (.invalid e)
    | none => .ok u

end CallGraph.SourceUnit
