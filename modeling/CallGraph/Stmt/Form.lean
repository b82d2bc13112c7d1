import CallGraph.Json.Decode
import CallGraph.Stmt

/-!
# The JSON form of statements

A statement is an object with a tag, at any place among its fields, or a list that starts with the tag
and goes on with the fields in order. The value is read as a whole before its fields are looked at;
only the tag is looked at when it comes by. Inside a value that has been read ahead a tag may also be
given by its number.

Each tag has at most one field of each kind, so a table of field kinds says everything about the form.
-/

namespace CallGraph

/-- The shapes of statements. -/
inductive Stmt.Tag where
  | call
  | messageSend
  | blockLiteral
  | addrOf
  | declRef
  | paren
  | implicitCast
  | other
  deriving Repr, DecidableEq

/-- What a field of a statement holds. The kinds that begin with `optional`, a flag and a list may be
left out. -/
inductive Stmt.FieldKind where
  | id
  | optionalId
  | text
  | flag
  | stmt
  | optionalStmt
  | stmts
  deriving Repr, DecidableEq

def Stmt.FieldKind.isRequired : FieldKind → Bool
  | .id | .text | .stmt => true
  | .optionalId | .flag | .optionalStmt | .stmts => false

namespace Stmt.Tag

def all : List Tag :=
  [.call, .messageSend, .blockLiteral, .addrOf, .declRef, .paren, .implicitCast, .other]

def name : Tag → String
  | .call => "call"
  | .messageSend => "message_send"
  | .blockLiteral => "block_literal"
  | .addrOf => "addr_of"
  | .declRef => "decl_ref"
  | .paren => "paren"
  | .implicitCast => "implicit_cast"
  | .other => "other"

/-- The name in messages about lists that are too short. -/
def title : Tag → String
  | .call => "Call"
  | .messageSend => "MessageSend"
  | .blockLiteral => "BlockLiteral"
  | .addrOf => "AddrOf"
  | .declRef => "DeclRef"
  | .paren => "Paren"
  | .implicitCast => "ImplicitCast"
  | .other => "Other"

/-- The fields in the order of declaration. -/
def fields : Tag → List (String × FieldKind)
  | .call => [("callee", .optionalId), ("target", .stmt), ("args", .stmts)]
  | .messageSend =>
    [("receiver_interface", .optionalId), ("selector", .text), ("instance", .flag),
      ("receiver", .optionalStmt), ("args", .stmts)]
  | .blockLiteral => [("decl", .id)]
  | .addrOf => [("operand", .stmt)]
  | .declRef => [("decl", .id)]
  | .paren => [("inner", .stmt)]
  | .implicitCast => [("inner", .stmt)]
  | .other => [("children", .stmts)]

def ofName? (s : String) : Option Tag :=
  all.find? fun t => t.name == s

theorem ofName?_name (t : Tag) : ofName? t.name = some t := by
  cases t <;> decide

/-- The tag that a value names. A number counts only in a value that has been read ahead. -/
def ofJson (ahead : Bool) : Json → Json.Result Tag
  | .str s =>
    match ofName? s with
    | some t => .ok t
    | none => .error (.unknownVariant s (all.map name))
  | .num (.natural n) =>
    if !ahead then .error ((Json.num (.natural n)).mismatch .variantName)
    else
      match all[n]? with
      | some t => .ok t
      | none => .error (.outOfRange n (.variantIndex all.length))
  | v => .error (v.mismatch .variantName)

/-- Go through an object that is read ahead, and find its tag on the way. -/
def ofMembers (ahead : Bool) (tag : Option Tag) : Json.Members → Json.Result Tag
  | .done =>
    match tag with
    | some t => .ok t
    | none => .error (.missingField "kind")
  | .stop f => .error (.fault f)
  | .dangling f => .error (.fault f)
  | .member (.error f) _ _ => .error (.fault f)
  | .member (.ok k) v rest =>
    if k == "kind" then
      if tag.isSome then .error (.duplicateField "kind")
      else do ofMembers ahead (some (← ofJson ahead v)) rest
    else
      match v.fault? with
      | some f => .error (.fault f)
      | none => ofMembers ahead tag rest

end Stmt.Tag

/-- The fields of a statement so far, by kind. -/
structure Stmt.Draft where
  given : List String := []
  id : Option DeclId := none
  text : String := ""
  flag : Bool := true
  stmt : Option Stmt := none
  stmts : List Stmt := []

/-- The statement with these fields; a part that is missing is an empty statement. -/
def Stmt.Draft.build (d : Draft) : Tag → Stmt
  | .call => .call d.id (d.stmt.getD default) d.stmts
  | .messageSend => .messageSend d.id d.text d.flag d.stmt d.stmts
  | .blockLiteral => .blockLiteral (d.id.getD 0)
  | .addrOf => .addrOf (d.stmt.getD default)
  | .declRef => .declRef (d.id.getD 0)
  | .paren => .paren (d.stmt.getD default)
  | .implicitCast => .implicitCast (d.stmt.getD default)
  | .other => .other d.stmts

/-- The statement of an object, unless a field that has to be given is missing. -/
def Stmt.Draft.ofObject (d : Draft) (tag : Tag) : Json.Result Stmt :=
  match tag.fields.find? fun f => f.2.isRequired && !d.given.contains f.1 with
  | some f => .error (.missingField f.1)
  | none => .ok (d.build tag)

/-- Put in the value `v` of a field; `stmt` and `stmts` give what it stands for as a statement and as a
list of statements. -/
def Stmt.Draft.put (d : Draft) (name : String) (kind : FieldKind) (v : Json)
    (stmt : Unit → Json.Result Stmt) (stmts : Unit → Json.Result (List Stmt)) :
    Json.Result Draft := do
  let d := { d with given := name :: d.given }
  match kind with
  | .id => return { d with id := some (← v.asId) }
  | .optionalId => return { d with id := ← v.asOptional Json.asId }
  | .text => return { d with text := ← v.asText }
  | .flag => return { d with flag := ← v.asFlag }
  | .stmt => return { d with stmt := some (← stmt ()) }
  | .optionalStmt => return { d with stmt := ← v.asOptional fun _ => stmt () }
  | .stmts => return { d with stmts := ← stmts () }

namespace Stmt

mutual

/-- The statement that a value stands for. -/
def ofJson (ahead : Bool) : Json → Json.Result Stmt
  | .obj members => do
    let tag ← Tag.ofMembers ahead none members
    let draft ← ofMembers tag {} members
    draft.ofObject tag
  | .arr .done => .error (.missingField "kind")
  | .arr (.stop f) => .error (.fault f)
  | .arr (.dangling f) => .error (.fault f)
  | .arr (.item v rest) => do
    let tag ← Tag.ofJson ahead v
    match rest.fault? with
    | some f => .error (.fault f)
    | none => ofItems tag tag.fields {} rest
  | v => .error (v.mismatch (.tagged "Stmt"))

/-- The fields of an object that has been read ahead. -/
def ofMembers (tag : Tag) (draft : Draft) : Json.Members → Json.Result Draft
  | .member (.ok k) v rest =>
    if k == "kind" then ofMembers tag draft rest
    else
      match tag.fields.lookup k with
      | none => ofMembers tag draft rest
      | some kind =>
        if draft.given.contains k then .error (.duplicateField k)
        else do
          let draft ← draft.put k kind v (fun _ => ofJson true v) (fun _ => ofList v)
          ofMembers tag draft rest
  | _ => .ok draft

/-- The fields of a list that has been read ahead, `fields` being those whose turn has not come. -/
def ofItems (tag : Tag) (fields : List (String × FieldKind)) (draft : Draft) :
    Json.Items → Json.Result Stmt
  | .item v rest =>
    match fields with
    | [] => .error (.tooLong (tag.fields.length + 1 + rest.length) tag.fields.length)
    | (name, kind) :: fields => do
      let draft ← draft.put name kind v (fun _ => ofJson true v) (fun _ => ofList v)
      ofItems tag fields draft rest
  | _ =>
    match fields.findIdx? fun f => f.2.isRequired with
    | some i =>
      .error (.tooShort (tag.fields.length - fields.length + i)
        ("struct variant Stmt::" ++ tag.title) tag.fields.length)
    | none => .ok (draft.build tag)

/-- The statements of a list. -/
def ofList : Json → Json.Result (List Stmt)
  | .arr items => ofAll items
  | v => .error (v.mismatch .list)

def ofAll : Json.Items → Json.Result (List Stmt)
  | .item v rest => do
    let s ← ofJson true v
    let ss ← ofAll rest
    return s :: ss
  | _ => .ok []

end

/-! ## Writing -/

/-- An object with its tag in front. -/
def tagged (tag : Tag) (fields : List (String × Json)) : Json :=
  .object (("kind", .str tag.name) :: fields)

/-- An optional id. -/
def idToJson (id : Option DeclId) : Json :=
  match id with
  | some id => .num (.natural id.toNat)
  | none => .null

mutual

/-- The object of a statement, with all its fields. -/
def toJson : Stmt → Json
  | .call callee target args =>
    tagged .call
      [("callee", idToJson callee), ("target", target.toJson), ("args", .array (allToJson args))]
  | .messageSend interface selector toInstance receiver args =>
    tagged .messageSend
      [("receiver_interface", idToJson interface), ("selector", .str selector),
        ("instance", .bool toInstance), ("receiver", optionToJson receiver),
        ("args", .array (allToJson args))]
  | .blockLiteral decl => tagged .blockLiteral [("decl", idToJson (some decl))]
  | .addrOf operand => tagged .addrOf [("operand", operand.toJson)]
  | .declRef decl => tagged .declRef [("decl", idToJson (some decl))]
  | .paren inner => tagged .paren [("inner", inner.toJson)]
  | .implicitCast inner => tagged .implicitCast [("inner", inner.toJson)]
  | .other children => tagged .other [("children", .array (allToJson children))]

def allToJson : List Stmt → List Json
  | [] => []
  | s :: ss => s.toJson :: allToJson ss

def optionToJson : Option Stmt → Json
  | none => .null
  | some s => s.toJson

end

end Stmt

end CallGraph
