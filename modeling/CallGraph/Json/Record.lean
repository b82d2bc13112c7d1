import CallGraph.Json.Decode

/-!
# Records

A record is written as an object of its fields, in any order, or as a list of their values in the
order of declaration. A field that is left out keeps the value it has in the record one starts from,
unless it has to be given. Members of an object that name no field are skipped.
-/

namespace CallGraph.Json

/-- A field of records `α`: its name, whether it has to be given, and how its value is put in. -/
structure Field (α : Type) where
  name : String
  isRequired : Bool
  put : Json → α → Result α

/-- A field that may be left out. -/
def Field.optional {α β : Type} (name : String) (decode : Json → Result β) (set : β → α → α) :
    Field α :=
  ⟨name, false, fun v a => do return set (← decode v) a⟩

/-- A field that has to be given. -/
def Field.required {α β : Type} (name : String) (decode : Json → Result β) (set : β → α → α) :
    Field α :=
  ⟨name, true, fun v a => do return set (← decode v) a⟩

/-- The form of a record: its name, the record without any field given, and its fields. -/
structure Record (α : Type) where
  name : String
  blank : α
  fields : List (Field α)

namespace Record

variable {α : Type}

/-- Put in the members of an object one after the other; `given` names the fields seen so far. The
object ends well only if no required field is left out. -/
def ofMembers (r : Record α) (given : List String) (a : α) : Members → Result α
  | .done =>
    match r.fields.find? fun f => f.isRequired && !given.contains f.name with
    | some f => .error (.missingField f.name)
    | none => .ok a
  | .stop f => .error (.fault f)
  | .dangling f => .error (.fault f)
  | .member (.error f) _ _ => .error (.fault f)
  | .member (.ok k) v rest =>
    match r.fields.find? fun f => f.name == k with
    | none =>
      match v.skipFault? with
      | some f => .error (.fault f)
      | none => r.ofMembers given a rest
    | some f =>
      if given.contains k then .error (.duplicateField k)
      else do r.ofMembers (k :: given) (← f.put v a) rest

/-- Put in the entries of a list, `fields` being those whose turn has not come. -/
def ofItems (r : Record α) (fields : List (Field α)) (a : α) : Items → Result α
  | .done =>
    match fields.findIdx? fun f => f.isRequired with
    | some i =>
      .error (.tooShort (r.fields.length - fields.length + i) ("struct " ++ r.name) r.fields.length)
    | none => .ok a
  | .stop f => .error (.fault f)
  | .dangling f => .error (.fault (if fields.isEmpty then .trailingText else f))
  | .item v rest =>
    match fields with
    | [] => .error (.fault .trailingText)
    | f :: fields => do r.ofItems fields (← f.put v a) rest

def decode (r : Record α) : Json → Result α
  | .obj members => r.ofMembers [] r.blank members
  | .arr items => r.ofItems r.fields r.blank items
  | v => .error (v.mismatch (.record r.name))

end Record

end CallGraph.Json
