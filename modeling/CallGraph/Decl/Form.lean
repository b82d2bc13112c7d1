import CallGraph.Decl
import CallGraph.Json.Record
import CallGraph.Stmt.Form

/-!
# The JSON form of declarations
-/

namespace CallGraph

namespace DeclKind

def ofNameOrError (s : String) : Json.Result DeclKind :=
  match ofName? s with
  | some k => .ok k
  | none => .error (.unknownVariant s (all.map name))

/-- A kind is given by its name, or by an object whose only member has that name and no value. -/
def ofJson : Json → Json.Result DeclKind
  | .str s => ofNameOrError s
  | .obj (.member (.ok s) v rest) => do
    let k ← ofNameOrError s
    match v, rest with
    | .null, .done => .ok k
    | .null, .stop f => .error (.fault f)
    | .null, _ => .error (.fault .noValue)
    | v, _ => .error (v.mismatch .nothing)
  | .obj (.member (.error f) _ _) => .error (.fault f)
  | .obj (.stop f) => .error (.fault f)
  | .missing f => .error (.fault f)
  | .flawed .string f _ => .error (.fault f)
  | _ => .error (.fault .noValue)

def toJson (k : DeclKind) : Json :=
  .str k.name

end DeclKind

def MethodTable.ofJson (v : Json) : Json.Result MethodTable := do
  return .ofList (← v.asTable Json.asId)

def MethodTable.toJson (t : MethodTable) : Json :=
  .object (t.entries.map fun e => (e.1, Stmt.idToJson (some e.2)))

namespace Decl

open Json in
/-- The fields of a declaration; only the kind has to be given. `ahead` tells that the value lies inside
one that has been read ahead. -/
def form (ahead : Bool) : Json.Record Decl where
  name := "Decl"
  blank := ofKind .other
  fields :=
    [.optional "id" asId fun x d => { d with id := x },
      .required "kind" DeclKind.ofJson fun x d => { d with kind := x },
      .optional "name" (asOptional asText) fun x d => { d with name := x },
      .optional "qualified_name" (asOptional asText) fun x d => { d with qualifiedName := x },
      .optional "canonical" (asOptional asId) fun x d => { d with canonical := x },
      .optional "dependent_context" asFlag fun x d => { d with isDependent := x },
      .optional "is_virtual" asFlag fun x d => { d with isVirtual := x },
      .optional "overridden_methods" (asList asId) fun x d => { d with overridden := x },
      .optional "extern_c" asFlag fun x d => { d with isExternC := x },
      .optional "is_main" asFlag fun x d => { d with isMain := x },
      .optional "param_types" (asList asText) fun x d => { d with paramTypes := x },
      .optional "children" (asList asId) fun x d => { d with children := x },
      .optional "body" (asOptional (Stmt.ofJson ahead)) fun x d => { d with body := x },
      .optional "superclass" (asOptional asId) fun x d => { d with superclass := x },
      .optional "instance_methods" MethodTable.ofJson fun x d => { d with instanceMethods := x },
      .optional "class_methods" MethodTable.ofJson fun x d => { d with classMethods := x }]

def ofJson (ahead : Bool) : Json → Json.Result Decl :=
  (form ahead).decode

/-- The object of a declaration, with all its fields. -/
def toJson (d : Decl) : Json :=
  let text (s : Option String) : Json := (s.map Json.str).getD .null
  let ids (l : List DeclId) : Json := .array (l.map fun id => Stmt.idToJson (some id))
  .object
    [("id", Stmt.idToJson (some d.id)),
      ("kind", d.kind.toJson),
      ("name", text d.name),
      ("qualified_name", text d.qualifiedName),
      ("canonical", Stmt.idToJson d.canonical),
      ("dependent_context", .bool d.isDependent),
      ("is_virtual", .bool d.isVirtual),
      ("overridden_methods", ids d.overridden),
      ("extern_c", .bool d.isExternC),
      ("is_main", .bool d.isMain),
      ("param_types", .array (d.paramTypes.map Json.str)),
      ("children", ids d.children),
      ("body", (d.body.map Stmt.toJson).getD .null),
      ("superclass", Stmt.idToJson d.superclass),
      ("instance_methods", d.instanceMethods.toJson),
      ("class_methods", d.classMethods.toJson)]

end Decl

end CallGraph
