/-!
# Kinds of declarations
-/

namespace CallGraph

inductive DeclKind where
  | function
  | method
  | constructor
  | destructor
  | objCMethod
  | block
  | record
  | interface
  | scope
  | other
  deriving Repr, DecidableEq

namespace DeclKind

/-- Every kind, in the order in which they are listed to a user. -/
def all : List DeclKind :=
  [.function, .method, .constructor, .destructor, .objCMethod, .block, .record, .interface,
    .scope, .other]

/-- The name in unit files. -/
def name : DeclKind → String
  | .function => "function"
  | .method => "method"
  | .constructor => "constructor"
  | .destructor => "destructor"
  | .objCMethod => "obj_c_method"
  | .block => "block"
  | .record => "record"
  | .interface => "interface"
  | .scope => "namespace"
  | .other => "other"

/-- The name in reports. -/
def title : DeclKind → String
  | .function => "Function"
  | .method => "Method"
  | .constructor => "Constructor"
  | .destructor => "Destructor"
  | .objCMethod => "ObjCMethod"
  | .block => "Block"
  | .record => "Record"
  | .interface => "Interface"
  | .scope => "Namespace"
  | .other => "Other"

def ofName? (s : String) : Option DeclKind :=
  all.find? fun k => k.name == s

theorem ofName?_name (k : DeclKind) : ofName? k.name = some k := by
  cases k <;> decide

/-- Functions that are bound when the program is built. -/
def isFunction : DeclKind → Bool
  | .function | .method | .constructor | .destructor => true
  | _ => false

/-- What may have a body. -/
def isCallable (k : DeclKind) : Bool :=
  k.isFunction || k == .objCMethod || k == .block

/-- What may override. -/
def isMethod : DeclKind → Bool
  | .method | .destructor | .objCMethod => true
  | _ => false

end DeclKind

end CallGraph
