import CallGraph.Decl.Kind
import CallGraph.Decl.MethodTable

/-!
# Declarations
-/

namespace CallGraph

/-- A declaration of a unit. Everything but its kind may be unknown or empty. -/
structure Decl where
  /-- The place that the declaration claims to have in its unit. -/
  id : DeclId
  kind : DeclKind
  name : Option String
  qualifiedName : Option String
  /-- The declaration of the same thing that stands for all of them; the declaration itself if there
  is none. -/
  canonical : Option DeclId
  /-- Declared where a template parameter is not yet known. -/
  isDependent : Bool
  isVirtual : Bool
  /-- The methods that this one overrides directly. -/
  overridden : List DeclId
  isExternC : Bool
  /-- The entry point of the program. -/
  isMain : Bool
  /-- The types of the parameters as they are spelled. -/
  paramTypes : List String
  /-- The declarations directly inside this one. -/
  children : List DeclId
  body : Option Stmt
  superclass : Option DeclId
  instanceMethods : MethodTable
  classMethods : MethodTable
  deriving Repr

namespace Decl

/-- A declaration of which only the kind is known. -/
def ofKind (kind : DeclKind) : Decl where
  id := 0
  kind := kind
  name := none
  qualifiedName := none
  canonical := none
  isDependent := false
  isVirtual := false
  overridden := []
  isExternC := false
  isMain := false
  paramTypes := []
  children := []
  body := none
  superclass := none
  instanceMethods := .empty
  classMethods := .empty

instance : Inhabited Decl := ⟨ofKind .other⟩

def ofName (kind : DeclKind) (name : String) : Decl :=
  { ofKind kind with name := some name }

/-- The name to show: the qualified one if it is known. -/
def displayName? (d : Decl) : Option String :=
  d.qualifiedName.or d.name

/-- Which method runs is decided at run time. -/
def isDynamicallyDispatched (d : Decl) : Bool :=
  match d.kind with
  | .objCMethod => true
  | .method | .destructor => d.isVirtual
  | _ => false

end Decl

end CallGraph
