import CallGraph.Identity

/-!
# Nodes and edges
-/

namespace CallGraph

/-- A node keeps what was known of its declaration when it was made. -/
structure Node where
  identity : Identity
  kind : Option DeclKind
  name : Option String
  /-- The name to show, qualified if possible. -/
  qualifiedName : Option String
  deriving Repr, DecidableEq

namespace Node

def root : Node :=
  ⟨.root, none, none, none⟩

/-- The node of a declaration, which the unit may not have. -/
def ofDecl (id : DeclId) (d : Option Decl) : Node where
  identity := .decl id
  kind := d.map Decl.kind
  name := d.bind Decl.name
  qualifiedName := d.bind Decl.displayName?

def isRoot (n : Node) : Bool :=
  n.identity = .root

def label (n : Node) : String :=
  if n.isRoot then "< root >" else n.qualifiedName.getD "< >"

/-- The label without the scopes around the name. -/
def shortLabel (n : Node) : String :=
  if n.isRoot then "< root >" else n.name.getD "< >"

end Node

inductive EdgeKind where
  | call
  | overrides
  | overriddenBy
  deriving Repr, DecidableEq

/-- An edge between nodes, which are known by their places. -/
structure Edge where
  source : Nat
  target : Nat
  kind : EdgeKind
  deriving Repr, DecidableEq

end CallGraph
