import CallGraph.SourceUnit

/-!
# Identities

Within a unit a node is known by its identity. Declarations of the same thing share one, except that
methods chosen at run time keep their own, because overriding is a matter of single declarations.
-/

namespace CallGraph

/-- The identity of a node; the root stands for no declaration. -/
inductive Identity where
  | root
  | decl (id : DeclId)
  deriving Repr, DecidableEq

/-- The declaration keeps its own identity. -/
def SourceUnit.isDispatched (u : SourceUnit) (id : DeclId) : Bool :=
  (u.decl? id).any Decl.isDynamicallyDispatched

/-- The identity of a declaration, or of none. -/
def SourceUnit.resolve (u : SourceUnit) : Option DeclId → Identity
  | none => .root
  | some id => if u.isDispatched id then .decl id else .decl (u.canonical id)

end CallGraph
