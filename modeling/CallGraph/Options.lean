import CallGraph.SourceUnit

/-!
# Options

What a graph leaves out and adds, and which declarations may become nodes at all.
-/

namespace CallGraph

structure Options where
  /-- Functions whose names start like this are left out; the empty text leaves out none. -/
  inlinePrefix : String := "__inline"
  /-- A function that is given the address of another is taken to call it. -/
  functionPointers : Bool := true
  /-- Methods are linked to those they override. -/
  linkOverrides : Bool := true
  deriving Repr, DecidableEq

namespace Options

instance : Inhabited Options := ⟨{}⟩

/-- The declaration is a function whose name marks it as an inline helper. -/
def isInlineHelper (o : Options) (d : Decl) : Bool :=
  d.kind.isFunction && !o.inlinePrefix.isEmpty &&
    d.name.any fun name => o.inlinePrefix.toList.isPrefixOf name.toList

/-- The declaration may become a node. -/
def includes (o : Options) (d : Decl) : Bool :=
  !d.isDependent && !o.isInlineHelper d

/-- The unit has the declaration, and it may become a node. -/
def includesIn (o : Options) (u : SourceUnit) (id : DeclId) : Bool :=
  (u.decl? id).any o.includes

end Options

end CallGraph
