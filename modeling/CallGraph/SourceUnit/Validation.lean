import CallGraph.SourceUnit

/-!
# Valid units

A unit is valid if every declaration stands at the place that it claims and everything that is named
is there. Checking it reports the first thing that is wrong: the top level first, then one
declaration after the other, its place before what it names, and that in the order of `references`.
-/

namespace CallGraph

/-- In what way a declaration names another. -/
inductive Role where
  | canonical
  | override
  | child
  | superclass
  | methodTable
  | body
  deriving Repr, DecidableEq

def Role.name : Role → String
  | .canonical => "canonical"
  | .override => "override"
  | .child => "child"
  | .superclass => "superclass"
  | .methodTable => "method table"
  | .body => "body"

/-- Everything that a declaration names. -/
def Decl.references (d : Decl) : List (Role × DeclId) :=
  d.canonical.toList.map (Role.canonical, ·) ++
  d.overridden.map (Role.override, ·) ++
  d.children.map (Role.child, ·) ++
  d.superclass.toList.map (Role.superclass, ·) ++
  (d.instanceMethods.values ++ d.classMethods.values).map (Role.methodTable, ·) ++
  (d.body.toList.flatMap fun s => s.preorder.filterMap Stmt.reference?).map (Role.body, ·)

/-- What can be wrong with a unit. -/
inductive UnitError where
  | unknownTopLevel (id : DeclId)
  | misplaced (index : Nat) (id : DeclId)
  | unknownReference (role : Role) (owner id : DeclId)
  deriving Repr, DecidableEq

def UnitError.message : UnitError → String
  | .unknownTopLevel id => s!"top-level entry refers to unknown declaration {id}"
  | .misplaced index id =>
    s!"declaration at position {index} carries id {id}; ids must match arena positions"
  | .unknownReference role owner id =>
    role.name ++ s!" of declaration {owner} refers to unknown declaration {id}"

namespace SourceUnit

/-- What is wrong with the declaration at a place. -/
def declError? (u : SourceUnit) (index : Nat) (d : Decl) : Option UnitError :=
  if d.id.toNat ≠ index then some (.misplaced index d.id)
  else (d.references.find? fun r => !u.has r.2).map fun r => .unknownReference r.1 d.id r.2

/-- The first thing that is wrong with the unit. -/
def error? (u : SourceUnit) : Option UnitError :=
  match u.topLevel.find? fun id => !u.has id with
  | some id => some (.unknownTopLevel id)
  | none => u.decls.toList.zipIdx.findSome? fun (d, index) => u.declError? index d

end SourceUnit

end CallGraph
