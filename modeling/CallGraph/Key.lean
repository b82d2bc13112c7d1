import CallGraph.Key.Mangling
import CallGraph.SourceUnit

/-!
# Keys

Across units things are known by keys. A key is a plain name where linking goes by the name alone, and
otherwise a mangled name. What cannot be told apart from others by its name has no key.
-/

namespace CallGraph

inductive Key where
  | noName
  | plain (s : String)
  | mangled (s : String)
  deriving Repr, DecidableEq

namespace Key

def text : Key → String
  | .noName => "__NO_NAME__"
  | .plain s => s
  | .mangled s => s

/-- The key means the same in every unit. -/
def isStable : Key → Bool
  | .noName => false
  | .plain _ => true
  | .mangled _ => true

/-- The place of a key's form in the order of keys. -/
def rank : Key → Nat
  | .noName => 0
  | .plain _ => 1
  | .mangled _ => 2

/-- Keys are ordered by their form, then by their text. -/
def le (a b : Key) : Bool :=
  a.rank < b.rank || (a.rank == b.rank && a.text ≤ b.text)

end Key

/-- The plain name by which other units know a function, where linking goes by the name alone. -/
def Decl.linkName? (d : Decl) : Option String :=
  if !d.kind.isFunction then none
  else if d.isExternC && d.name.isSome then d.name
  else if d.isMain then some "main"
  else none

def Decl.key (d : Decl) : Key :=
  match d.kind with
  | .constructor => .noName
  | .destructor => .noName
  | kind =>
    match d.linkName?, d.displayName? with
    | some name, _ => .plain name
    | none, none => .noName
    | none, some name =>
      if kind = .objCMethod then .plain name
      else .mangled (mangle name d.paramTypes kind.isFunction)

/-- The key of a declaration; one that the unit does not have has none. -/
def SourceUnit.key (u : SourceUnit) (id : DeclId) : Key :=
  ((u.decl? id).map Decl.key).getD .noName

end CallGraph
