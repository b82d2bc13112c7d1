import CallGraph.Decl
import CallGraph.Traversal

/-!
# Source units

A unit is a row of declarations that name each other by their places. Nothing keeps a place from lying
outside the unit, or links from running in circles; every question below has an answer then too.
-/

namespace CallGraph

structure SourceUnit where
  name : String
  decls : Array Decl
  /-- The declarations that lie in no other, in source order. -/
  topLevel : List DeclId
  deriving Repr

namespace SourceUnit

def empty (name : String) : SourceUnit :=
  ⟨name, #[], []⟩

instance : Inhabited SourceUnit := ⟨empty ""⟩

def decl? (u : SourceUnit) (id : DeclId) : Option Decl :=
  u.decls[id.toNat]?

def has (u : SourceUnit) (id : DeclId) : Bool :=
  id.toNat < u.decls.size

/-- The place that the next declaration gets. -/
def nextId (u : SourceUnit) : DeclId :=
  u.decls.size.toUInt32

/-- Append a declaration. -/
def add (u : SourceUnit) (d : Decl) : SourceUnit :=
  { u with decls := u.decls.push { d with id := u.nextId } }

/-- Append a declaration that lies in no other. -/
def addTopLevel (u : SourceUnit) (d : Decl) : SourceUnit :=
  { u.add d with topLevel := u.topLevel ++ [u.nextId] }

/-- Put a declaration in the place of another, if there is one. -/
def replace? (u : SourceUnit) (id : DeclId) (d : Decl) : Option SourceUnit :=
  (u.decl? id).map fun old =>
    { u with decls := u.decls.setIfInBounds id.toNat { d with id := old.id } }

/-! ## Links between declarations -/

/-- The places of the unit. -/
def ids (u : SourceUnit) : List DeclId :=
  (List.range u.decls.size).map Nat.toUInt32

theorem mem_ids_of_decl? {u : SourceUnit} {id : DeclId} (h : u.decl? id ≠ none) : id ∈ u.ids := by
  rw [decl?, ne_eq, Array.getElem?_eq_none_iff, Nat.not_le] at h
  exact List.mem_map.2 ⟨id.toNat, List.mem_range.2 h, by simp⟩

/-- The links that a property of declarations makes. -/
def links (u : SourceUnit) (targets : Decl → List DeclId) : Links DeclId where
  targets id := ((u.decl? id).map targets).getD []
  sources := u.ids
  mem_sources id h := mem_ids_of_decl? fun hd => h (by simp [hd])

/-- From a declaration to those directly inside it. -/
def childLinks (u : SourceUnit) : Links DeclId :=
  u.links Decl.children

/-- Every declaration that lies at the top or inside one that does, an outer one before those inside
it. -/
def walk (u : SourceUnit) : List DeclId :=
  u.childLinks.preorder u.topLevel

/-! ## Redeclarations -/

/-- The declaration that stands for this one, if that is another. -/
def redeclared? (u : SourceUnit) (id : DeclId) : Option DeclId :=
  (u.decl? id).bind fun d => d.canonical.filter (· ≠ id)

def redeclarationLinks (u : SourceUnit) : Links DeclId where
  targets id := (u.redeclared? id).toList
  sources := u.ids
  mem_sources id h := mem_ids_of_decl? fun hd => h (by simp [redeclared?, hd])

/-- The declarations from `id` on, each standing for the one before it, as far as none repeats. -/
def redeclarations (u : SourceUnit) (id : DeclId) : List DeclId :=
  u.redeclarationLinks.preorder [id]

/-- The declaration that stands for `id` in the end. Where the links run in a circle, all that lead
into it agree on the smallest place of the circle. -/
def canonical (u : SourceUnit) (id : DeclId) : DeclId :=
  let chain := u.redeclarations id
  let last := chain.getLastD id
  match u.redeclared? last with
  | none => last
  | some next => (chain.dropWhile (· ≠ next)).foldl min next

/-! ## Selectors -/

def superclassLinks (u : SourceUnit) : Links DeclId :=
  u.links fun d => d.superclass.toList

/-- The methods that a declaration has for messages to its instances or to itself. -/
def methods (d : Decl) (toInstance : Bool) : MethodTable :=
  if toInstance then d.instanceMethods else d.classMethods

/-- The method for a selector: that of the interface, or of its nearest superclass that has one. -/
def lookup? (u : SourceUnit) (interface : DeclId) (selector : String) (toInstance : Bool) :
    Option DeclId :=
  (u.superclassLinks.preorder [interface]).findSome? fun id =>
    (u.decl? id).bind fun d => (methods d toInstance).get? selector

end SourceUnit

end CallGraph
