import CallGraph.Calls

/-!
# Building graphs

The calls of a unit are put into a graph body by body. Then methods are linked to those they override,
whether or not anything calls them. What is counted on the way is given back with the graph.
-/

namespace CallGraph

namespace Graph

/-- Do something for one after the other and add up what is counted. -/
def tally {α β : Type} [Add β] (f : Graph → α → Graph × β) (xs : List α) (g : Graph) (n : β) :
    Graph × β :=
  xs.foldl (fun r x => let r' := f r.1 x; (r'.1, r.2 + r'.2)) (g, n)

/-- Append a call between declarations, which get their nodes first. -/
def addCall (g : Graph) (u : SourceUnit) (c : Call) : Graph :=
  let (g, caller) := g.insert u (some c.caller)
  let (g, callee) := g.insert u (some c.callee)
  g.link ⟨caller, callee, .call⟩

/-- Put in a declaration and the calls of its body, and count what is found there. -/
def addDecl (g : Graph) (u : SourceUnit) (id : DeclId) : Graph × Stats :=
  let found := u.statsOf g.options id
  let g := (u.callsOf g.options id).foldl (fun g c => g.addCall u c) (g.insert u (some id)).1
  ({ g with stats := g.stats + found }, found)

def addDecls (g : Graph) (u : SourceUnit) (ids : List DeclId) : Graph × Stats :=
  tally (fun g id => g.addDecl u id) ids g {}

/-- Put in the blocks of a declaration. -/
def addBlocks (g : Graph) (u : SourceUnit) (id : DeclId) : Graph × Stats :=
  g.addDecls u (u.blocksIn g.options id)

/-- Put in all bodies of a unit. -/
def addUnit (g : Graph) (u : SourceUnit) : Graph × Stats :=
  g.addDecls u (u.sweep g.options)

end Graph

/-! ## Overriding -/

namespace SourceUnit

variable (u : SourceUnit) (o : Options)

/-- The declaration takes part in overriding. -/
def isOverrider (id : DeclId) : Bool :=
  ((u.decl? id).any fun d => d.kind.isMethod && d.isVirtual) && o.includesIn u id

/-- The methods that a declaration is to be linked to, one for every time it names them. -/
def overriddenOf (id : DeclId) : List DeclId :=
  if u.isOverrider o id then
    (((u.decl? id).map Decl.overridden).getD []).filter (o.includesIn u)
  else []

end SourceUnit

namespace Graph

/-- Link the node of a method, in both directions, to one that it overrides. -/
def linkPair (g : Graph) (u : SourceUnit) (method overridden : DeclId) : Graph :=
  let (g, a) := g.insert u (some method)
  let (g, b) := g.insert u (some overridden)
  (g.linkOnce ⟨a, b, .overrides⟩).linkOnce ⟨b, a, .overriddenBy⟩

/-- Link a method to all that it overrides, and count the links that it asks for. A method that
overrides nothing still gets its node. -/
def linkMethod (g : Graph) (u : SourceUnit) (id : DeclId) : Graph × Nat :=
  if u.isOverrider g.options id then
    let overridden := u.overriddenOf g.options id
    (overridden.foldl (fun g m => g.linkPair u id m) (g.insert u (some id)).1, overridden.length)
  else (g, 0)

/-- Link all methods of a unit. -/
def linkUnit (g : Graph) (u : SourceUnit) : Graph × Nat :=
  tally (fun g id => g.linkMethod u id) u.walk g 0

/-- The graph of a unit. -/
def build (o : Options) (u : SourceUnit) : Graph :=
  let g := ((ofOptions o).addUnit u).1
  if o.linkOverrides then (g.linkUnit u).1 else g

end Graph

end CallGraph
