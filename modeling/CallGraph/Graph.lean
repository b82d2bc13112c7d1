import CallGraph.Graph.Node
import CallGraph.Key
import CallGraph.Options

/-!
# Graphs

A graph grows only: nodes and edges are appended and keep their places. The root is there from the
start and calls every other node, so that everything is reached from it; nothing calls the root.
Calls may stand as often as they occur, the other edges once. Two tables lead to the nodes: one from
identities, of which each node has its own, and one from stable keys, which the first node that has
one owns.
-/

namespace CallGraph

/-- What was found while bodies were gone through. -/
structure Stats where
  bodiesWalked : Nat := 0
  callSites : Nat := 0
  /-- Calls of a block literal where it stands. -/
  blockCalls : Nat := 0
  /-- Messages for which a method was found. -/
  messageCalls : Nat := 0
  /-- Calls assumed because an address is passed. -/
  pointerCalls : Nat := 0
  deriving Repr, DecidableEq

namespace Stats

def add (a b : Stats) : Stats where
  bodiesWalked := a.bodiesWalked + b.bodiesWalked
  callSites := a.callSites + b.callSites
  blockCalls := a.blockCalls + b.blockCalls
  messageCalls := a.messageCalls + b.messageCalls
  pointerCalls := a.pointerCalls + b.pointerCalls

instance : Add Stats := ⟨add⟩

/-- The counts of several bodies together. -/
def sum (l : List Stats) : Stats :=
  l.foldl (· + ·) {}

end Stats

structure Graph where
  options : Options
  nodes : Array Node
  edges : Array Edge
  /-- The identities and the places of the nodes that carry them. -/
  places : List (Identity × Nat)
  /-- The keys that are owned and the places of the nodes that own them. -/
  keys : List (Key × Nat)
  stats : Stats
  deriving Repr

/-- Why an edge cannot be added. -/
inductive GraphError where
  | unknownNode (n : Nat)
  | callsRoot
  deriving Repr, DecidableEq

namespace Graph

/-- The place of the root. -/
def root : Nat := 0

/-- The graph that has only the root. -/
def ofOptions (o : Options) : Graph :=
  ⟨o, #[.root], #[], [(.root, root)], [], {}⟩

instance : Inhabited Graph := ⟨ofOptions {}⟩

/-! ## Nodes -/

/-- The identity of the node at a place. -/
def identity? (g : Graph) (n : Nat) : Option Identity :=
  (g.nodes[n]?).map Node.identity

/-- The place of the node with an identity. -/
def nodeOf? (g : Graph) (i : Identity) : Option Nat :=
  g.places.lookup i

/-- The place of the node that a key belongs to. -/
def nodeOfKey? (g : Graph) (k : Key) : Option Nat :=
  g.keys.lookup k

/-- The place of the first node with this name to show. -/
def nodeOfName? (g : Graph) (name : String) : Option Nat :=
  g.nodes.findIdx? fun n => n.qualifiedName = some name

/-- The place of a declaration's node. -/
def node? (g : Graph) (u : SourceUnit) (id : Option DeclId) : Option Nat :=
  g.nodeOf? (u.resolve id)

def has (g : Graph) (n : Nat) : Bool :=
  n < g.nodes.size

/-- The label of a node that is there. -/
def label (g : Graph) (n : Nat) : String :=
  ((g.nodes[n]?).map Node.label).getD ""

def link (g : Graph) (e : Edge) : Graph :=
  { g with edges := g.edges.push e }

/-- The node takes the key if it is stable and nobody owns it. -/
def claim (g : Graph) (k : Key) (n : Nat) : Graph :=
  if k.isStable && (g.nodeOfKey? k).isNone then { g with keys := g.keys ++ [(k, n)] } else g

/-- Append a node and note its place. -/
def appendNode (g : Graph) (node : Node) : Graph :=
  { g with
    nodes := g.nodes.push node
    places := g.places ++ [(node.identity, g.nodes.size)] }

/-- Append the node of a declaration that stands for itself. -/
def addNode (g : Graph) (u : SourceUnit) (id : DeclId) : Graph :=
  let n := g.nodes.size
  let g := g.appendNode (.ofDecl id (u.decl? id))
  (g.claim (u.key id) n).link ⟨root, n, .call⟩

/-- Make sure that a declaration has its node; no declaration has the root. -/
def insert (g : Graph) (u : SourceUnit) (id : Option DeclId) : Graph × Nat :=
  let i := u.resolve id
  match g.nodeOf? i, i with
  | some n, _ => (g, n)
  | none, .root => (g, root)
  | none, .decl d => (g.addNode u d, g.nodes.size)

/-! ## Edges -/

/-- The graph has both nodes. -/
def checkEnds (g : Graph) (source target : Nat) : Except GraphError Unit :=
  if !g.has source then .error (.unknownNode source)
  else if !g.has target then .error (.unknownNode target)
  else .ok ()

/-- Append a call between two nodes of the graph. -/
def addCallee (g : Graph) (caller callee : Nat) : Except GraphError Graph := do
  if callee = root then throw .callsRoot
  g.checkEnds caller callee
  return g.link ⟨caller, callee, .call⟩

/-- Append an edge unless it is there. -/
def linkOnce (g : Graph) (e : Edge) : Graph :=
  if g.edges.contains e then g else g.link e

/-- Note that one node overrides another, both of them nodes of the graph. -/
def addOverrides (g : Graph) (node overridden : Nat) : Except GraphError Graph := do
  g.checkEnds node overridden
  return g.linkOnce ⟨node, overridden, .overrides⟩

/-- Note that one node is overridden by another, both of them nodes of the graph. -/
def addOverriddenBy (g : Graph) (node overrider : Nat) : Except GraphError Graph := do
  g.checkEnds node overrider
  return g.linkOnce ⟨node, overrider, .overriddenBy⟩

/-- Where the edges of one kind lead from a node, oldest first. -/
def targets (g : Graph) (kind : EdgeKind) (n : Nat) : List Nat :=
  (g.edges.toList.filter fun e => e.kind = kind ∧ e.source = n).map Edge.target

def callees (g : Graph) (n : Nat) : List Nat :=
  g.targets .call n

def overrides (g : Graph) (n : Nat) : List Nat :=
  g.targets .overrides n

def overriddenBy (g : Graph) (n : Nat) : List Nat :=
  g.targets .overriddenBy n

/-- Where calls of a node come from, oldest first. -/
def callers (g : Graph) (n : Nat) : List Nat :=
  (g.edges.toList.filter fun e => e.kind = .call ∧ e.target = n).map Edge.source

/-- The calls of a graph, oldest first. -/
def calls (g : Graph) : List Edge :=
  g.edges.toList.filter fun e => e.kind = .call

/-- The number of edges of one kind. -/
def edgeCount (g : Graph) (kind : EdgeKind) : Nat :=
  g.edges.toList.countP fun e => e.kind = kind

end Graph

end CallGraph
