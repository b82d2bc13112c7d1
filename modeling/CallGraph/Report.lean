import CallGraph.Build
import CallGraph.Graph.Print
import CallGraph.Json.Basic

/-!
# Reports

What can be asked of the graphs of several units: counts, texts, drawings, the nodes of a graph with
all that is known of them, what surrounds a function, and the keys that link units.
-/

namespace CallGraph

/-- A unit with its graph. -/
structure UnitGraph where
  unit : SourceUnit
  graph : Graph

def UnitGraph.build (o : Options) (u : SourceUnit) : UnitGraph :=
  ⟨u, .build o u⟩

/-- The counts of a unit. -/
structure Summary where
  unit : String
  nodes : Nat
  calls : Nat
  overridePairs : Nat
  stats : Stats
  deriving Repr, DecidableEq

/-- What is known of a node. The root has no key. -/
structure NodeReport where
  label : String
  kind : Option DeclKind
  key : Option Key
  callees : List String
  overrides : List String
  overriddenBy : List String
  deriving Repr, DecidableEq

structure GraphReport where
  unit : String
  stats : Stats
  nodes : List NodeReport
  deriving Repr, DecidableEq

/-- What surrounds a function. -/
structure FunctionReport where
  unit : String
  function : String
  callees : List String
  callers : List String
  overrides : List String
  overriddenBy : List String
  deriving Repr, DecidableEq

structure KeyEntry where
  unit : String
  key : String
  label : String
  deriving Repr, DecidableEq

/-- Entries are listed by their texts. -/
def KeyEntry.le (a b : KeyEntry) : Bool :=
  a.key ≤ b.key

namespace UnitGraph

def summary (g : UnitGraph) : Summary where
  unit := g.unit.name
  nodes := g.graph.nodes.size
  calls := g.graph.edgeCount .call
  overridePairs := g.graph.edgeCount .overrides
  stats := g.graph.stats

def nodeReport (g : UnitGraph) (n : Nat) : NodeReport where
  label := g.graph.label n
  kind := (g.graph.nodes[n]?).bind Node.kind
  key :=
    match g.graph.identity? n with
    | some (.decl id) => some (g.unit.key id)
    | _ => none
  callees := (g.graph.callees n).map g.graph.label
  overrides := (g.graph.overrides n).map g.graph.label
  overriddenBy := (g.graph.overriddenBy n).map g.graph.label

/-- The nodes in order. -/
def report (g : UnitGraph) : GraphReport where
  unit := g.unit.name
  stats := g.graph.stats
  nodes := g.graph.order.map g.nodeReport

/-- What surrounds the node at a place. -/
def functionReport (g : UnitGraph) (n : Nat) : FunctionReport where
  unit := g.unit.name
  function := g.graph.label n
  callees := (g.graph.callees n).map g.graph.label
  callers := (g.graph.callers n).map g.graph.label
  overrides := (g.graph.overrides n).map g.graph.label
  overriddenBy := (g.graph.overriddenBy n).map g.graph.label

/-- The first node with a name and what surrounds it. -/
def functionReport? (g : UnitGraph) (name : String) : Option FunctionReport :=
  (g.graph.nodeOfName? name).map g.functionReport

/-- What is listed for a key and the node that owns it. -/
def keyEntry (g : UnitGraph) (x : Key × Nat) : KeyEntry :=
  ⟨g.unit.name, x.1.text, g.graph.label x.2⟩

/-- The listing of keys that come in some order: sorted by their texts, equal texts as they come. -/
def listKeys (g : UnitGraph) (keys : List (Key × Nat)) : List KeyEntry :=
  (keys.map g.keyEntry).mergeSort KeyEntry.le

def keyEntries (g : UnitGraph) : List KeyEntry :=
  g.listKeys g.graph.keys

end UnitGraph

/-- Why a question has no answer. -/
inductive QueryError where
  | notFound (function : String)
  deriving Repr, DecidableEq

def QueryError.message : QueryError → String
  | .notFound function => "Function not found: " ++ function

/-- The graphs of some units, in order. -/
abbrev UnitGraphs := List UnitGraph

namespace UnitGraphs

def build (o : Options) (us : List SourceUnit) : UnitGraphs :=
  us.map (UnitGraph.build o)

def summaries (gs : UnitGraphs) : List Summary :=
  gs.map UnitGraph.summary

def dump (gs : UnitGraphs) : String :=
  String.join (gs.map fun g => g.graph.dump)

def dot (gs : UnitGraphs) : String :=
  String.join (gs.map fun g => g.graph.dot)

def reports (gs : UnitGraphs) : List GraphReport :=
  gs.map UnitGraph.report

/-- What surrounds the function of this name in every unit that has it; it is an error if none has. -/
def functionReports (gs : UnitGraphs) (name : String) : Except QueryError (List FunctionReport) :=
  match gs.filterMap (·.functionReport? name) with
  | [] => .error (.notFound name)
  | found => .ok found

def keyEntries (gs : UnitGraphs) : List KeyEntry :=
  gs.flatMap UnitGraph.keyEntries

end UnitGraphs

/-! ## JSON

The keys of every object are in ascending order. -/

def Stats.toJson (s : Stats) : Json :=
  let count (n : Nat) : Json := .num (.natural n)
  .object
    [("block_call_edges", count s.blockCalls),
      ("bodies_walked", count s.bodiesWalked),
      ("call_sites", count s.callSites),
      ("function_pointer_edges", count s.pointerCalls),
      ("message_call_edges", count s.messageCalls)]

/-- Overriding is left out where there is none. -/
def NodeReport.toJson (n : NodeReport) : Json :=
  let texts (l : List String) : Json := .array (l.map Json.str)
  let unlessEmpty (name : String) (l : List String) : List (String × Json) :=
    if l.isEmpty then [] else [(name, texts l)]
  .object <|
    [("callees", texts n.callees),
      ("key", (n.key.map fun k => Json.str k.text).getD .null),
      ("kind", (n.kind.map fun k => Json.str k.title).getD .null),
      ("label", .str n.label)] ++
    unlessEmpty "overridden_by" n.overriddenBy ++
    unlessEmpty "overrides" n.overrides

def GraphReport.toJson (r : GraphReport) : Json :=
  .object
    [("nodes", .array (r.nodes.map NodeReport.toJson)),
      ("stats", r.stats.toJson),
      ("unit", .str r.unit)]

end CallGraph
