import CallGraph.Graph.Order

/-!
# Text and drawing of a graph
-/

namespace CallGraph.Graph

/-- The line of a node: its label and those of its callees, each followed by a blank. -/
def dumpLine (g : Graph) (n : Nat) : String :=
  "  Function: " ++ g.label n ++ " calls: " ++
    String.join ((g.callees n).map fun c => g.label c ++ " ") ++ "\n"

/-- The nodes in order, a line each. -/
def dump (g : Graph) : String :=
  " --- Call graph Dump --- \n" ++ String.join (g.order.map g.dumpLine)

/-- A character of a quoted label in a drawing. A line break in a label ends a left-justified line. -/
def drawnChar : Char → String
  | '"' => "\\\""
  | '\\' => "\\\\"
  | '\n' => "\\l"
  | c => c.toString

def drawnLabel (s : String) : String :=
  "\"" ++ String.join (s.toList.map drawnChar) ++ "\""

/-- The statement for a node, under the number it has in the drawing. -/
def dotNode (g : Graph) (number n : Nat) : String :=
  s!"    {number} [ label = " ++ drawnLabel (((g.nodes[n]?).map Node.shortLabel).getD "") ++ " ]\n"

/-- The statement for a call between nodes that have numbers. -/
def dotEdge (order : List Nat) (e : Edge) : String :=
  match order.idxOf? e.source, order.idxOf? e.target with
  | some a, some b => s!"    {a} -> {b} [ ]\n"
  | _, _ => ""

/-- The graph of calls for Graphviz: the nodes, numbered in order, then the calls, oldest first. -/
def dot (g : Graph) : String :=
  let order := g.order
  "digraph \x7b\n" ++
    String.join (order.zipIdx.map fun (n, number) => g.dotNode number n) ++
    String.join (g.calls.map (dotEdge order)) ++ "\x7d\n"

end CallGraph.Graph
