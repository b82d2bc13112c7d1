import CallGraph.Graph.Print
import CallGraph.Proofs.Codes
import CallGraph.Proofs.Order
import Mathlib.Data.Set.Function

/-!
# Drawings of graphs

A drawing has numbered nodes with labels and calls between the numbers, and its text is a row of lines, the
nodes first, then the calls (`Drawing.text`). Labels are quoted in such a way that a label ends at the first
quotation mark that is not part of a pair, and numbers end where their digits end. So the lines can be split
off the text one by one in one way only, and a drawing can be told from its text (`Drawing.text_injective`).

The text of a graph is thereby the text of one drawing, for any graph (`dot_eq_text`). In that drawing a call
is left out if one of its ends has no number. The ends of calls are nodes, and the order from which the
numbers come lists the nodes, each one once, so that nothing is left out and numbers stand for nodes one to
one (`Valid.draws`).
-/

namespace CallGraph

/-- The labels of nodes, which are numbered from nought in this order, and the numbers of callers and
callees. -/
structure Drawing where
  labels : List String
  calls : List (Nat × Nat)

namespace Drawing

/-- A line of the text of a drawing. -/
inductive Line where
  | node (number : Nat) (label : String)
  | call (caller callee : Nat)

namespace Line

def text : Line → String
  | .node number label => s!"    {number} [ label = " ++ Graph.drawnLabel label ++ " ]\n"
  | .call caller callee => s!"    {caller} -> {callee} [ ]\n"

def label? : Line → Option String
  | .node _ label => some label
  | .call _ _ => none

def call? : Line → Option (Nat × Nat)
  | .node _ _ => none
  | .call caller callee => some (caller, callee)

end Line

/-- The nodes in the order of their numbers, then the calls. -/
def lines (v : Drawing) : List Line :=
  (v.labels.zipIdx.map fun x => .node x.2 x.1) ++ v.calls.map fun c => .call c.1 c.2

def text (v : Drawing) : String :=
  "digraph \x7b\n" ++ String.join (v.lines.map Line.text) ++ "\x7d\n"

/-! ## Drawings can be told from their texts -/

theorem filterMap_label?_lines (v : Drawing) : v.lines.filterMap Line.label? = v.labels := by
  simp [lines, List.filterMap_append, List.filterMap_map, Function.comp_def, Line.label?]

theorem filterMap_call?_lines (v : Drawing) : v.lines.filterMap Line.call? = v.calls := by
  simp [lines, List.filterMap_append, List.filterMap_map, Function.comp_def, Line.call?]

theorem eq_of_lines_eq {v w : Drawing} (h : v.lines = w.lines) : v = w := by
  have hlabels := congrArg (List.filterMap Line.label?) h
  have hcalls := congrArg (List.filterMap Line.call?) h
  rw [filterMap_label?_lines, filterMap_label?_lines] at hlabels
  rw [filterMap_call?_lines, filterMap_call?_lines] at hcalls
  obtain ⟨labels, calls⟩ := v
  cases hlabels
  cases hcalls
  rfl

open Mangling Text

theorem toList_drawnChar (c : Char) :
    (Graph.drawnChar c).toList
      = if c = '"' then ['\\', '"'] else if c = '\\' then ['\\', '\\']
        else if c = '\n' then ['\\', 'l'] else [c] := by
  unfold Graph.drawnChar
  split <;> simp_all

theorem drawnChar_splits : Splits (fun _ => True) fun c => (Graph.drawnChar c).toList := by
  intro c d _ _ r s h
  simp only [toList_drawnChar] at h
  -- A pair starts with a backslash, and the backslash itself is written as a pair.
  split_ifs at h <;> grind

theorem quoted_splits : Splits (fun cs : List Char => ∀ c ∈ cs, True) fun cs =>
    cs.flatMap (fun c => (Graph.drawnChar c).toList) ++ ['"'] := by
  refine drawnChar_splits.flatMap fun c _ => ?_
  rw [toList_drawnChar]
  split_ifs with hquote <;> simp_all

namespace Line

/-- The number that a line starts with. -/
def number : Line → Nat
  | .node number _ => number
  | .call caller _ => caller

/-- What follows that number and a blank. -/
def rest : Line → List Char
  | .node _ label => '[' :: (" label = \"".toList
      ++ ((label.toList.flatMap (fun c => (Graph.drawnChar c).toList) ++ ['"']) ++ " ]\n".toList))
  | .call _ callee => '-' :: ("> ".toList ++ (Nat.toDigits 10 callee ++ " [ ]\n".toList))

theorem toList_text (line : Line) :
    line.text.toList = [' ', ' ', ' ', ' '] ++ (Nat.toDigits 10 line.number ++ ' ' :: line.rest) := by
  cases line with
  | node number label =>
      show ("    " ++ toString number ++ " [ label = " ++ Graph.drawnLabel label ++ " ]\n").toList = _
      simp [Graph.drawnLabel, String.toList_join, List.flatMap_map, Line.number, rest]
  | call caller callee =>
      show ("    " ++ toString caller ++ " -> " ++ toString callee ++ " [ ]\n").toList = _
      simp [Line.number, rest]

theorem text_splits : Splits (fun _ => True) fun line => (text line).toList := by
  intro x y _ _ r s h
  obtain ⟨hnumber, hrest⟩ : x.number = y.number ∧ x.rest ++ r = y.rest ++ s := by
    simp only [toList_text, List.append_assoc] at h
    obtain ⟨hnumber, hafter⟩ := decimal_append_inj rfl rfl (List.append_cancel_left h)
    exact ⟨hnumber, (List.cons.inj hafter).2⟩
  cases x with
  | node n label =>
      cases y with
      | node m label' =>
          obtain rfl : n = m := hnumber
          simp only [rest, List.cons_append, List.cons.injEq, true_and, List.append_assoc _ _ r,
            List.append_assoc _ _ s] at hrest
          obtain ⟨hlabel, hend⟩ := quoted_splits (fun _ _ => trivial) (fun _ _ => trivial)
            (List.append_cancel_left hrest)
          obtain rfl : label = label' := String.toList_inj.mp hlabel
          exact ⟨rfl, List.append_cancel_left hend⟩
      | call a b => simp [rest] at hrest
  | call a b =>
      cases y with
      | node m label' => simp [rest] at hrest
      | call c d =>
          obtain rfl : a = c := hnumber
          simp only [rest, List.cons_append, List.cons.injEq, true_and, List.append_assoc] at hrest
          obtain ⟨rfl, hend⟩ := decimal_append_inj rfl rfl (List.append_cancel_left hrest)
          exact ⟨rfl, List.append_cancel_left hend⟩

end Line

/-- The lines can be split off the text of a drawing, up to the bracket, with which no line starts. -/
theorem text_injective : Function.Injective text := by
  intro v w h
  have hlines := Line.text_splits.flatMap (z := '\x7d') fun line _ =>
    ⟨' ', [' ', ' ', ' '] ++ (Nat.toDigits 10 line.number ++ ' ' :: line.rest),
      Line.toList_text line, by decide⟩
  have htext : ∀ v : Drawing, v.text.toList
      = "digraph \x7b\n".toList ++ ((v.lines.flatMap fun line => line.text.toList) ++ ['\x7d'] ++ ['\n']) := by
    intro v
    simp [text, String.toList_join, List.flatMap_map]
  have htoList := congrArg String.toList h
  rw [htext, htext] at htoList
  exact eq_of_lines_eq (hlines (fun _ _ => trivial) (fun _ _ => trivial)
    (List.append_cancel_left htoList)).1

end Drawing

namespace Graph

/-! ## The drawing of a graph -/

/-- The number that a node has in the drawing is its position in the order. -/
def number (g : Graph) (n : Nat) : Nat :=
  g.order.idxOf n

/-- A call in the drawing, if both of its ends are listed. -/
def drawnCall? (g : Graph) (e : Edge) : Option (Nat × Nat) :=
  match g.order.idxOf? e.source, g.order.idxOf? e.target with
  | some a, some b => some (a, b)
  | _, _ => none

def drawing (g : Graph) : Drawing where
  labels := g.order.map fun n => ((g.nodes[n]?).map Node.shortLabel).getD ""
  calls := g.calls.filterMap g.drawnCall?

theorem map_dotNode (g : Graph) :
    (g.order.zipIdx.map fun x => g.dotNode x.2 x.1)
      = (g.drawing.labels.zipIdx.map fun x => Drawing.Line.node x.2 x.1).map Drawing.Line.text := by
  simp [drawing, List.zipIdx_map, Function.comp_def, dotNode, Drawing.Line.text]

/-- What stands for a call in the text is its line, or nothing if it is not drawn. -/
theorem dotEdge_eq (g : Graph) (e : Edge) :
    dotEdge g.order e = ((g.drawnCall? e).map fun c => (Drawing.Line.call c.1 c.2).text).getD "" := by
  unfold dotEdge drawnCall?
  cases g.order.idxOf? e.source <;> cases g.order.idxOf? e.target <;> rfl

theorem join_dotEdge (g : Graph) (es : List Edge) :
    String.join (es.map (dotEdge g.order))
      = String.join (((es.filterMap g.drawnCall?).map fun c => Drawing.Line.call c.1 c.2).map
        Drawing.Line.text) := by
  induction es with
  | nil => rfl
  | cons e es ih =>
      rw [List.map_cons, String.join_cons, ih, dotEdge_eq, List.filterMap_cons]
      cases g.drawnCall? e with
      | none => simp
      | some c => simp

theorem dot_eq_text (g : Graph) : g.dot = g.drawing.text := by
  have hlines : String.join (g.drawing.lines.map Drawing.Line.text)
      = String.join (g.order.zipIdx.map fun x => g.dotNode x.2 x.1)
        ++ String.join (g.calls.map (dotEdge g.order)) := by
    rw [map_dotNode, join_dotEdge, ← String.join_append, ← List.map_append]
    rfl
  rw [Drawing.text, hlines, ← String.append_assoc]
  rfl

end Graph

/-- The drawing shows the graph. -/
structure Drawing.Draws (v : Drawing) (g : Graph) : Prop where
  /-- There is one node for each node of the graph. -/
  size : v.labels.length = g.nodes.size
  /-- Different nodes have different numbers, and no number is left over. -/
  numbers : Set.BijOn g.number {n | g.has n = true} {k | k < v.labels.length}
  /-- The number of a node is its position in the order. -/
  position : ∀ n, g.has n = true → g.order[g.number n]? = some n
  root : g.number Graph.root = 0
  label : ∀ n node, g.nodes[n]? = some node → v.labels[g.number n]? = some node.shortLabel
  /-- The calls are those of the graph, all of them, as often as they stand there, oldest first. -/
  calls : v.calls = (g.edges.toList.filter fun e => e.kind = .call).map
    fun e => (g.number e.source, g.number e.target)

namespace Graph

namespace Valid

variable {g : Graph}

theorem idxOf?_order (hg : g.Valid) {n : Nat} (hn : g.has n = true) :
    g.order.idxOf? n = some (g.number n) :=
  List.findIdx?_eq_some_of_exists ⟨n, hg.mem_order_iff.mpr hn, beq_self_eq_true n⟩

theorem getElem?_number (hg : g.Valid) {n : Nat} (hn : g.has n = true) :
    g.order[g.number n]? = some n :=
  List.getElem?_idxOf (hg.mem_order_iff.mpr hn)

theorem bijOn_number (hg : g.Valid) :
    Set.BijOn g.number {n | g.has n = true} {k | k < g.order.length} := by
  refine ⟨fun n hn => ?_, fun n hn m _ heq => ?_, fun k hk => ?_⟩
  · exact List.idxOf_lt_length_iff.mpr (hg.mem_order_iff.mpr hn)
  · exact (List.idxOf_inj (hg.mem_order_iff.mpr hn)).mp heq
  · refine ⟨g.order[k], hg.mem_order_iff.mp (List.getElem_mem hk), ?_⟩
    exact g.order_nodup.idxOf_getElem k hk

theorem number_root (hg : g.Valid) : g.number root = 0 := by
  obtain ⟨rest, hrest⟩ := List.head?_eq_some_iff.mp hg.ordered.root_first
  rw [number, hrest, List.idxOf_cons_self]

/-- Both ends of a call are listed, so it is drawn. -/
theorem drawnCall?_eq (hg : g.Valid) {e : Edge} (he : e ∈ g.calls) :
    g.drawnCall? e = some (g.number e.source, g.number e.target) := by
  obtain ⟨hsource, htarget⟩ := hg.ends e (List.mem_filter.mp he).1
  simp only [drawnCall?, hg.idxOf?_order hsource, hg.idxOf?_order htarget]

theorem draws (hg : g.Valid) : g.drawing.Draws g where
  size := by
    rw [drawing, List.length_map, hg.order_perm.length_eq, List.length_range]
  numbers := by
    rw [drawing, List.length_map]
    exact hg.bijOn_number
  position _ hn := hg.getElem?_number hn
  root := hg.number_root
  label n node hnode := by
    have hn : g.has n = true := has_iff.mpr (Array.getElem?_eq_some_iff.mp hnode).1
    rw [drawing, List.getElem?_map, hg.getElem?_number hn]
    simp only [Option.map_some, hnode, Option.getD_some]
  calls := by
    show g.calls.filterMap g.drawnCall? = g.calls.map _
    rw [← List.filterMap_eq_map]
    exact List.filterMap_congr fun e he => hg.drawnCall?_eq he

end Valid

/-- **The drawing of a graph shows its calls and nothing else.** For every graph of a session there is one
drawing that has the text of the graph, and it shows the graph: its nodes are those of the graph with their
short labels, numbered by their positions in the order, the root being the first, and its calls are the calls
of the graph in the order in which they were made. -/
theorem session_dot_draws (o : Options) (ops : List Operation) :
    let g := (ofOptions o).session ops
    ∃ v : Drawing, v.Draws g ∧ ∀ w : Drawing, g.dot = w.text ↔ w = v := by
  intro g
  have hg : g.Valid := (session_moves (valid_ofOptions o) ops).valid (valid_ofOptions o)
  refine ⟨g.drawing, hg.draws, fun w => ?_⟩
  rw [dot_eq_text]
  exact Drawing.text_injective.eq_iff.trans eq_comm

end Graph

end CallGraph
