import CallGraph.Proofs.Order
import CallGraph.Proofs.Overrides
import CallGraph.Report
import Mathlib.Algebra.BigOperators.Group.Finset.Basic

/-!
# The reports of a unit agree

The counts of a graph are taken from its nodes and edges as they are stored. Its report and its text go
through the nodes in order instead and say of each one where its edges lead. Both come to the same
because the order is a permutation of all nodes (`Valid.order_perm`), so that every edge is met once,
at the node it comes from (`Valid.sum_length_targets`). Overriding is stored in both directions, and as
each direction is a set of edges and the other's converse, there are as many of one as of the other
(`edgeCount_overriddenBy_build`).

A text of a graph can be had from its report alone: a line for each node, with the labels that the
report gives.
-/

namespace CallGraph

namespace Graph

variable {g : Graph}

/-! ## Edges, node by node -/

/-- The nodes that the edges of a kind come from, oldest edge first. -/
def sources (g : Graph) (kind : EdgeKind) : List Nat :=
  (g.edges.toList.filter fun e => e.kind = kind).map Edge.source

theorem length_targets (g : Graph) (kind : EdgeKind) (n : Nat) :
    (g.targets kind n).length = (g.sources kind).count n := by
  rw [targets, sources, List.length_map, ← List.countP_eq_length_filter, List.count_eq_countP,
    List.countP_map, List.countP_filter]
  refine List.countP_congr fun e _ => ?_
  simp [and_comm]

/-- Every edge is met once, at the node that it comes from. -/
theorem Valid.sum_length_targets (hg : g.Valid) (kind : EdgeKind) :
    (g.order.map fun n => (g.targets kind n).length).sum = g.edgeCount kind := by
  have hsources : ∀ n ∈ (g.sources kind : Multiset Nat), n ∈ g.order.toFinset := by
    intro n hn
    obtain ⟨e, he, rfl⟩ := List.mem_map.mp (Multiset.mem_coe.mp hn)
    rw [List.mem_toFinset, hg.mem_order_iff]
    exact (hg.ends e (List.mem_filter.mp he).1).1
  calc (g.order.map fun n => (g.targets kind n).length).sum
      = (g.order.map fun n => (g.sources kind : Multiset Nat).count n).sum := by
        simp only [length_targets, Multiset.coe_count]
    _ = ∑ n ∈ g.order.toFinset, (g.sources kind : Multiset Nat).count n :=
        (List.sum_toFinset _ (order_nodup g)).symm
    _ = (g.sources kind).length := Multiset.sum_count_eq_card hsources
    _ = g.edgeCount kind := by
        rw [sources, List.length_map, ← List.countP_eq_length_filter, edgeCount]

/-! ## Overriding in both directions -/

theorem mem_overridesEdges_build {o : Options} {u : SourceUnit} {n m : Nat} :
    ⟨m, n, .overriddenBy⟩ ∈ (build o u).edges.toList
      ↔ ⟨n, m, .overrides⟩ ∈ (build o u).edges.toList := by
  rw [← mem_targets_iff, ← mem_targets_iff]
  exact mem_overriddenBy_build

theorem edgeCount_overriddenBy_build (o : Options) (u : SourceUnit) :
    (build o u).edgeCount .overriddenBy = (build o u).edgeCount .overrides := by
  have hg := build_valid o u
  have hover := hg.edges_nodup (by simp : EdgeKind.overrides ≠ .call)
  have hunder := hg.edges_nodup (by simp : EdgeKind.overriddenBy ≠ .call)
  -- Turned round, the edges of one direction are those of the other.
  have hturn : ((build o u).edges.toList.filter fun e => e.kind = .overriddenBy).map
      (fun e => (⟨e.target, e.source, .overrides⟩ : Edge))
        |>.Perm ((build o u).edges.toList.filter fun e => e.kind = .overrides) := by
    refine (List.perm_ext_iff_of_nodup (List.Nodup.map_on ?_ hunder) hover).mpr ?_
    · intro e he f hf heq
      have hek := of_decide_eq_true (List.mem_filter.mp he).2
      have hfk := of_decide_eq_true (List.mem_filter.mp hf).2
      cases e
      cases f
      simp_all
    · rintro ⟨n, m, kind⟩
      simp only [List.mem_map, List.mem_filter, decide_eq_true_eq, Edge.mk.injEq]
      constructor
      · rintro ⟨⟨_, _, _⟩, ⟨he, rfl⟩, rfl, rfl, rfl⟩
        exact ⟨mem_overridesEdges_build.mp he, rfl⟩
      · rintro ⟨he, rfl⟩
        exact ⟨⟨m, n, .overriddenBy⟩, ⟨mem_overridesEdges_build.mpr he, rfl⟩, rfl, rfl, rfl⟩
  have hlength := hturn.length_eq
  rwa [List.length_map, ← List.countP_eq_length_filter, ← List.countP_eq_length_filter] at hlength

end Graph

/-! ## Reports -/

/-- The counts are those of the report. -/
structure Summary.Fits (s : Summary) (r : GraphReport) : Prop where
  unit : r.unit = s.unit
  stats : r.stats = s.stats
  nodes : r.nodes.length = s.nodes
  calls : (r.nodes.map fun n => n.callees.length).sum = s.calls
  overrides : (r.nodes.map fun n => n.overrides.length).sum = s.overridePairs
  overriddenBy : (r.nodes.map fun n => n.overriddenBy.length).sum = s.overridePairs

/-- The line of a node in a text: its label and those of its callees, each followed by a blank. -/
def NodeReport.line (n : NodeReport) : String :=
  "  Function: " ++ n.label ++ " calls: " ++ String.join (n.callees.map fun c => c ++ " ") ++ "\n"

/-- The text of a graph: a header, then the lines of its nodes. -/
def GraphReport.text (r : GraphReport) : String :=
  " --- Call graph Dump --- \n" ++ String.join (r.nodes.map NodeReport.line)

namespace UnitGraph

/-- What a report says about edges adds up to their number. -/
theorem sum_length_report {g : UnitGraph} (hg : g.graph.Valid) (kind : EdgeKind)
    {labels : NodeReport → List String}
    (hlabels : ∀ n, labels (g.nodeReport n) = (g.graph.targets kind n).map g.graph.label) :
    (g.report.nodes.map fun r => (labels r).length).sum = g.graph.edgeCount kind := by
  rw [← hg.sum_length_targets, report, List.map_map]
  refine congrArg List.sum (List.map_congr_left fun n _ => ?_)
  rw [Function.comp_apply, hlabels, List.length_map]

theorem fits_build (o : Options) (u : SourceUnit) :
    (UnitGraph.build o u).summary.Fits (UnitGraph.build o u).report where
  unit := rfl
  stats := rfl
  nodes := by
    have hlength := (Graph.build_valid o u).order_perm.length_eq
    rw [List.length_range] at hlength
    rw [report, List.length_map]
    exact hlength
  calls := sum_length_report (Graph.build_valid o u) .call fun _ => rfl
  overrides := sum_length_report (Graph.build_valid o u) .overrides fun _ => rfl
  overriddenBy := by
    rw [sum_length_report (Graph.build_valid o u) .overriddenBy fun _ => rfl]
    exact Graph.edgeCount_overriddenBy_build o u

theorem line_nodeReport (g : UnitGraph) (n : Nat) :
    (g.nodeReport n).line = g.graph.dumpLine n := by
  have hcallees : ((g.nodeReport n).callees.map fun c => c ++ " ")
      = (g.graph.callees n).map fun c => g.graph.label c ++ " " := List.map_map
  exact congrArg (fun l => "  Function: " ++ g.graph.label n ++ " calls: " ++ String.join l ++ "\n")
    hcallees

theorem text_report (g : UnitGraph) : g.report.text = g.graph.dump := by
  have hlines : g.report.nodes.map NodeReport.line = g.graph.order.map g.graph.dumpLine := by
    rw [report, List.map_map]
    exact List.map_congr_left fun n _ => g.line_nodeReport n
  exact congrArg (fun l => " --- Call graph Dump --- \n" ++ String.join l) hlines

end UnitGraph

namespace UnitGraphs

/-- **The reports of units agree.** Each unit has one summary and one report, in the order of the units.
The nodes of the report are as many as the summary says, and so are, all nodes together, the callees,
the methods overridden and the methods that override. The text of the units is made of the texts of the
reports, one after the other. -/
theorem reports_build_fit (o : Options) (us : List SourceUnit) :
    let gs := UnitGraphs.build o us
    gs.reports.map GraphReport.unit = us.map SourceUnit.name
    ∧ List.Forall₂ Summary.Fits gs.summaries gs.reports
    ∧ gs.map (fun g => g.graph.dump) = gs.reports.map GraphReport.text
    ∧ gs.dump = String.join (gs.reports.map GraphReport.text) := by
  intro gs
  have htexts : gs.map (fun g => g.graph.dump) = gs.reports.map GraphReport.text := by
    rw [reports, List.map_map]
    exact List.map_congr_left fun g _ => g.text_report.symm
  refine ⟨?_, ?_, htexts, ?_⟩
  · simp only [gs, reports, build, List.map_map]
    rfl
  · simp only [gs, summaries, reports, build, List.map_map, List.forall₂_map_left_iff,
      List.forall₂_map_right_iff]
    exact List.forall₂_same.mpr fun u _ => UnitGraph.fits_build o u
  · rw [dump, htexts]

end UnitGraphs

end CallGraph
