import CallGraph.Graph
import CallGraph.Traversal

/-!
# The order of nodes

Nodes are listed in reverse postorder of the calls, starting at the root: a node comes before the
nodes it calls, as far as calls do not run in circles.
-/

namespace CallGraph.Graph

def callLinks (g : Graph) : Links Nat where
  targets := g.callees
  sources := g.edges.toList.map Edge.source
  mem_sources n h := by
    obtain ⟨t, ht⟩ := List.exists_mem_of_ne_nil _ h
    obtain ⟨e, he, rfl⟩ := List.mem_map.1 ht
    have := List.mem_filter.1 he
    refine List.mem_map.2 ⟨e, this.1, ?_⟩
    have h := this.2
    simp only [decide_eq_true_eq] at h
    exact h.2

def order (g : Graph) : List Nat :=
  (g.callLinks.postorder [root]).reverse

end CallGraph.Graph
