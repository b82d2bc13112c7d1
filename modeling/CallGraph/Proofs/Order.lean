import CallGraph.Graph.Order
import CallGraph.Proofs.Postorder
import CallGraph.Proofs.Session
import Mathlib.Data.List.Nodup

/-!
# The order of the nodes of a graph

In a valid graph the root calls every other node, and calls run between nodes. So a traversal of the
calls that starts at the root enters the nodes and nothing else (`Valid.mem_order_iff`), and what holds
of postorders in general gives the law of the order: the root is first, and a caller comes before
what it calls unless calls lead back from there.
-/

namespace CallGraph

namespace Graph

/-- What holds of the order in which the nodes of a graph are listed. -/
structure Ordered (g : Graph) : Prop where
  /-- The order is the one in which a search with two marks finishes the nodes, the last one first. -/
  search : ∃ discovered,
    Search.Leads g.callLinks ⟨[root], [], []⟩ ⟨[], discovered, g.order.reverse⟩
  root_first : g.order.head? = some root
  /-- Every node is listed once, and nothing else is. -/
  node_once : ∀ n, g.order.count n = if g.has n then 1 else 0
  /-- A caller comes before what it calls, unless calls lead back from there. -/
  caller_first : ∀ n m, m ∈ g.callees n →
    [n, m].Sublist g.order ∨ g.callLinks.Reaches m n
  /-- If calls do not run in circles, all callers come before what they call. -/
  acyclic : (∀ n, ¬ Relation.TransGen g.callLinks.Link n n) →
    ∀ n m, m ∈ g.callees n → [n, m].Sublist g.order
  /-- Edges other than calls do not count. -/
  calls_only : ∀ g' : Graph, (g'.edges.toList.filter fun e => e.kind = .call)
    = (g.edges.toList.filter fun e => e.kind = .call) → g'.order = g.order

theorem callees_eq_calls (g : Graph) (n : Nat) :
    g.callees n = (g.calls.filter fun e => e.source = n).map Edge.target := by
  simp only [callees, targets, calls, List.filter_filter, Bool.decide_and, Bool.and_comm]

theorem callers_eq_calls (g : Graph) (n : Nat) :
    g.callers n = (g.calls.filter fun e => e.target = n).map Edge.source := by
  simp only [callers, calls, List.filter_filter, Bool.decide_and, Bool.and_comm]

theorem order_eq_of_calls {g g' : Graph} (h : g'.calls = g.calls) : g'.order = g.order := by
  have htargets : g'.callLinks.targets = g.callLinks.targets := by
    funext n
    show g'.callees n = g.callees n
    rw [callees_eq_calls, callees_eq_calls, h]
  rw [order, order, Links.postorder_congr htargets]

theorem order_nodup (g : Graph) : g.order.Nodup := by
  rw [order, List.nodup_reverse, (g.callLinks.postorder_perm [root]).nodup_iff]
  exact g.callLinks.preorder_nodup [root]

namespace Valid

variable {g : Graph}

theorem reaches_root_iff (hg : g.Valid) {n : Nat} :
    g.callLinks.Reaches root n ↔ g.has n = true := by
  constructor
  · intro hreach
    induction hreach with
    | refl => exact has_iff.mpr hg.root_lt_size
    | tail _ hlink _ => exact (hg.ends _ (mem_targets_iff.mp hlink)).2
  · intro hn
    by_cases hroot : n = root
    · subst hroot
      exact Relation.ReflTransGen.refl
    · have hcall := List.mem_of_find?_eq_some (hg.oldest_call n hroot hn)
      exact Relation.ReflTransGen.single (mem_targets_iff.mpr hcall)

theorem mem_order_iff (hg : g.Valid) {n : Nat} : n ∈ g.order ↔ g.has n = true := by
  rw [order, List.mem_reverse, (g.callLinks.postorder_perm [root]).mem_iff,
    Links.mem_preorder_singleton_iff, hg.reaches_root_iff]

theorem order_perm (hg : g.Valid) : g.order.Perm (List.range g.nodes.size) := by
  refine (List.perm_ext_iff_of_nodup (order_nodup g) List.nodup_range).mpr fun n => ?_
  rw [hg.mem_order_iff, has_iff, List.mem_range]

theorem caller_first (hg : g.Valid) {n m : Nat} (hm : m ∈ g.callees n) :
    [n, m].Sublist g.order ∨ g.callLinks.Reaches m n := by
  have hn : n ∈ g.callLinks.preorder [root] := by
    rw [← (g.callLinks.postorder_perm [root]).mem_iff, ← List.mem_reverse]
    exact hg.mem_order_iff.mpr (hg.ends _ (mem_targets_iff.mp hm)).1
  rcases g.callLinks.postorder_of_link hn hm with hback | hleft
  · exact Or.inr hback
  · exact Or.inl hleft.reverse

theorem ordered (hg : g.Valid) : g.Ordered where
  search := by
    rw [order, List.reverse_reverse]
    exact g.callLinks.postorder_search [root]
  root_first := by
    obtain ⟨before, hbefore⟩ := g.callLinks.postorder_singleton root
    rw [order, hbefore]
    simp
  node_once n := by
    rw [(order_nodup g).count]
    simp only [hg.mem_order_iff]
  caller_first _ _ hm := hg.caller_first hm
  acyclic hacyclic n m hm := by
    rcases hg.caller_first hm with hfirst | hback
    · exact hfirst
    · exact absurd (Relation.TransGen.head' hm hback) (hacyclic n)
  calls_only _ h := order_eq_of_calls h

end Valid

/-- **The order law.** The nodes of every graph of a session are listed with the root first, each
node once, callers before what they call as far as calls do not lead back, whatever edges there are
besides the calls. -/
theorem session_ordered (o : Options) (ops : List Operation) :
    ((ofOptions o).session ops).Ordered :=
  ((session_moves (valid_ofOptions o) ops).valid (valid_ofOptions o)).ordered

end Graph

end CallGraph
