import CallGraph.Proofs.Order
import CallGraph.Proofs.Overrides

/-!
# Linking methods leaves the calls alone

Methods are linked after all bodies have been put in, and on the way nodes are made for methods that
no body has met. A node brings a call with it, so the second pass does add calls: one by the root for
each node that it makes, and no other (`Grows.calls`). All the rest of what it adds are edges of the
two kinds that stand for overriding.

`Grows` says this of two graphs. It is kept by the two changes of which linking is made, an appended
node and an edge that is no call, and it is transitive, so it goes over to the whole pass
(`Grows.linkUnit`). The graph that the pass starts from is the one that is built without it, but for
the options that it carries along (`build_linkOverrides`).
-/

namespace CallGraph

namespace Graph

/-! ## The same graph under other options -/

/-- The graph with options that ask for methods to be linked, or do not. -/
def linking (g : Graph) (b : Bool) : Graph :=
  { g with options := { g.options with linkOverrides := b } }

theorem claim_linking (g : Graph) (b : Bool) (k : Key) (n : Nat) :
    (g.linking b).claim k n = (g.claim k n).linking b := by
  unfold claim
  rw [apply_ite (linking · b)]
  rfl

theorem addNode_linking (g : Graph) (b : Bool) (u : SourceUnit) (d : DeclId) :
    (g.linking b).addNode u d = (g.addNode u d).linking b :=
  congrArg (link · ⟨root, g.nodes.size, .call⟩)
    (claim_linking (g.appendNode (.ofDecl d (u.decl? d))) b (u.key d) g.nodes.size)

theorem insert_linking (g : Graph) (b : Bool) (u : SourceUnit) (id : DeclId) :
    (g.linking b).insert u (some id)
      = ((g.insert u (some id)).1.linking b, (g.insert u (some id)).2) := by
  have hnode : ∀ i, (g.linking b).nodeOf? i = g.nodeOf? i := fun _ => rfl
  obtain ⟨d, hd⟩ := u.exists_resolve_eq id
  simp only [insert, hd, hnode]
  cases g.nodeOf? (.decl d) with
  | some n => rfl
  | none => exact congrArg (·, g.nodes.size) (addNode_linking g b u d)

theorem addCall_linking (g : Graph) (b : Bool) (u : SourceUnit) (c : Call) :
    (g.linking b).addCall u c = (g.addCall u c).linking b := by
  simp only [addCall, insert_linking]
  rfl

/-- What is found in a body does not depend on whether methods are linked. -/
theorem addDecl_linking (g : Graph) (b : Bool) (u : SourceUnit) (id : DeclId) :
    (g.linking b).addDecl u id = ((g.addDecl u id).1.linking b, (g.addDecl u id).2) := by
  have hcalls : (u.callsOf (g.linking b).options id).foldl (fun g c => g.addCall u c)
      ((g.linking b).insert u (some id)).1
        = ((u.callsOf g.options id).foldl (fun g c => g.addCall u c)
            (g.insert u (some id)).1).linking b := by
    rw [insert_linking]
    exact List.foldl_hom (linking · b) fun g c => addCall_linking g b u c
  have hfound : u.statsOf (g.linking b).options id = u.statsOf g.options id := rfl
  simp only [addDecl, hcalls, hfound]
  rfl

theorem addDecls_linking (g : Graph) (b : Bool) (u : SourceUnit) (ids : List DeclId) :
    ((g.linking b).addDecls u ids).1 = (g.addDecls u ids).1.linking b := by
  rw [addDecls_fst, addDecls_fst]
  exact List.foldl_hom (linking · b) fun g id => congrArg Prod.fst (addDecl_linking g b u id)

/-- A graph with its methods linked is the graph without, with the methods linked. -/
theorem build_linkOverrides (o : Options) (u : SourceUnit) :
    build { o with linkOverrides := true } u
      = (((build { o with linkOverrides := false } u).linking true).linkUnit u).1 :=
  congrArg (fun g : Graph => (g.linkUnit u).1)
    (addDecls_linking (ofOptions { o with linkOverrides := false }) true u (u.sweep o))

/-! ## What linking adds -/

/-- One graph comes of the other by linking: nodes and edges are appended, and as for calls, one by the
root for each new node. -/
structure Grows (g g' : Graph) : Prop where
  nodes : g.nodes.toList <+: g'.nodes.toList
  edges : g.edges.toList <+: g'.edges.toList
  calls : g'.calls = g.calls
    ++ (List.range' g.nodes.size (g'.nodes.size - g.nodes.size)).map fun n => ⟨root, n, .call⟩

namespace Grows

theorem size_le {g g' : Graph} (h : g.Grows g') : g.nodes.size ≤ g'.nodes.size :=
  h.nodes.length_le

theorem refl (g : Graph) : g.Grows g :=
  ⟨List.prefix_refl _, List.prefix_refl _, by simp⟩

theorem trans {g g' g'' : Graph} (h : g.Grows g') (h' : g'.Grows g'') : g.Grows g'' where
  nodes := h.nodes.trans h'.nodes
  edges := h.edges.trans h'.edges
  calls := by
    have hle := h.size_le
    have hle' := h'.size_le
    have hplaces : List.range' g.nodes.size (g''.nodes.size - g.nodes.size)
        = List.range' g.nodes.size (g'.nodes.size - g.nodes.size)
          ++ List.range' g'.nodes.size (g''.nodes.size - g'.nodes.size) := by
      conv_rhs => rw [← Nat.add_sub_cancel' hle, Nat.add_sub_cancel_left, List.range'_append_1]
      congr 1
      omega
    rw [h'.calls, h.calls, hplaces, List.map_append, List.append_assoc]

theorem addNode (g : Graph) (u : SourceUnit) (d : DeclId) : g.Grows (g.addNode u d) where
  nodes := by
    rw [addNode_nodes, Array.toList_push]
    exact List.prefix_append _ _
  edges := by
    rw [addNode_edges]
    exact List.prefix_append _ _
  calls := by
    rw [Graph.calls, addNode_edges, addNode_nodes, Array.size_push, Nat.add_sub_cancel_left,
      List.filter_append]
    rfl

theorem linkOnce (g : Graph) {e : Edge} (hk : e.kind ≠ .call) : g.Grows (g.linkOnce e) := by
  rcases linkOnce_eq g e with ⟨-, heq⟩ | ⟨-, heq⟩
  · rw [heq]
    exact refl g
  · rw [heq]
    refine ⟨List.prefix_refl _, ?_, ?_⟩
    · rw [link_edges]
      exact List.prefix_append _ _
    · rw [Graph.calls, link_edges, List.filter_append, link_nodes]
      simp [hk, Graph.calls]

theorem insert (g : Graph) (u : SourceUnit) (id : DeclId) : g.Grows (g.insert u (some id)).1 := by
  rcases insert_eq g u id with ⟨n, -, heq⟩ | ⟨d, -, -, heq⟩
  · rw [heq]
    exact refl g
  · rw [heq]
    exact addNode g u d

theorem foldl {β : Type} {f : Graph → β → Graph} (hf : ∀ (g : Graph) (x : β), g.Grows (f g x))
    (xs : List β) (g : Graph) : g.Grows (xs.foldl f g) := by
  induction xs generalizing g with
  | nil => exact refl g
  | cons x xs ih => exact (hf g x).trans (ih (f g x))

theorem linkPair (g : Graph) (u : SourceUnit) (method overridden : DeclId) :
    g.Grows (g.linkPair u method overridden) := by
  have hmethod := insert g u method
  have hoverridden := insert (g.insert u (some method)).1 u overridden
  unfold Graph.linkPair
  refine ((hmethod.trans hoverridden).trans ?_).trans (linkOnce _ (by simp))
  exact linkOnce _ (by simp)

theorem linkMethod (g : Graph) (u : SourceUnit) (id : DeclId) :
    g.Grows (g.linkMethod u id).1 := by
  unfold Graph.linkMethod
  split
  · exact (insert g u id).trans (foldl (fun g m => linkPair g u id m) _ _)
  · exact refl g

theorem linkUnit (g : Graph) (u : SourceUnit) : g.Grows (g.linkUnit u).1 := by
  rw [linkUnit_fst]
  exact foldl (fun g id => linkMethod g u id) u.walk g

/-! ## The nodes that linking makes -/

variable {g g' : Graph}

/-- A new node calls nothing: old calls do not come from it, and new ones come from the root. -/
theorem callees_eq_nil (h : g.Grows g') (hg : g.Valid) {n : Nat} (hn : g.nodes.size ≤ n) :
    g'.callees n = [] := by
  have hroot := hg.root_lt_size
  rw [callees_eq_calls, h.calls, List.map_eq_nil_iff, List.filter_eq_nil_iff]
  intro e he hsource
  rw [decide_eq_true_eq] at hsource
  rcases List.mem_append.mp he with hold | hnew
  · have hlt := has_iff.mp (hg.ends e (List.mem_filter.mp hold).1).1
    omega
  · obtain ⟨m, -, rfl⟩ := List.mem_map.mp hnew
    simp only at hsource
    omega

/-- The root is the only caller of a new node. -/
theorem callers_eq_root (h : g.Grows g') (hg : g.Valid) {n : Nat} (hn : g.nodes.size ≤ n)
    (hhas : g'.has n = true) : g'.callers n = [root] := by
  have hold : (g.calls.filter fun e => e.target = n) = [] := by
    rw [List.filter_eq_nil_iff]
    intro e he htarget
    rw [decide_eq_true_eq] at htarget
    have hlt := has_iff.mp (hg.ends e (List.mem_filter.mp he).1).2
    omega
  have hplace : n ∈ List.range' g.nodes.size (g'.nodes.size - g.nodes.size) := by
    have hlt := has_iff.mp hhas
    rw [List.mem_range'_1]
    omega
  rw [callers_eq_calls, h.calls, List.filter_append, hold, List.nil_append, List.filter_map]
  have honce := List.count_eq_one_of_mem (List.nodup_range' 1) hplace
  simp only [Function.comp_def, List.filter_eq, honce]
  rfl

theorem calls_of_edges (h : g.Grows g') {further : List Edge}
    (hedges : g'.edges.toList = g.edges.toList ++ further) :
    (further.filter fun e => e.kind = .call)
      = (List.range' g.nodes.size (g'.nodes.size - g.nodes.size)).map fun n => ⟨root, n, .call⟩ := by
  have hcalls := h.calls
  rw [Graph.calls, Graph.calls, hedges, List.filter_append] at hcalls
  exact List.append_cancel_left hcalls

end Grows

/-- Without linking all edges are calls. -/
theorem kind_build_eq_call {o : Options} {u : SourceUnit} (ho : o.linkOverrides = false) {e : Edge}
    (he : e ∈ (build o u).edges.toList) : e.kind = .call := by
  by_contra hk
  obtain ⟨hs, ht⟩ := (build_valid o u).ends e he
  obtain ⟨i, hi⟩ := exists_identity?_of_has hs
  obtain ⟨j, hj⟩ := exists_identity?_of_has ht
  have hlinked : (build o u).Linked e.kind i j := ⟨e, he, rfl, hi, hj⟩
  have hon := ((linked_build hk).mp hlinked).1
  rw [ho] at hon
  cases hon

/-- **Linking methods leaves the calls alone.** The graph without it is the first part of the graph with
it, in its nodes and in its edges. Of the further edges the calls are those of the further nodes by the
root, one each, and the others stand for overriding. A further node calls nothing and only the root
calls it. The counts are the same, and without linking nothing overrides. -/
theorem build_link (o : Options) (u : SourceUnit) :
    let on := build { o with linkOverrides := true } u
    let off := build { o with linkOverrides := false } u
    off.nodes.toList <+: on.nodes.toList
    ∧ (∃ further, on.edges.toList = off.edges.toList ++ further
      ∧ (further.filter fun e => e.kind = .call)
        = (List.range' off.nodes.size (on.nodes.size - off.nodes.size)).map fun n => ⟨root, n, .call⟩)
    ∧ (∀ n, off.nodes.size ≤ n → on.has n = true → on.callees n = [] ∧ on.callers n = [root])
    ∧ on.stats = off.stats
    ∧ ∀ e ∈ off.edges.toList, e.kind = .call := by
  intro on off
  have hgrows : (off.linking true).Grows on := by
    show (off.linking true).Grows (build { o with linkOverrides := true } u)
    rw [build_linkOverrides]
    exact Grows.linkUnit (off.linking true) u
  have hvalid : (off.linking true).Valid := (build_valid _ u).congr rfl rfl rfl rfl
  obtain ⟨further, hfurther⟩ := hgrows.edges
  refine ⟨hgrows.nodes, ⟨further, hfurther.symm, hgrows.calls_of_edges hfurther.symm⟩,
    fun n hn hhas => ?_, ?_, fun e he => kind_build_eq_call rfl he⟩
  · exact ⟨hgrows.callees_eq_nil hvalid hn, hgrows.callers_eq_root hvalid hn hhas⟩
  · have hon : on.stats = u.sweepStats o := build_stats _ u
    have hoff : off.stats = u.sweepStats o := build_stats _ u
    rw [hon, hoff]

end Graph

end CallGraph
