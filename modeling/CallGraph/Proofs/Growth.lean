import CallGraph.Proofs.Inclusion
import CallGraph.Proofs.Linking
import CallGraph.Proofs.Repetition

/-!
# Graphs only grow

Whoever holds the place of a node or of an edge can go on using it, whatever is done to the graph. `Extends`
says this of two graphs: nodes and edges of the first stand at the same places in the second, what was found
by identity or by key is still found there, the options are the same and no count has become smaller.

Units may change between operations, so a declaration can come again under another name, with another key or
with another identity. This does no harm, because an operation does not go back to what is there. It is
enough to look at the four moves (`Move.extends`), and all operations are made of them. Edges between given
places are the only thing that can be refused, and then nothing has happened (`Refuses`).
-/

namespace CallGraph

namespace Stats.Within

theorem refl (s : Stats) : s.Within s :=
  ⟨Nat.le_refl _, Nat.le_refl _, Nat.le_refl _, Nat.le_refl _, Nat.le_refl _⟩

theorem trans {s s' s'' : Stats} (h : s.Within s') (h' : s'.Within s'') : s.Within s'' where
  bodiesWalked := h.bodiesWalked.trans h'.bodiesWalked
  callSites := h.callSites.trans h'.callSites
  blockCalls := h.blockCalls.trans h'.blockCalls
  messageCalls := h.messageCalls.trans h'.messageCalls
  pointerCalls := h.pointerCalls.trans h'.pointerCalls

theorem add_right (s s' : Stats) : s.Within (s + s') :=
  ⟨Nat.le_add_right _ _, Nat.le_add_right _ _, Nat.le_add_right _ _, Nat.le_add_right _ _,
    Nat.le_add_right _ _⟩

end Stats.Within

namespace Graph

/-! ## What a move leaves as it is -/

namespace Move

variable {g g' : Graph}

theorem nodes_prefix (h : Move g g') : g.nodes.toList <+: g'.nodes.toList := by
  cases h with
  | node u hd => exact (Grows.addNode g u _).nodes
  | call => exact List.prefix_refl _
  | link => rw [linkOnce_nodes]
  | count => exact List.prefix_refl _

/-- What was found by its identity is found at its old place. -/
theorem nodeOf?_eq_some (h : Move g g') {i : Identity} {n : Nat} (hn : g.nodeOf? i = some n) :
    g'.nodeOf? i = some n := by
  cases h with
  | node u hd => rw [nodeOf?_addNode, hn, Option.some_or]
  | call => exact hn
  | link =>
      rw [nodeOf?, linkOnce_places]
      exact hn
  | count => exact hn

/-- A key keeps its owner. -/
theorem nodeOfKey?_eq_some (h : Move g g') {k : Key} {n : Nat} (hn : g.nodeOfKey? k = some n) :
    g'.nodeOfKey? k = some n := by
  cases h with
  | @node u d hd =>
      rcases addNode_keys g u d with hkeys | ⟨-, -, hkeys⟩
      · rw [nodeOfKey?, hkeys]
        exact hn
      · -- The new owner stands behind all others, so the first entry of a key stays the first one.
        rw [nodeOfKey?, hkeys, List.lookup_append]
        exact Option.or_eq_some_iff.mpr (Or.inl hn)
  | call => exact hn
  | link =>
      rw [nodeOfKey?, linkOnce_keys]
      exact hn
  | count => exact hn

theorem stats_within (h : Move g g') : g.stats.Within g'.stats := by
  cases h with
  | node u hd =>
      rw [addNode_stats]
      exact .refl _
  | call => exact .refl _
  | link =>
      rw [linkOnce_stats]
      exact .refl _
  | count s => exact .add_right _ _

end Move

/-! ## Graphs that extend others -/

/-- The second graph has all that the first one has, and has it at the same places. -/
structure Extends (g g' : Graph) : Prop where
  nodes : g.nodes.toList <+: g'.nodes.toList
  edges : g.edges.toList <+: g'.edges.toList
  /-- The table of identities has its old entries. -/
  nodeOf? : ∀ i n, g.nodeOf? i = some n → g'.nodeOf? i = some n
  /-- The table of keys has its old entries. -/
  nodeOfKey? : ∀ k n, g.nodeOfKey? k = some n → g'.nodeOfKey? k = some n
  options : g'.options = g.options
  /-- No counter has gone back. -/
  stats : g.stats.Within g'.stats

namespace Extends

theorem refl (g : Graph) : g.Extends g where
  nodes := List.prefix_refl _
  edges := List.prefix_refl _
  nodeOf? _ _ h := h
  nodeOfKey? _ _ h := h
  options := rfl
  stats := .refl _

theorem trans {g g' g'' : Graph} (h : g.Extends g') (h' : g'.Extends g'') : g.Extends g'' where
  nodes := h.nodes.trans h'.nodes
  edges := h.edges.trans h'.edges
  nodeOf? i n hn := h'.nodeOf? i n (h.nodeOf? i n hn)
  nodeOfKey? k n hn := h'.nodeOfKey? k n (h.nodeOfKey? k n hn)
  options := h'.options.trans h.options
  stats := h.stats.trans h'.stats

/-- A node that was there is there, at the same place and with the same names. -/
theorem node {g g' : Graph} (h : g.Extends g') {n : Nat} {node : Node} (hn : g.nodes[n]? = some node) :
    g'.nodes[n]? = some node := by
  obtain ⟨added, hadded⟩ := h.nodes
  rw [← Array.getElem?_toList] at hn ⊢
  rw [← hadded, List.getElem?_append_left (List.getElem?_eq_some_iff.mp hn).1, hn]

end Extends

theorem Move.extends {g g' : Graph} (h : Move g g') : g.Extends g' where
  nodes := h.nodes_prefix
  edges := h.edges_prefix
  nodeOf? _ _ hn := h.nodeOf?_eq_some hn
  nodeOfKey? _ _ hn := h.nodeOfKey?_eq_some hn
  options := h.options
  stats := h.stats_within

theorem Moves.extends {g g' : Graph} (h : Moves g g') : g.Extends g' := by
  induction h with
  | refl => exact Extends.refl g
  | tail _ hmove ih => exact ih.trans hmove.extends

/-! ## What is refused -/

/-- The operation links a node that the graph does not have, or has the root called. -/
def Refuses (g : Graph) : Operation → Prop
  | .insert _ _ => False
  | .addDecl _ _ => False
  | .addBlocks _ _ => False
  | .addUnit _ => False
  | .linkMethod _ _ => False
  | .linkUnit _ => False
  | .addCallee caller callee => callee = root ∨ g.has caller = false ∨ g.has callee = false
  | .addOverrides node overridden => g.has node = false ∨ g.has overridden = false
  | .addOverriddenBy node overrider => g.has node = false ∨ g.has overrider = false

/-- An operation is refused or done, and not both. -/
theorem exists_perform_eq_ok_iff {g : Graph} {op : Operation} :
    (∃ g', g.perform op = .ok g') ↔ ¬ g.Refuses op := by
  cases op with
  | insert | addDecl | addBlocks | addUnit | linkMethod | linkUnit =>
      exact ⟨fun _ hno => hno, fun _ => ⟨_, rfl⟩⟩
  | addCallee a b =>
      simp only [perform, addCallee_eq_ok_iff, exists_and_left, exists_eq, and_true, Refuses, not_or,
        Bool.not_eq_false]
  | addOverrides a b =>
      simp only [perform, addOverrides_eq_ok_iff, exists_and_left, exists_eq, and_true, Refuses, not_or,
        Bool.not_eq_false]
  | addOverriddenBy a b =>
      simp only [perform, addOverriddenBy_eq_ok_iff, exists_and_left, exists_eq, and_true, Refuses, not_or,
        Bool.not_eq_false]

theorem exists_perform_eq_error_iff {g : Graph} {op : Operation} :
    (∃ e, g.perform op = .error e) ↔ g.Refuses op := by
  rw [← not_iff_not, ← exists_perform_eq_ok_iff]
  cases g.perform op with
  | error e => simp
  | ok g' => simp

theorem after_of_refuses {g : Graph} {op : Operation} (h : g.Refuses op) : g.after op = g := by
  obtain ⟨e, he⟩ := exists_perform_eq_error_iff.mpr h
  simp only [after, he]

/-! ## Sessions -/

/-- **Graphs only grow.** Take any graph that some operations have made, and any further operation, with
any unit. The nodes and edges stand where they stood, what was found by identity or by key is still found,
the root is the root, the options are the same, and no counter has gone back. The operation is refused
exactly if it links a node that is not there or has the root called, and then the graph is what it was. -/
theorem session_extends_after (o : Options) (ops : List Operation) (op : Operation) :
    let g := (ofOptions o).session ops
    g.Extends (g.after op)
    ∧ (g.nodes[root]? = some .root ∧ (g.after op).nodes[root]? = some .root)
    ∧ ((∃ e, g.perform op = .error e) ↔ g.Refuses op)
    ∧ (g.Refuses op → g.after op = g) := by
  intro g
  have hmoves : Moves (ofOptions o) g := session_moves (valid_ofOptions o) ops
  have hafter : g.Extends (g.after op) :=
    (after_moves (hmoves.valid (valid_ofOptions o)) op).extends
  have hroot : g.nodes[root]? = some .root := hmoves.extends.node rfl
  exact ⟨hafter, ⟨hroot, hafter.node hroot⟩, exists_perform_eq_error_iff, after_of_refuses⟩

end Graph

end CallGraph
