import CallGraph.Graph.Print
import CallGraph.Proofs.OneUnit
import CallGraph.Proofs.Order

/-!
# Nothing is refused

Graphs are built without looking whether an edge may be added, and a text says nothing about a node
that is not there. `Checked` does the same work and looks: before an edge is added both its ends have to
be nodes, nothing may be added that calls the root, and a node has to be there when its label is asked
for. The first thing that is not as it should be ends the work with an error.

In a valid graph every check passes, because places come from look-ups and insertions, nodes keep
their places, and no declaration has the identity of the root. So with checks the same graph is built
and the same text written, whatever the unit refers to (`Checked.build_eq_ok`, `Checked.dump_eq_ok`).
-/

namespace CallGraph

namespace Graph

namespace Checked

/-! ## Work with checks -/

/-- The label of a node that has to be there. -/
def label (g : Graph) (n : Nat) : Except GraphError String :=
  match g.nodes[n]? with
  | some node => .ok node.label
  | none => .error (.unknownNode n)

/-- Append a node. If its key is owned, the owner is looked at; the root and the node are the ends of the
call between them. -/
def addNode (g : Graph) (u : SourceUnit) (id : DeclId) : Except GraphError Graph := do
  let n := g.nodes.size
  let g := g.appendNode (.ofDecl id (u.decl? id))
  let _ ← (g.nodeOfKey? (u.key id)).toList.mapM (label g)
  let g := g.claim (u.key id) n
  g.checkEnds root n
  return g.link ⟨root, n, .call⟩

def insert (g : Graph) (u : SourceUnit) (id : DeclId) : Except GraphError (Graph × Nat) :=
  match g.nodeOf? (u.resolve (some id)), u.resolve (some id) with
  | some n, _ => .ok (g, n)
  | none, .root => .ok (g, root)
  | none, .decl d => do return (← addNode g u d, g.nodes.size)

def addCall (g : Graph) (u : SourceUnit) (c : Call) : Except GraphError Graph := do
  let (g, caller) ← insert g u c.caller
  let (g, callee) ← insert g u c.callee
  g.addCallee caller callee

def addDecl (g : Graph) (u : SourceUnit) (id : DeclId) : Except GraphError Graph := do
  let (g', _) ← insert g u id
  let g' ← (u.callsOf g.options id).foldlM (fun g c => addCall g u c) g'
  return { g' with stats := g'.stats + u.statsOf g.options id }

def linkPair (g : Graph) (u : SourceUnit) (method overridden : DeclId) : Except GraphError Graph := do
  let (g, a) ← insert g u method
  let (g, b) ← insert g u overridden
  let g ← g.addOverrides a b
  g.addOverriddenBy b a

def linkMethod (g : Graph) (u : SourceUnit) (id : DeclId) : Except GraphError Graph :=
  if u.isOverrider g.options id then do
    let (g', _) ← insert g u id
    (u.overriddenOf g.options id).foldlM (fun g m => linkPair g u id m) g'
  else .ok g

/-- The graph of a unit, every step of it checked. -/
def build (o : Options) (u : SourceUnit) : Except GraphError Graph := do
  let g ← (u.sweep o).foldlM (fun g id => addDecl g u id) (ofOptions o)
  if o.linkOverrides then u.walk.foldlM (fun g id => linkMethod g u id) g else return g

/-- The label of a node that is called, so it may not be the root. -/
def calleeLabel (g : Graph) (n : Nat) : Except GraphError String :=
  if n = root then .error .callsRoot else label g n

def dumpLine (g : Graph) (n : Nat) : Except GraphError String := do
  let name ← label g n
  let callees ← (g.callees n).mapM (calleeLabel g)
  return "  Function: " ++ name ++ " calls: " ++ String.join (callees.map (· ++ " ")) ++ "\n"

def dump (g : Graph) : Except GraphError String := do
  let lines ← g.order.mapM (dumpLine g)
  return " --- Call graph Dump --- \n" ++ String.join lines

/-! ## Building -/

theorem mapM_eq_ok {α β : Type} {f : α → Except GraphError β} {f' : α → β} {xs : List α}
    (h : ∀ x ∈ xs, f x = .ok (f' x)) : xs.mapM f = .ok (xs.map f') := by
  induction xs with
  | nil => rfl
  | cons x xs ih =>
      obtain ⟨hx, hxs⟩ := List.forall_mem_cons.mp h
      rw [List.mapM_cons, hx, ih hxs]
      rfl

/-- If a step passes its checks in every valid graph, all steps of a fold do. -/
theorem foldlM_eq_ok {β : Type} {f : Graph → β → Graph}
    {f' : Graph → β → Except GraphError Graph} (hmoves : ∀ g x, g.Valid → Moves g (f g x))
    (hstep : ∀ g x, g.Valid → f' g x = .ok (f g x))
    (xs : List β) {g : Graph} (hg : g.Valid) : xs.foldlM f' g = .ok (xs.foldl f g) := by
  induction xs generalizing g with
  | nil => rfl
  | cons x xs ih =>
      rw [List.foldlM_cons, hstep g x hg]
      exact ih ((hmoves g x hg).valid hg)

theorem label_eq_ok {g : Graph} {n : Nat} (hn : g.has n = true) : label g n = .ok (g.label n) := by
  have hget := Array.getElem?_eq_getElem (has_iff.mp hn)
  rw [label, Graph.label, hget]
  rfl

theorem addNode_eq_ok {g : Graph} (hg : g.Valid) (u : SourceUnit) (d : DeclId) :
    addNode g u d = .ok (g.addNode u d) := by
  let g₁ : Graph := g.appendNode (.ofDecl d (u.decl? d))
  have hsize : g₁.nodes.size = g.nodes.size + 1 := Array.size_push _
  have howner : ∀ n ∈ (g₁.nodeOfKey? (u.key d)).toList, label g₁ n = .ok (g₁.label n) := by
    -- Whoever owns a key was a node before this one was appended.
    intro n hn
    have hlookup : g.keys.lookup (u.key d) = some n := Option.mem_toList.mp hn
    obtain ⟨before, after, hkeys, -⟩ := List.lookup_eq_some_iff.mp hlookup
    have hmem : (u.key d, n) ∈ g.keys := by simp [hkeys]
    have hhas := has_iff.mp (hg.key_owner _ n hmem).2.2
    exact label_eq_ok (has_iff.mpr (by omega))
  have hends : (g₁.claim (u.key d) g.nodes.size).checkEnds root g.nodes.size = .ok () := by
    have hroot := hg.root_lt_size
    rw [checkEnds_eq_ok_iff, has_iff, has_iff, claim_nodes, hsize]
    omega
  show ((g₁.nodeOfKey? (u.key d)).toList.mapM (label g₁) >>= fun _ =>
    (g₁.claim (u.key d) g.nodes.size).checkEnds root g.nodes.size >>= fun _ =>
      Except.ok (g.addNode u d)) = .ok (g.addNode u d)
  rw [mapM_eq_ok howner, hends]
  rfl

theorem insert_eq_ok {g : Graph} (hg : g.Valid) (u : SourceUnit) (id : DeclId) :
    insert g u id = .ok (g.insert u (some id)) := by
  unfold insert Graph.insert
  obtain ⟨d, hd⟩ := u.exists_resolve_eq id
  simp only [hd]
  cases g.nodeOf? (.decl d) with
  | some n => rfl
  | none =>
      simp only [addNode_eq_ok hg]
      rfl

/-- What is done between the nodes of two declarations only has to pass between nodes of a graph, the
second of them not the root. -/
theorem between_eq_ok (f : Graph → Nat → Nat → Graph)
    (f' : Graph → Nat → Nat → Except GraphError Graph)
    (hf : ∀ g a b, g.has a = true → g.has b = true → b ≠ root → f' g a b = .ok (f g a b))
    {g : Graph} (hg : g.Valid) (u : SourceUnit) (c d : DeclId) :
    (insert g u c >>= fun x => insert x.1 u d >>= fun y => f' y.1 x.2 y.2)
      = .ok (let x := g.insert u (some c)
        let y := x.1.insert u (some d)
        f y.1 x.2 y.2) := by
  rcases h₁ : g.insert u (some c) with ⟨g₁, a⟩
  rcases h₂ : g₁.insert u (some d) with ⟨g₂, b⟩
  obtain ⟨hmoves, ha, hb⟩ := insert_insert hg h₁ h₂
  have hg₁ : g₁.Valid := by
    have hvalid := (insert_moves g u (some c)).valid hg
    rwa [h₁] at hvalid
  obtain ⟨i, hi⟩ := u.exists_resolve_eq d
  have hroot : b ≠ root := (hmoves.valid hg).ne_root (hi ▸ hb)
  rw [insert_eq_ok hg, h₁]
  show (insert g₁ u d >>= fun y => f' y.1 a y.2) = .ok (f (g₁.insert u (some d)).1 a _)
  rw [insert_eq_ok hg₁, h₂]
  exact hf g₂ a b (has_of_identity? ha) (has_of_identity? hb) hroot

theorem addCall_eq_ok {g : Graph} (hg : g.Valid) (u : SourceUnit) (c : Call) :
    addCall g u c = .ok (g.addCall u c) :=
  between_eq_ok (fun g a b => g.link ⟨a, b, .call⟩) addCallee
    (fun _ _ _ ha hb hroot => addCallee_eq_ok_iff.mpr ⟨hroot, ha, hb, rfl⟩) hg u c.caller c.callee

theorem linkPair_eq_ok {g : Graph} (hg : g.Valid) (u : SourceUnit) (c d : DeclId) :
    linkPair g u c d = .ok (g.linkPair u c d) := by
  refine between_eq_ok (fun g a b => (g.linkOnce ⟨a, b, .overrides⟩).linkOnce ⟨b, a, .overriddenBy⟩)
    (fun g a b => g.addOverrides a b >>= fun g => g.addOverriddenBy b a) ?_ hg u c d
  intro g a b ha hb _
  have hnodes : ∀ n, (g.linkOnce ⟨a, b, .overrides⟩).has n = g.has n := by
    intro n
    unfold has
    rw [linkOnce_nodes]
  have hover := addOverrides_eq_ok_iff.mpr ⟨ha, hb, rfl⟩
  rw [hover]
  exact addOverriddenBy_eq_ok_iff.mpr ⟨(hnodes b).trans hb, (hnodes a).trans ha, rfl⟩

theorem addDecl_eq_ok {g : Graph} (hg : g.Valid) (u : SourceUnit) (id : DeclId) :
    addDecl g u id = .ok (g.addDecl u id).1 := by
  have hcalls := foldlM_eq_ok (fun _ c hg => addCall_moves u c hg) (fun _ c hg => addCall_eq_ok hg u c)
    (u.callsOf g.options id) ((insert_moves g u (some id)).valid hg)
  unfold addDecl
  rw [insert_eq_ok hg]
  show ((u.callsOf g.options id).foldlM (fun g c => addCall g u c) (g.insert u (some id)).1 >>= _) = _
  rw [hcalls]
  rfl

theorem linkMethod_eq_ok {g : Graph} (hg : g.Valid) (u : SourceUnit) (id : DeclId) :
    linkMethod g u id = .ok (g.linkMethod u id).1 := by
  unfold linkMethod Graph.linkMethod
  split
  · have hpairs := foldlM_eq_ok (fun _ d hg => linkPair_moves u id d hg)
      (fun _ d hg => linkPair_eq_ok hg u id d) (u.overriddenOf g.options id)
      ((insert_moves g u (some id)).valid hg)
    rw [insert_eq_ok hg]
    exact hpairs
  · rfl

/-- Building passes all checks. -/
theorem build_eq_ok (o : Options) (u : SourceUnit) : build o u = .ok (Graph.build o u) := by
  have hunit := foldlM_eq_ok (fun _ d hg => addDecl_moves u d hg) (fun _ d hg => addDecl_eq_ok hg u d)
    (u.sweep o) (valid_ofOptions o)
  rw [← addDecls_fst] at hunit
  rw [build, hunit, build_eq]
  show (if o.linkOverrides then _ else _) = _
  split
  · rw [linkUnit_fst]
    exact foldlM_eq_ok (fun _ d hg => linkMethod_moves u d hg) (fun _ d hg => linkMethod_eq_ok hg u d)
      u.walk ((addDecls_moves u (u.sweep o) (valid_ofOptions o)).valid (valid_ofOptions o))
  · rfl

/-! ## The text -/

theorem calleeLabel_eq_ok {g : Graph} (hg : g.Valid) {n c : Nat} (hc : c ∈ g.callees n) :
    calleeLabel g c = .ok (g.label c) := by
  have hedge := mem_targets_iff.mp hc
  rw [calleeLabel, if_neg (hg.root_uncalled _ hedge rfl)]
  exact label_eq_ok (hg.ends _ hedge).2

theorem dumpLine_eq_ok {g : Graph} (hg : g.Valid) {n : Nat} (hn : g.has n = true) :
    dumpLine g n = .ok (g.dumpLine n) := by
  have hcallees : (g.callees n).mapM (calleeLabel g) = .ok ((g.callees n).map g.label) :=
    mapM_eq_ok fun _ hc => calleeLabel_eq_ok hg hc
  unfold dumpLine Graph.dumpLine
  rw [label_eq_ok hn, hcallees]
  show Except.ok (_ ++ String.join (((g.callees n).map g.label).map (· ++ " ")) ++ "\n") = _
  rw [List.map_map]
  rfl

/-- The text of a valid graph is about nodes that are there. -/
theorem dump_eq_ok {g : Graph} (hg : g.Valid) : dump g = .ok g.dump := by
  have hlines : g.order.mapM (dumpLine g) = .ok (g.order.map g.dumpLine) :=
    mapM_eq_ok fun n hn => dumpLine_eq_ok hg (hg.mem_order_iff.mp hn)
  unfold dump
  rw [hlines]
  rfl

end Checked

/-- **The root calls every node once and nothing calls it**, and no check fails while the graph of a unit
is built and its text written. -/
theorem build_checked (o : Options) (u : SourceUnit) :
    Checked.build o u = .ok (build o u)
    ∧ Checked.dump (build o u) = .ok (build o u).dump
    ∧ (build o u).callers root = []
    ∧ (build o u).callees root = List.range' 1 ((build o u).nodes.size - 1) := by
  have hvalid := build_valid o u
  refine ⟨Checked.build_eq_ok o u, Checked.dump_eq_ok hvalid, ?_, callees_root_build o u⟩
  refine List.map_eq_nil_iff.mpr (List.filter_eq_nil_iff.mpr fun e he => ?_)
  simpa using hvalid.root_uncalled e he

end Graph

end CallGraph
