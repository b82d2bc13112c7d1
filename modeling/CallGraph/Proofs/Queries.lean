import CallGraph.Proofs.Sweep
import CallGraph.Report
import Mathlib.Algebra.Order.BigOperators.Group.List
import Mathlib.Algebra.Order.Group.Nat

/-!
# Asking for a function by its name

Names are not unique in a graph: overloaded functions share one, and so do the declarations of a
virtual method, each of which has a node of its own. A question for a name goes through the units and
takes the first node of that name in each (`functionReport?_eq`). It fails exactly if no unit has such
a node, and what it reports is all there is exactly if no unit has two of them
(`functionReports_build_iff`). Otherwise the later nodes of the name are left out, as
`functionReports_definedLater` shows.
-/

namespace CallGraph

namespace Graph

/-- The places of the nodes with a name to show, in order. -/
def named (g : Graph) (name : String) : List Nat :=
  (List.range g.nodes.size).filter fun n =>
    (g.nodes[n]?).any fun node => node.qualifiedName = some name

variable {g : Graph} {name : String}

theorem named_eq_nil_iff :
    g.named name = [] ↔ ∀ node ∈ g.nodes, node.qualifiedName ≠ some name := by
  simp only [named, List.filter_eq_nil_iff, List.mem_range, Option.any_eq_true, decide_eq_true_eq,
    not_exists, not_and]
  constructor
  · intro h node hmem
    obtain ⟨n, hn, rfl⟩ := Array.mem_iff_getElem.mp hmem
    exact h n hn _ (Array.getElem?_eq_getElem hn)
  · intro h n _ node hnode
    exact h node (Array.mem_of_getElem? hnode)

theorem named_ne_nil_iff :
    g.named name ≠ [] ↔ ∃ node ∈ g.nodes, node.qualifiedName = some name := by
  rw [Ne, named_eq_nil_iff]
  simp

theorem nodeOfName?_eq (g : Graph) (name : String) :
    g.nodeOfName? name = (g.named name).head? := by
  rw [named, List.head?_filter, nodeOfName?]
  have hat (k : Nat) (hk : k < g.nodes.size) :
      ((g.nodes[k]?).any fun node => node.qualifiedName = some name)
        = decide ((g.nodes[k]).qualifiedName = some name) := by
    rw [Array.getElem?_eq_getElem hk, Option.any_some]
  refine Option.ext fun n => ?_
  rw [Array.findIdx?_eq_some_iff_getElem, List.find?_range_eq_some]
  constructor
  · rintro ⟨hn, hname, hbefore⟩
    refine ⟨(hat n hn).trans hname, List.mem_range.mpr hn, fun k hk => ?_⟩
    rw [hat k (Nat.lt_trans hk hn)]
    simpa using hbefore k hk
  · rintro ⟨hname, hmem, hbefore⟩
    have hn : n < g.nodes.size := List.mem_range.mp hmem
    refine ⟨hn, (hat n hn).symm.trans hname, fun k hk => ?_⟩
    rw [← hat k (Nat.lt_trans hk hn)]
    simpa using hbefore k hk

end Graph

/-- The report tells what surrounds a node: one label for each edge of a kind, oldest first. -/
structure FunctionReport.Tells (r : FunctionReport) (g : UnitGraph) (n : Nat) : Prop where
  unit : r.unit = g.unit.name
  function : r.function = g.graph.label n
  callees : r.callees = (g.graph.edges.toList.filter fun e => e.kind = .call ∧ e.source = n).map
    fun e => g.graph.label e.target
  callers : r.callers = (g.graph.edges.toList.filter fun e => e.kind = .call ∧ e.target = n).map
    fun e => g.graph.label e.source
  overrides : r.overrides = (g.graph.edges.toList.filter fun e =>
    e.kind = .overrides ∧ e.source = n).map fun e => g.graph.label e.target
  overriddenBy : r.overriddenBy = (g.graph.edges.toList.filter fun e =>
    e.kind = .overriddenBy ∧ e.source = n).map fun e => g.graph.label e.target

namespace UnitGraph

theorem tells_functionReport (g : UnitGraph) (n : Nat) : (g.functionReport n).Tells g n where
  unit := rfl
  function := rfl
  callees := List.map_map
  callers := List.map_map
  overrides := List.map_map
  overriddenBy := List.map_map

theorem functionReport?_eq (g : UnitGraph) (name : String) :
    g.functionReport? name = (g.graph.named name).head?.map g.functionReport := by
  rw [functionReport?, Graph.nodeOfName?_eq]

end UnitGraph

namespace UnitGraphs

/-- What surrounds every node of a name, unit by unit. -/
def allReports (gs : UnitGraphs) (name : String) : List FunctionReport :=
  gs.flatMap fun g => (g.graph.named name).map g.functionReport

/-- What surrounds the first node of a name in each unit that has one. -/
def firstReports (gs : UnitGraphs) (name : String) : List FunctionReport :=
  gs.flatMap fun g => ((g.graph.named name).take 1).map g.functionReport

variable {gs : UnitGraphs} {name : String}

theorem filterMap_functionReport? :
    gs.filterMap (·.functionReport? name) = gs.firstReports name := by
  rw [firstReports, List.filterMap_eq_flatMap_toList]
  refine List.flatMap_congr fun g _ => ?_
  rw [UnitGraph.functionReport?_eq]
  cases g.graph.named name <;> rfl

theorem firstReports_eq_nil_iff :
    gs.firstReports name = [] ↔ ∀ g ∈ gs, g.graph.named name = [] := by
  simp [firstReports, List.flatMap_eq_nil_iff]

theorem functionReports_eq_error_iff {e : QueryError} :
    gs.functionReports name = .error e
      ↔ e = .notFound name ∧ ∀ g ∈ gs, g.graph.named name = [] := by
  rw [functionReports, filterMap_functionReport?, ← firstReports_eq_nil_iff]
  cases gs.firstReports name <;> simp [eq_comm]

theorem functionReports_eq_ok_iff {rs : List FunctionReport} :
    gs.functionReports name = .ok rs
      ↔ (∃ g ∈ gs, g.graph.named name ≠ []) ∧ rs = gs.firstReports name := by
  have hsome : (∃ g ∈ gs, g.graph.named name ≠ []) ↔ gs.firstReports name ≠ [] := by
    rw [Ne, firstReports_eq_nil_iff]
    simp
  rw [functionReports, filterMap_functionReport?, hsome]
  cases gs.firstReports name <;> simp [eq_comm]

theorem length_firstReports_le (gs : UnitGraphs) (name : String) :
    (gs.firstReports name).length ≤ (gs.allReports name).length := by
  simp only [firstReports, allReports, List.length_flatMap, List.length_map, List.length_take]
  exact List.sum_le_sum fun g _ => min_le_right _ _

/-- Nothing is left out only if there is nothing to leave out: one report more in one unit cannot be
made good by another unit. -/
theorem allReports_eq_firstReports_iff :
    gs.allReports name = gs.firstReports name ↔ ∀ g ∈ gs, (g.graph.named name).length ≤ 1 := by
  constructor
  · intro h
    replace h : (gs.allReports name).length ≤ (gs.firstReports name).length := h ▸ le_rfl
    induction gs with
    | nil => simp
    | cons g rest ih =>
      have hle := length_firstReports_le rest name
      simp only [allReports, firstReports, List.flatMap_cons, List.length_append, List.length_map,
        List.length_take] at h ih hle
      refine List.forall_mem_cons.mpr ⟨by omega, ih (by omega)⟩
  · intro h
    exact List.flatMap_congr fun g hg => by rw [List.take_of_length_le (h g hg)]

/-- **A question for a name** fails exactly if no graph has a node of that name. Otherwise what surrounds
the first node of the name in each unit is told, which is every node of it exactly if no unit has two. -/
theorem functionReports_build_iff (o : Options) (us : List SourceUnit) (name : String) :
    let gs := UnitGraphs.build o us
    (∀ g ∈ gs, ∀ n, (g.functionReport n).Tells g n)
    ∧ (∀ e, gs.functionReports name = .error e
      ↔ e = .notFound name ∧ ∀ g ∈ gs, ∀ node ∈ g.graph.nodes, node.qualifiedName ≠ some name)
    ∧ (∀ rs, gs.functionReports name = .ok rs
      ↔ (∃ g ∈ gs, ∃ node ∈ g.graph.nodes, node.qualifiedName = some name)
        ∧ rs = gs.firstReports name)
    ∧ (gs.functionReports name = .ok (gs.allReports name)
      ↔ (∃ g ∈ gs, ∃ node ∈ g.graph.nodes, node.qualifiedName = some name)
        ∧ ∀ g ∈ gs, (g.graph.named name).length ≤ 1) := by
  intro gs
  refine ⟨fun g _ n => g.tells_functionReport n, ?_⟩
  simp only [← Graph.named_ne_nil_iff, ← Graph.named_eq_nil_iff, functionReports_eq_error_iff,
    functionReports_eq_ok_iff, allReports_eq_firstReports_iff, implies_true, and_self]

/-- A method that is declared first and defined later; both declarations have nodes. -/
def definedLater : SourceUnit where
  name := "later.m"
  decls := #[
    { Decl.ofName .objCMethod "m" with id := 0 },
    { Decl.ofName .objCMethod "m" with
      id := 1, canonical := some 0, body := some (.directCall 2 []) },
    { Decl.ofName .function "g" with id := 2, isExternC := true }]
  topLevel := [0, 1, 2]

theorem build_definedLater :
    Graph.build {} definedLater
      = { ((((Graph.ofOptions {}).addNode definedLater 0).addNode definedLater 1).addNode
          definedLater 2).link ⟨2, 3, .call⟩ with
        stats := { bodiesWalked := 1, callSites := 1 } } := by
  have hwalk : definedLater.walk = [0, 1, 2] := by cbv
  have hsweep : definedLater.sweep {} = [0, 1, 2] := by
    rw [SourceUnit.sweep_eq_filter_walk (by decide), hwalk]
    decide
  have hmethod : definedLater.resolve (some 1) = .decl 1 := by cbv
  have hcallee : definedLater.resolve (some 2) = .decl 2 := by cbv
  let g := (Graph.ofOptions {}).addNode definedLater 0
  let linked := ((g.addNode definedLater 1).addNode definedLater 2).link ⟨2, 3, .call⟩
  let counted := { linked with stats := { bodiesWalked := 1, callSites := 1 } }
  have hcalls : definedLater.callsOf g.options 1 = [⟨1, 2⟩] := by
    change definedLater.callsOf {} 1 = _
    decide
  have hstats : definedLater.statsOf g.options 1 = { bodiesWalked := 1, callSites := 1 } := by
    change definedLater.statsOf {} 1 = _
    decide
  have hdeclared : ((Graph.ofOptions {}).addDecl definedLater 0).1 = g := by
    rw [Graph.addDecl_fst_of_not_hasBody _ rfl, Graph.insert_of_nodeOf?_eq_none (d := 0) (by cbv) rfl]
  have hcall : (g.addNode definedLater 1).addCall definedLater ⟨1, 2⟩ = linked := by
    have hcaller : (g.addNode definedLater 1).insert definedLater (some 1)
        = (g.addNode definedLater 1, 2) := Graph.insert_of_nodeOf? (hmethod ▸ rfl)
    have hnew : (g.addNode definedLater 1).insert definedLater (some 2)
        = ((g.addNode definedLater 1).addNode definedLater 2, 3) :=
      Graph.insert_of_nodeOf?_eq_none hcallee rfl
    simp only [Graph.addCall, hcaller, hnew, linked]
  have hdefined : (g.addDecl definedLater 1).1 = counted := by
    rw [Graph.addDecl, Graph.insert_of_nodeOf?_eq_none hmethod rfl, hcalls, hstats, List.foldl_cons,
      hcall]
    rfl
  have hfound : (counted.addDecl definedLater 2).1 = counted := by
    -- The call has given the function its node.
    rw [Graph.addDecl_fst_of_not_hasBody _ rfl, Graph.insert_of_nodeOf? (n := 3) (hcallee ▸ rfl)]
  rw [Graph.build_eq_addDecls (hwalk ▸ rfl), hsweep, Graph.addDecls_fst, List.foldl_cons,
    List.foldl_cons, List.foldl_cons, List.foldl_nil, hdeclared, hdefined, hfound]

/-- Of a method that is declared first and defined later the definition, with all that the method
calls, is not reported. -/
theorem functionReports_definedLater :
    definedLater.error? = none
    ∧ (UnitGraphs.build {} [definedLater]).functionReports "m"
      = .ok [⟨"later.m", "m", [], ["< root >"], [], []⟩]
    ∧ (UnitGraphs.build {} [definedLater]).allReports "m"
      = [⟨"later.m", "m", [], ["< root >"], [], []⟩,
        ⟨"later.m", "m", ["g"], ["< root >"], [], []⟩] := by
  rw [UnitGraphs.build, List.map_singleton, UnitGraph.build, build_definedLater]
  refine ⟨by decide, functionReports_eq_ok_iff.mpr ⟨⟨_, List.mem_singleton_self _, ?_⟩, rfl⟩, rfl⟩
  decide

end UnitGraphs

end CallGraph
