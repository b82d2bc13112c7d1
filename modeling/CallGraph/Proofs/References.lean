import CallGraph.Proofs.Nodes
import CallGraph.Proofs.OneUnit
import CallGraph.Proofs.Order
import CallGraph.Report

/-!
# Valid units have no dangling references

The check of a unit goes through what declarations name, field by field and statement by statement,
and finds nothing exactly if the unit is closed: whatever is named in it is there (`Closed`,
`error?_eq_none_iff`). Everything that follows names within a closed unit then stays in it. The walk
follows what lies inside a declaration, the search for what a declaration stands for follows
redeclarations (`reaches_canonical`), and the search for a method ends in a method table.

The nodes of a closed unit's graph are therefore all of declarations of the unit, and keep the kinds
and names given there. A declaration that is met is one that may become a node, so it is there; its
identity is its own or that of the declaration that stands for it.
-/

namespace CallGraph

namespace SourceUnit

/-- Declarations stand at the places that they claim, and whatever is named is there. -/
structure Closed (u : SourceUnit) : Prop where
  topLevel : ∀ id ∈ u.topLevel, u.has id = true
  place : ∀ (index : Nat) (d : Decl), u.decls[index]? = some d → d.id.toNat = index
  references : ∀ (index : Nat) (d : Decl), u.decls[index]? = some d →
    ∀ r ∈ d.references, u.has r.2 = true

variable {u : SourceUnit}

theorem has_iff {id : DeclId} : u.has id = true ↔ ∃ d, u.decl? id = some d := by
  rw [has, decide_eq_true_iff, decl?, ← Option.isSome_iff_exists]
  simp

theorem has_iff_lt {id : DeclId} : u.has id = true ↔ id.toNat < u.decls.size :=
  decide_eq_true_iff

theorem declError?_eq_none_iff {index : Nat} {d : Decl} :
    u.declError? index d = none
      ↔ d.id.toNat = index ∧ ∀ r ∈ d.references, u.has r.2 = true := by
  unfold declError?
  by_cases hplace : d.id.toNat = index
  · simp [hplace]
  · simp [hplace]

/-- The check finds nothing wrong exactly with closed units. -/
theorem error?_eq_none_iff : u.error? = none ↔ u.Closed := by
  have htop : (u.topLevel.find? fun id => !u.has id) = none
      ↔ ∀ id ∈ u.topLevel, u.has id = true := by simp
  have hdecls : (u.decls.toList.zipIdx.findSome? fun x => u.declError? x.2 x.1) = none
      ↔ ∀ (index : Nat) (d : Decl), u.decls[index]? = some d →
        d.id.toNat = index ∧ ∀ r ∈ d.references, u.has r.2 = true := by
    simp only [List.findSome?_eq_none_iff, declError?_eq_none_iff, Prod.forall,
      List.mk_mem_zipIdx_iff_getElem?, Array.getElem?_toList]
    exact forall_comm
  unfold error?
  split
  · next id hfound =>
      have hbad : ¬ ∀ id ∈ u.topLevel, u.has id = true := by
        rw [← htop, hfound]
        simp
      constructor
      · intro h
        cases h
      · intro h
        exact absurd h.topLevel hbad
  · next hnone =>
      refine hdecls.trans ⟨fun h => ?_, fun h => ?_⟩
      · exact ⟨htop.mp hnone, fun index d hd => (h index d hd).1, fun index d hd => (h index d hd).2⟩
      · exact fun index d hd => ⟨h.place index d hd, h.references index d hd⟩

/-! ## What is found by following names -/

/-- The smallest of several places is one of them. -/
theorem foldl_min_mem (id : DeclId) (ids : List DeclId) : ids.foldl min id ∈ id :: ids :=
  List.min_mem (List.cons_ne_nil id ids)

/-- The declaration that stands for another is reached from it by redeclarations. -/
theorem reaches_canonical (u : SourceUnit) (id : DeclId) :
    u.redeclarationLinks.Reaches id (u.canonical id) := by
  have hchain : ∀ x ∈ u.redeclarations id, u.redeclarationLinks.Reaches id x :=
    fun x hx => (Links.mem_preorder_singleton_iff _).mp hx
  have hlast : u.redeclarationLinks.Reaches id ((u.redeclarations id).getLastD id) := by
    rcases List.mem_cons.mp (List.getLastD_mem_cons (l := u.redeclarations id) (a := id)) with heq | hmem
    · rw [heq]
      exact Relation.ReflTransGen.refl
    · exact hchain _ hmem
  simp only [canonical]
  split
  · exact hlast
  · next next hnext =>
      have hreach : u.redeclarationLinks.Reaches id next :=
        hlast.tail (Option.mem_toList.mpr hnext)
      rcases List.mem_cons.mp (foldl_min_mem next
          ((u.redeclarations id).dropWhile (· ≠ next))) with heq | hmem
      · rw [heq]
        exact hreach
      · exact hchain _ ((List.dropWhile_sublist _).subset hmem)

theorem exists_of_lookup? {interface method : DeclId} {selector : String} {toInstance : Bool}
    (h : u.lookup? interface selector toInstance = some method) :
    ∃ id d, u.decl? id = some d ∧ method ∈ (methods d toInstance).values := by
  obtain ⟨id, -, hfound⟩ := List.exists_of_findSome?_eq_some h
  obtain ⟨d, hd, hmethod⟩ := Option.bind_eq_some_iff.mp hfound
  obtain ⟨before, after, hentries, -⟩ := List.lookup_eq_some_iff.mp hmethod
  exact ⟨id, d, hd, by simp [MethodTable.values, hentries]⟩

namespace Closed

variable (hu : u.Closed)

include hu

theorem has_of_reference {id : DeclId} {d : Decl} {r : Role × DeclId} (hd : u.decl? id = some d)
    (hr : r ∈ d.references) : u.has r.2 = true :=
  hu.references id.toNat d hd r hr

theorem has_of_visited {id : DeclId} (hid : u.Visited id) : u.has id = true := by
  obtain ⟨r, hr, hin⟩ := hid
  cases hin with
  | refl => exact hu.topLevel _ hr
  | tail _ hholds =>
      obtain ⟨d, hd, hchild⟩ := hholds
      exact hu.has_of_reference (r := (.child, id)) hd (by simp [Decl.references, hchild])

theorem has_of_redeclared {id x : DeclId} (hid : u.has id = true)
    (hreach : u.redeclarationLinks.Reaches id x) : u.has x = true := by
  cases hreach with
  | refl => exact hid
  | tail _ hlink =>
      obtain ⟨d, hd, hcanonical⟩ := Option.bind_eq_some_iff.mp (Option.mem_toList.mp hlink)
      obtain ⟨hcanonical, -⟩ := Option.filter_eq_some_iff.mp hcanonical
      exact hu.has_of_reference (r := (.canonical, x)) hd (by simp [Decl.references, hcanonical])

theorem has_lookup? {interface method : DeclId} {selector : String} {toInstance : Bool}
    (h : u.lookup? interface selector toInstance = some method) : u.has method = true := by
  obtain ⟨id, d, hd, hmethod⟩ := exists_of_lookup? h
  have hmem : method ∈ d.instanceMethods.values ++ d.classMethods.values := by
    cases toInstance with
    | true => exact List.mem_append_left _ hmethod
    | false => exact List.mem_append_right _ hmethod
  refine hu.has_of_reference (r := (.methodTable, method)) hd ?_
  simpa [Decl.references] using hmem

theorem has_of_met {o : Options} {d c : DeclId} (hd : u.Met o d)
    (hc : u.resolve (some d) = .decl c) : u.has c = true := by
  obtain ⟨e, he, -⟩ := includesIn_iff.mp hd.includesIn
  have hhas : u.has d = true := has_iff.mpr ⟨e, he⟩
  have hc := resolve_eq_decl_iff.mp hc
  split at hc
  · rwa [← hc]
  · rw [← hc]
    exact hu.has_of_redeclared hhas (u.reaches_canonical d)

end Closed

end SourceUnit

/-! ## The graph of a closed unit -/

namespace Graph

theorem nodes_root_build (o : Options) (u : SourceUnit) :
    (build o u).nodes[root]? = some .root := by
  obtain ⟨node, hnode, hid⟩ := Option.map_eq_some_iff.mp (build_valid o u).root_identity
  have hmem : node ∈ (build o u).nodes.toList :=
    List.mem_of_getElem? (by rwa [Array.getElem?_toList])
  rcases mem_nodes_build.mp hmem with rfl | ⟨d, -, rfl⟩
  · exact hnode
  · cases hid

theorem exists_ofDecl_of_ne_root {o : Options} {u : SourceUnit} (hu : u.Closed) {n : Nat}
    {node : Node} (hn : n ≠ root) (hnode : (build o u).nodes[n]? = some node) :
    ∃ id d, u.decl? id = some d ∧ node = .ofDecl id (some d) := by
  have hmem : node ∈ (build o u).nodes.toList :=
    List.mem_of_getElem? (by rwa [Array.getElem?_toList])
  rcases mem_nodes_build.mp hmem with rfl | ⟨id, hid, rfl⟩
  · have hroot : (build o u).identity? n = some .root := congrArg (Option.map Node.identity) hnode
    exact absurd (((build_valid o u).root_iff n).mp hroot) hn
  · obtain ⟨e, he, hresolve⟩ := (mem_identities_build.mp hid).resolve_left (by simp)
    obtain ⟨d, hd⟩ := SourceUnit.has_iff.mp (hu.has_of_met (SourceUnit.mem_met_iff.mp he) hresolve)
    exact ⟨id, d, hd, by rw [hd]⟩

theorem Valid.exists_order_eq {g : Graph} (hg : g.Valid) :
    ∃ rest, g.order = root :: rest ∧ ∀ n ∈ rest, n ≠ root ∧ g.has n = true := by
  obtain ⟨rest, hrest⟩ := List.head?_eq_some_iff.mp hg.ordered.root_first
  have hnodup := order_nodup g
  rw [hrest, List.nodup_cons] at hnodup
  refine ⟨rest, hrest, fun n hn => ⟨fun hroot => hnodup.1 (hroot ▸ hn), ?_⟩⟩
  exact hg.mem_order_iff.mp (hrest ▸ List.mem_cons_of_mem _ hn)

/-- In the report of a closed unit's graph the root comes first, and it alone has no kind. -/
theorem report_nodes_eq {o : Options} {u : SourceUnit} (hu : u.Closed) :
    ∃ rest, (UnitGraph.build o u).report.nodes = (UnitGraph.build o u).nodeReport root :: rest
      ∧ ((UnitGraph.build o u).nodeReport root).kind = none ∧ ∀ r ∈ rest, r.kind ≠ none := by
  obtain ⟨rest, hrest, hnodes⟩ := (build_valid o u).exists_order_eq
  refine ⟨rest.map (UnitGraph.build o u).nodeReport, congrArg (List.map _) hrest, ?_, ?_⟩
  · exact congrArg (Option.bind · Node.kind) (nodes_root_build o u)
  · intro r hr
    obtain ⟨n, hn, rfl⟩ := List.mem_map.mp hr
    obtain ⟨hroot, hhas⟩ := hnodes n hn
    have hnode := Array.getElem?_eq_getElem (has_iff.mp hhas)
    obtain ⟨id, d, -, heq⟩ := exists_ofDecl_of_ne_root hu hroot hnode
    rw [heq] at hnode
    have hkind : ((UnitGraph.build o u).nodeReport n).kind = some d.kind :=
      congrArg (Option.bind · Node.kind) hnode
    simp [hkind]

end Graph

/-- Whatever is followed from the declarations of a unit leads to declarations of the unit. -/
structure SourceUnit.SelfContained (u : SourceUnit) (o : Options) : Prop where
  walk : ∀ id ∈ u.walk, id.toNat < u.decls.size
  canonical : ∀ id : DeclId, id.toNat < u.decls.size → (u.canonical id).toNat < u.decls.size
  lookup : ∀ interface selector toInstance method,
    u.lookup? interface selector toInstance = some method → method.toNat < u.decls.size
  /-- Nodes other than the root are of declarations, and keep their kinds and names. The name to show is
  the plain one where there is no qualified one. -/
  node : ∀ n node, n ≠ Graph.root → (Graph.build o u).nodes[n]? = some node →
    ∃ id d, node.identity = .decl id ∧ id.toNat < u.decls.size ∧ u.decl? id = some d
      ∧ node.kind = some d.kind ∧ node.name = d.name
      ∧ node.qualifiedName = d.qualifiedName.or d.name
  report : ∃ rest, (UnitGraph.build o u).report.nodes
      = (UnitGraph.build o u).nodeReport Graph.root :: rest
    ∧ ((UnitGraph.build o u).nodeReport Graph.root).kind = none ∧ ∀ r ∈ rest, r.kind ≠ none

namespace Graph

/-- **Valid units have no dangling references**: their walks, the declarations that stand for others
and the methods found are of the unit, and so are the nodes of their graphs, which keep the kinds and
names given there. -/
theorem selfContained_of_error?_eq_none (o : Options) {u : SourceUnit} (h : u.error? = none) :
    u.SelfContained o := by
  have hu := SourceUnit.error?_eq_none_iff.mp h
  refine ⟨fun id hid => ?_, fun id hid => ?_, fun _ _ _ _ hfound => ?_, ?_, report_nodes_eq hu⟩
  · exact SourceUnit.has_iff_lt.mp (hu.has_of_visited (SourceUnit.mem_walk_iff.mp hid))
  · have hhas := SourceUnit.has_iff_lt.mpr hid
    exact SourceUnit.has_iff_lt.mp (hu.has_of_redeclared hhas (u.reaches_canonical id))
  · exact SourceUnit.has_iff_lt.mp (hu.has_lookup? hfound)
  · intro n node hn hnode
    obtain ⟨id, d, hd, rfl⟩ := exists_ofDecl_of_ne_root hu hn hnode
    have hhas := SourceUnit.has_iff.mpr ⟨d, hd⟩
    exact ⟨id, d, rfl, SourceUnit.has_iff_lt.mp hhas, hd, rfl, rfl, rfl⟩

/-- A function, declared twice, that sends a message to a class whose superclass has the method. -/
def heirs : SourceUnit where
  name := "heirs.m"
  decls := #[
    { Decl.ofName .interface "Base" with
      id := 0, children := [1], instanceMethods := MethodTable.empty.insert "run" 1 },
    { Decl.ofName .objCMethod "run" with id := 1, qualifiedName := some "Base::run" },
    { Decl.ofName .interface "Heir" with id := 2, superclass := some 0 },
    { Decl.ofName .function "f" with id := 3 },
    { Decl.ofName .function "f" with
      id := 4, canonical := some 3, body := some (.paren (.message 2 "run" true)) }]
  topLevel := [0, 2, 4]

/-- A declaration whose body is walked has its node, or that of the declaration that stands for it. -/
theorem ofDecl_mem_nodes_build {o : Options} {u : SourceUnit} {d c : DeclId} (hd : d ∈ u.sweep o)
    (hc : u.resolve (some d) = .decl c) : .ofDecl c (u.decl? c) ∈ (build o u).nodes.toList := by
  have hmet : u.Met o d := .walked (SourceUnit.mem_sweep_iff.mp hd)
  have hid : .decl c ∈ (build o u).identities :=
    mem_identities_build.mpr (Or.inr ⟨d, SourceUnit.mem_met_iff.mpr hmet, hc⟩)
  exact mem_nodes_build.mpr (Or.inr ⟨c, hid, rfl⟩)

/-- The method's node keeps the qualified name, and that of the function the only name there is. -/
theorem selfContained_heirs :
    heirs.error? = none ∧ heirs.canonical 4 = 3 ∧ heirs.lookup? 2 "run" true = some 1
    ∧ heirs.SelfContained {}
    ∧ ⟨.decl 1, some .objCMethod, some "run", some "Base::run"⟩ ∈ (build {} heirs).nodes.toList
    ∧ ⟨.decl 3, some .function, some "f", some "f"⟩ ∈ (build {} heirs).nodes.toList := by
  have hclasses : heirs.superclassLinks.preorder [2] = [2, 0] := by cbv
  have hwalk : heirs.walk = [0, 1, 2, 4] := by cbv
  have hsweep : heirs.sweep {} = [1, 4] := by
    rw [SourceUnit.sweep_eq_filter_walk (by decide), hwalk]
    decide
  refine ⟨by decide, by cbv, ?_, selfContained_of_error?_eq_none {} (by decide),
    ofDecl_mem_nodes_build (d := 1) (hsweep ▸ by decide) (by cbv),
    ofDecl_mem_nodes_build (d := 4) (hsweep ▸ by decide) (by cbv)⟩
  rw [SourceUnit.lookup?, hclasses]
  decide

end Graph

end CallGraph
