import CallGraph.Proofs.OneUnit
import CallGraph.Proofs.Overrides
import CallGraph.Proofs.Postorder

/-!
# The order of declarations does not matter

Two units may differ in nothing but the lists that say what lies where: what stands at the top, and
what lies directly inside each declaration, in another order or named more or less often
(`Reordered`). Their traversals then differ at every step, and so do the places of nodes in their
graphs. But they visit the same declarations, once each, because a traversal visits what its roots
lead to; so the bodies gone through are the same, each as often, in another order.

Everything else that a build asks of a unit can be asked of the unit without these lists (`bare`),
and there the two are equal. Together this gives graphs that hold the same (`Agrees`), told without
places. Only who owns a key that several nodes have may depend on the order.
-/

namespace CallGraph

/-- The same declaration with the same ones inside it, listed in some other way. -/
def Decl.Reordered (d d' : Decl) : Prop :=
  ∃ children, (∀ id, id ∈ children ↔ id ∈ d.children) ∧ d' = { d with children := children }

def Decl.bare (d : Decl) : Decl :=
  { d with children := [] }

namespace SourceUnit

/-- The same declarations at the same places with the same ones at the top and inside each other,
listed in some other way. -/
structure Reordered (u u' : SourceUnit) : Prop where
  topLevel : ∀ id, id ∈ u'.topLevel ↔ id ∈ u.topLevel
  decls : List.Forall₂ Decl.Reordered u.decls.toList u'.decls.toList

/-- The declarations of a unit without what says which of them lie where. -/
def bare (u : SourceUnit) : SourceUnit :=
  ⟨"", u.decls.map Decl.bare, []⟩

/-! ## What a unit says without these lists -/

theorem decl?_bare (u : SourceUnit) (id : DeclId) : u.bare.decl? id = (u.decl? id).map Decl.bare := by
  simp [decl?, bare]

theorem canonical_bare (u : SourceUnit) : u.bare.canonical = u.canonical := by
  have hredeclared : u.bare.redeclared? = u.redeclared? := by
    funext id
    rw [redeclared?, redeclared?, decl?_bare, Option.bind_map]
    rfl
  have hchain : u.bare.redeclarations = u.redeclarations := by
    funext id
    refine Links.preorder_congr ?_ [id]
    funext id
    exact congrArg Option.toList (congrFun hredeclared id)
  funext id
  rw [canonical, canonical, hchain, hredeclared]

theorem resolve_bare (u : SourceUnit) : u.bare.resolve = u.resolve := by
  funext id
  cases id with
  | none => rfl
  | some id =>
      rw [resolve, resolve, isDispatched, isDispatched, decl?_bare, canonical_bare, Option.any_map]
      rfl

theorem lookup?_bare (u : SourceUnit) : u.bare.lookup? = u.lookup? := by
  have htargets : u.bare.superclassLinks.targets = u.superclassLinks.targets := by
    funext id
    simp only [superclassLinks, links, decl?_bare, Option.map_map]
    rfl
  funext interface selector toInstance
  rw [lookup?, lookup?, Links.preorder_congr htargets]
  refine congrArg (List.findSome? · _) (funext fun id => ?_)
  rw [decl?_bare, Option.bind_map]
  rfl

theorem key_bare (u : SourceUnit) : u.bare.key = u.key := by
  funext id
  rw [key, key, decl?_bare, Option.map_map]
  rfl

theorem includesIn_bare (u : SourceUnit) (o : Options) :
    o.includesIn u.bare = o.includesIn u := by
  funext id
  rw [Options.includesIn, Options.includesIn, decl?_bare, Option.any_map]
  rfl

theorem isFunction_bare (u : SourceUnit) : u.bare.isFunction = u.isFunction := by
  funext id
  rw [isFunction, isFunction, decl?_bare, Option.any_map]
  rfl

theorem statements_bare (u : SourceUnit) : u.bare.statements = u.statements := by
  funext id
  rw [statements, statements, decl?_bare, Option.bind_map]
  rfl

theorem sentTo?_bare (u : SourceUnit) : u.bare.sentTo? = u.sentTo? := by
  funext s
  unfold sentTo?
  rw [lookup?_bare]

theorem pointerCallsAt_bare (u : SourceUnit) (o : Options) :
    u.bare.pointerCallsAt o = u.pointerCallsAt o := by
  funext s
  unfold pointerCallsAt
  rw [isFunction_bare, includesIn_bare]

theorem callsOf_bare (u : SourceUnit) (o : Options) : u.bare.callsOf o = u.callsOf o := by
  funext id
  unfold callsOf callsAt runs?
  rw [statements_bare, sentTo?_bare, includesIn_bare, pointerCallsAt_bare]

theorem statsOf_bare (u : SourceUnit) (o : Options) : u.bare.statsOf o = u.statsOf o := by
  funext id
  unfold statsOf hasBody
  rw [statements_bare, sentTo?_bare, pointerCallsAt_bare, decl?_bare, Option.bind_map]
  rfl

theorem isSwept_bare (u : SourceUnit) (o : Options) : u.bare.isSwept o = u.isSwept o := by
  funext id
  rw [isSwept, isSwept, includesIn_bare, decl?_bare, Option.any_map]
  rfl

theorem isOverrider_bare (u : SourceUnit) (o : Options) :
    u.bare.isOverrider o = u.isOverrider o := by
  funext id
  rw [isOverrider, isOverrider, includesIn_bare, decl?_bare, Option.any_map]
  rfl

theorem overriddenOf_bare (u : SourceUnit) (o : Options) :
    u.bare.overriddenOf o = u.overriddenOf o := by
  funext id
  rw [overriddenOf, overriddenOf, isOverrider_bare, includesIn_bare, decl?_bare, Option.map_map]
  rfl

theorem linkedBy_bare (u : SourceUnit) (o : Options) : u.bare.linkedBy o = u.linkedBy o := by
  funext id
  rw [linkedBy, linkedBy, isOverrider_bare, overriddenOf_bare]

theorem ofDecl_bare (u : SourceUnit) (id : DeclId) :
    Node.ofDecl id (u.bare.decl? id) = Node.ofDecl id (u.decl? id) := by
  rw [decl?_bare]
  cases u.decl? id <;> rfl

end SourceUnit

theorem Stats.add_right_comm (a b c : Stats) : a + b + c = a + c + b := by
  show (a.add b).add c = (a.add c).add b
  simp only [add, Nat.add_right_comm]

/-! ## Units that differ in the order only -/

namespace SourceUnit

namespace Reordered

variable {u u' : SourceUnit} (h : u.Reordered u')

include h

theorem bare_eq : u'.bare = u.bare := by
  have hbare : List.Forall₂ (fun d d' => d'.bare = d.bare) u.decls.toList u'.decls.toList := by
    refine h.decls.imp ?_
    rintro d _ ⟨children, -, rfl⟩
    rfl
  have hdecls : u'.decls.map Decl.bare = u.decls.map Decl.bare := by
    rw [← Array.toList_inj, Array.toList_map, Array.toList_map, ← List.forall₂_eq_eq_eq,
      List.forall₂_map_left_iff, List.forall₂_map_right_iff]
    exact hbare.flip
  rw [bare, bare, hdecls]

theorem symm : u'.Reordered u where
  topLevel id := (h.topLevel id).symm
  decls := by
    refine List.Forall₂.flip (h.decls.imp ?_)
    rintro d _ ⟨children, hmem, rfl⟩
    exact ⟨d.children, fun id => (hmem id).symm, rfl⟩

theorem decl? {id : DeclId} {d : Decl} (hd : u.decl? id = some d) :
    ∃ d', u'.decl? id = some d' ∧ d.Reordered d' := by
  obtain ⟨hlength, hall⟩ := List.forall₂_iff_get.mp h.decls
  obtain ⟨hid, rfl⟩ := Array.getElem?_eq_some_iff.mp hd
  have hid' : id.toNat < u'.decls.size := by
    rw [Array.length_toList, Array.length_toList] at hlength
    omega
  exact ⟨_, Array.getElem?_eq_getElem hid', hall id.toNat hid hid'⟩

theorem holds {a b : DeclId} (hab : u.Holds a b) : u'.Holds a b := by
  obtain ⟨d, hd, hb⟩ := hab
  obtain ⟨d', hd', children, hmem, rfl⟩ := h.decl? hd
  exact ⟨_, hd', (hmem b).mpr hb⟩

theorem inside_iff {a b : DeclId} : u'.Inside a b ↔ u.Inside a b := by
  constructor
  · exact Relation.ReflTransGen.mono (fun _ _ => h.symm.holds) a b
  · exact Relation.ReflTransGen.mono (fun _ _ => h.holds) a b

theorem visited_iff {id : DeclId} : u'.Visited id ↔ u.Visited id := by
  simp only [Visited, h.topLevel, h.inside_iff]

theorem walk_perm : u'.walk.Perm u.walk := by
  refine (List.perm_ext_iff_of_nodup walk_nodup walk_nodup).mpr fun id => ?_
  rw [mem_walk_iff, mem_walk_iff, h.visited_iff]

theorem isBlock {o : Options} {b : DeclId} (hb : u.IsBlock o b) : u'.IsBlock o b := by
  obtain ⟨d, hd, hkind, hincl⟩ := hb
  obtain ⟨_, hd', _, -, rfl⟩ := h.decl? hd
  exact ⟨_, hd', hkind, hincl⟩

theorem blocksIn_perm (o : Options) (id : DeclId) :
    (u'.blocksIn o id).Perm (u.blocksIn o id) := by
  refine (List.perm_ext_iff_of_nodup (blocksIn_nodup id) (blocksIn_nodup id)).mpr fun b => ?_
  rw [mem_blocksIn_iff, mem_blocksIn_iff, h.inside_iff]
  exact and_congr_right fun _ => ⟨h.symm.isBlock, h.isBlock⟩

theorem sweep_perm (o : Options) : (u'.sweep o).Perm (u.sweep o) := by
  have hswept : u'.isSwept o = u.isSwept o := by
    rw [← isSwept_bare, h.bare_eq, isSwept_bare]
  rw [sweep, sweep, hswept]
  exact (h.walk_perm.filter _).flatMap fun id _ => (h.blocksIn_perm o id).append_right [id]

theorem callsOf_eq (o : Options) : u'.callsOf o = u.callsOf o := by
  rw [← callsOf_bare, h.bare_eq, callsOf_bare]

theorem resolve_eq : u'.resolve = u.resolve := by
  rw [← resolve_bare, h.bare_eq, resolve_bare]

theorem met_perm (o : Options) : (u'.met o).Perm (u.met o) := by
  have hmetIn : u'.metIn o = u.metIn o := by
    funext id
    rw [metIn, metIn, h.callsOf_eq]
  have hlinkedBy : u'.linkedBy o = u.linkedBy o := by
    rw [← linkedBy_bare, h.bare_eq, linkedBy_bare]
  rw [met, met, hmetIn, hlinkedBy]
  refine ((h.sweep_perm o).flatMap_right _).append ?_
  split
  · exact h.walk_perm.flatMap_right _
  · exact List.Perm.refl _

theorem overrides {o : Options} {id : DeclId} {d : Decl} (hd : u.Overrides o id d) :
    ∃ d', u'.Overrides o id d' ∧ d'.overridden = d.overridden := by
  obtain ⟨hvisited, hdecl, hkind, hvirtual, hincl⟩ := hd
  obtain ⟨_, hdecl', _, -, rfl⟩ := h.decl? hdecl
  exact ⟨_, ⟨h.visited_iff.mpr hvisited, hdecl', hkind, hvirtual, hincl⟩, rfl⟩

theorem sweepStats_eq (o : Options) : u'.sweepStats o = u.sweepStats o := by
  have hstatsOf : u'.statsOf o = u.statsOf o := by
    rw [← statsOf_bare, h.bare_eq, statsOf_bare]
  have hcomm : RightCommutative fun a b : Stats => a + b := ⟨Stats.add_right_comm⟩
  rw [sweepStats, sweepStats, Stats.sum, Stats.sum, hstatsOf]
  exact ((h.sweep_perm o).map _).foldl_eq _

end Reordered

end SourceUnit

/-! ## Their graphs -/

namespace Graph

/-- The graphs hold the same, apart from the places of nodes and who owns a key. -/
structure Agrees (g g' : Graph) : Prop where
  /-- The same identities have nodes, which keep the same kinds and names. -/
  nodes : g'.nodes.toList.Perm g.nodes.toList
  calls : ∀ i j, g'.callsBetween i j = g.callsBetween i j
  /-- The same nodes override each other, and are overridden by each other. -/
  linked : ∀ kind i j, kind ≠ .call → (g'.Linked kind i j ↔ g.Linked kind i j)
  stats : g'.stats = g.stats
  keys : (g'.keys.map Prod.fst).Perm (g.keys.map Prod.fst)

section

variable {u u' : SourceUnit} (h : u.Reordered u') (o : Options)

include h

theorem mem_identities_reordered (i : Identity) :
    i ∈ (build o u').identities ↔ i ∈ (build o u).identities := by
  rw [mem_identities_build, mem_identities_build, h.resolve_eq]
  simp only [(h.met_perm o).mem_iff]

theorem nodes_reordered : (build o u').nodes.toList.Perm (build o u).nodes.toList := by
  refine (List.perm_ext_iff_of_nodup (build_valid o u').nodes_nodup
    (build_valid o u).nodes_nodup).mpr fun node => ?_
  have hofDecl : ∀ d, Node.ofDecl d (u'.decl? d) = Node.ofDecl d (u.decl? d) := by
    intro d
    rw [← SourceUnit.ofDecl_bare, h.bare_eq, SourceUnit.ofDecl_bare]
  simp only [mem_nodes_build, mem_identities_reordered h o, hofDecl]

theorem callsBetween_reordered (i j : Identity) :
    (build o u').callsBetween i j = (build o u).callsBetween i j := by
  cases i with
  | decl a =>
      have hends : u'.ends = u.ends := by
        funext c
        rw [SourceUnit.ends, SourceUnit.ends, h.resolve_eq]
      rw [callsBetween_eq_count (build_valid o u'), callsBetween_eq_count (build_valid o u),
        callPairs_build, callPairs_build, h.callsOf_eq, hends]
      exact (((h.sweep_perm o).flatMap_right _).map _).count_eq _
  | root =>
      cases j with
      | decl b =>
          rw [callsBetween_root_build, callsBetween_root_build]
          exact ((nodes_reordered h o).map _).count_eq _
      | root =>
          rw [(build_valid o u').callsBetween_root, (build_valid o u).callsBetween_root]

theorem linked_reordered {kind : EdgeKind} {i j : Identity} (hk : kind ≠ .call)
    (hlinked : (build o u).Linked kind i j) : (build o u').Linked kind i j := by
  obtain ⟨ho, id, d, m, hd, hm, hincl, hends⟩ := (linked_build hk).mp hlinked
  obtain ⟨d', hd', hover⟩ := h.overrides hd
  refine (linked_build hk).mpr ⟨ho, id, d', m, hd', hover ▸ hm, ?_, ?_⟩
  · rwa [← SourceUnit.includesIn_bare, h.bare_eq, SourceUnit.includesIn_bare]
  · rw [← hends]
    cases kind <;> simp only [SourceUnit.overrideEnds?, h.resolve_eq]

theorem keys_reordered :
    ((build o u').keys.map Prod.fst).Perm ((build o u).keys.map Prod.fst) := by
  refine (List.perm_ext_iff_of_nodup (build_valid o u').key_once
    (build_valid o u).key_once).mpr fun k => ?_
  have hkey : u'.key = u.key := by rw [← SourceUnit.key_bare, h.bare_eq, SourceUnit.key_bare]
  simp only [mem_keys_build, mem_identities_reordered h o, hkey]

end

/-- **The order of declarations does not matter.** If two units differ only in the order, or in the
repetition, of what stands at the top and of what lies inside each declaration, their graphs hold the
same nodes, as many calls between any two of them, the same overriding, the same counts and the same
keys. -/
theorem build_agrees_of_reordered (o : Options) {u u' : SourceUnit} (h : u.Reordered u') :
    (build o u).Agrees (build o u') where
  nodes := nodes_reordered h o
  calls := callsBetween_reordered h o
  linked _ _ _ hk := ⟨linked_reordered h.symm o hk, linked_reordered h o hk⟩
  stats := by rw [build_stats, build_stats, h.sweepStats_eq]
  keys := keys_reordered h o

/-- A function with two blocks, and a function that one of them calls, listed as given. -/
def twoBlocks (top inner : List DeclId) : SourceUnit where
  name := "blocks.c"
  decls := #[
    { Decl.ofName .function "f" with id := 0, children := inner, body := some (.blockCall 1) },
    { Decl.ofKind .block with id := 1, body := some (.directCall 3 []) },
    { Decl.ofKind .block with id := 2, body := some (.directCall 0 []) },
    { Decl.ofName .function "g" with id := 3 }]
  topLevel := top

/-- Two listings of it are walked in different orders, and their graphs agree. -/
theorem agrees_twoBlocks :
    (twoBlocks [0, 3] [1, 2]).walk = [0, 1, 2, 3]
    ∧ (twoBlocks [3, 0, 3] [2, 1, 2]).walk = [3, 0, 2, 1]
    ∧ (twoBlocks [0, 3] [1, 2]).Reordered (twoBlocks [3, 0, 3] [2, 1, 2])
    ∧ (build {} (twoBlocks [0, 3] [1, 2])).Agrees (build {} (twoBlocks [3, 0, 3] [2, 1, 2])) := by
  have hsame : ∀ d : Decl, d.Reordered d := fun d => ⟨d.children, fun _ => Iff.rfl, rfl⟩
  have hinner : ∀ id : DeclId, id ∈ [2, 1, 2] ↔ id ∈ ([1, 2] : List DeclId) := by simp
  have hreordered : (twoBlocks [0, 3] [1, 2]).Reordered (twoBlocks [3, 0, 3] [2, 1, 2]) :=
    { topLevel := by simp [twoBlocks]
      decls := .cons ⟨[2, 1, 2], hinner, rfl⟩ (.cons (hsame _) (.cons (hsame _)
        (.cons (hsame _) .nil))) }
  exact ⟨by cbv, by cbv, hreordered, build_agrees_of_reordered {} hreordered⟩

end Graph

end CallGraph
