import CallGraph.Proofs.Nodes
import Mathlib.Algebra.BigOperators.Group.List.Basic
import Mathlib.Algebra.GroupWithZero.Nat

/-!
# Overriding in a unit's graph

Linking a method to one that it overrides puts in two edges, one in each direction and each only if
it is not there. So what matters about these edges is between which identities there is one
(`Linked`). Nodes that are made on the way bring in a call of the root and nothing of this kind, and
neither do the calls of bodies; a pair of methods brings in its two edges (`linked_linkPair`), and a
unit those of the pairs that its methods name, as often as they name them (`linked_build`).

A node stands at one place, so places can be told by identities in the end, and the two relations
come out exact and each the converse of the other. That none of the edges stands twice is part of
what holds of all graphs.
-/

namespace CallGraph

namespace Graph

/-! ## Edges between identities -/

/-- An edge of this kind leads from the node with one identity to the node with the other. -/
def Linked (g : Graph) (kind : EdgeKind) (i j : Identity) : Prop :=
  ∃ e ∈ g.edges.toList,
    e.kind = kind ∧ g.identity? e.source = some i ∧ g.identity? e.target = some j

theorem Valid.mem_targets_iff_linked {g : Graph} (hg : g.Valid) {kind : EdgeKind} {n m : Nat} :
    m ∈ g.targets kind n
      ↔ ∃ i j, g.identity? n = some i ∧ g.identity? m = some j ∧ g.Linked kind i j := by
  rw [mem_targets_iff]
  constructor
  · intro he
    obtain ⟨hs, ht⟩ := hg.ends _ he
    obtain ⟨i, hi⟩ := exists_identity?_of_has hs
    obtain ⟨j, hj⟩ := exists_identity?_of_has ht
    exact ⟨i, j, hi, hj, _, he, rfl, hi, hj⟩
  · rintro ⟨i, j, hi, hj, e, he, rfl, hs, ht⟩
    obtain rfl := hg.identity?_inj hs hi
    obtain rfl := hg.identity?_inj ht hj
    exact he

/-- Edges of a kind other than calls do not repeat. -/
theorem Valid.edges_nodup {g : Graph} (hg : g.Valid) {kind : EdgeKind} (hk : kind ≠ .call) :
    (g.edges.toList.filter fun e => e.kind = kind).Nodup := by
  refine List.nodup_iff_count_le_one.mpr fun e => ?_
  by_cases he : e.kind = kind
  · exact (List.filter_sublist.count_le e).trans (hg.edge_once e (he ▸ hk))
  · have hnone : e ∉ g.edges.toList.filter fun e => e.kind = kind :=
      fun hmem => he (of_decide_eq_true (List.mem_filter.mp hmem).2)
    rw [List.count_eq_zero.mpr hnone]
    exact Nat.zero_le 1

theorem Valid.targets_nodup {g : Graph} (hg : g.Valid) {kind : EdgeKind} (hk : kind ≠ .call)
    (n : Nat) : (g.targets kind n).Nodup := by
  have hedges : (g.edges.toList.filter fun e => e.kind = kind ∧ e.source = n).Nodup := by
    refine (hg.edges_nodup hk).sublist (List.monotone_filter_right _ fun e he => ?_)
    exact decide_eq_true (of_decide_eq_true he).1
  refine List.Nodup.map_on (fun e he f hf htarget => ?_) hedges
  obtain ⟨hek, hes⟩ := of_decide_eq_true (List.mem_filter.mp he).2
  obtain ⟨hfk, hfs⟩ := of_decide_eq_true (List.mem_filter.mp hf).2
  cases e
  cases f
  simp_all

/-! ## One change -/

variable {kind : EdgeKind} {i j : Identity}

theorem linked_addNode {g : Graph} (hg : g.Valid) (u : SourceUnit) (d : DeclId)
    (hk : kind ≠ .call) : (g.addNode u d).Linked kind i j ↔ g.Linked kind i j := by
  unfold Linked
  rw [addNode_edges]
  constructor
  · rintro ⟨e, he, rfl, hs, ht⟩
    rcases List.mem_append.mp he with he | he
    · obtain ⟨hes, het⟩ := hg.ends e he
      rw [identity?_addNode_of_has u d hes] at hs
      rw [identity?_addNode_of_has u d het] at ht
      exact ⟨e, he, rfl, hs, ht⟩
    · obtain rfl := List.mem_singleton.mp he
      exact absurd rfl hk
  · rintro ⟨e, he, rfl, hs, ht⟩
    obtain ⟨hes, het⟩ := hg.ends e he
    refine ⟨e, List.mem_append_left _ he, rfl, ?_, ?_⟩
    · rw [identity?_addNode_of_has u d hes, hs]
    · rw [identity?_addNode_of_has u d het, ht]

theorem linked_insert {g : Graph} (hg : g.Valid) (u : SourceUnit) (id : DeclId)
    (hk : kind ≠ .call) :
    (g.insert u (some id)).1.Linked kind i j ↔ g.Linked kind i j := by
  rcases insert_eq g u id with ⟨n, -, heq⟩ | ⟨d, -, -, heq⟩
  · rw [heq]
  · rw [heq]
    exact linked_addNode hg u d hk

theorem linked_link (g : Graph) (e : Edge) :
    (g.link e).Linked kind i j ↔ g.Linked kind i j
      ∨ e.kind = kind ∧ g.identity? e.source = some i ∧ g.identity? e.target = some j := by
  have hid : ∀ n, (g.link e).identity? n = g.identity? n := fun _ => rfl
  simp only [Linked, link_edges, List.mem_append, List.mem_singleton, hid, or_and_right, exists_or,
    exists_eq_left]

theorem linked_linkOnce (g : Graph) (e : Edge) :
    (g.linkOnce e).Linked kind i j ↔ g.Linked kind i j
      ∨ e.kind = kind ∧ g.identity? e.source = some i ∧ g.identity? e.target = some j := by
  rcases linkOnce_eq g e with ⟨he, heq⟩ | ⟨-, heq⟩
  · rw [heq]
    -- The edge is there already, so the right side says nothing new.
    exact ⟨Or.inl, fun h => h.elim (fun h => h) fun h => ⟨e, he, h⟩⟩
  · rw [heq]
    exact linked_link g e

/-! ## Bodies and methods -/

theorem linked_addCall {g : Graph} (hg : g.Valid) (u : SourceUnit) (c : Call)
    (hk : kind ≠ .call) : (g.addCall u c).Linked kind i j ↔ g.Linked kind i j := by
  have hg₁ := (insert_moves g u (some c.caller)).valid hg
  unfold addCall
  rw [linked_link, linked_insert hg₁ u c.callee hk, linked_insert hg u c.caller hk]
  exact or_iff_left fun h => hk h.1.symm

theorem linked_addDecl {g : Graph} (hg : g.Valid) (u : SourceUnit) (id : DeclId)
    (hk : kind ≠ .call) : (g.addDecl u id).1.Linked kind i j ↔ g.Linked kind i j := by
  have hinsert := insert_moves g u (some id)
  have hcalls := iff_foldl_of_keeps (P := fun g => g.Linked kind i j)
    (fun _ c hg => addCall_moves u c hg) (fun _ c hg => linked_addCall hg u c hk)
    (u.callsOf g.options id) (hinsert.valid hg)
  exact hcalls.trans (linked_insert hg u id hk)

theorem linked_addDecls {g : Graph} (hg : g.Valid) (u : SourceUnit) (ids : List DeclId)
    (hk : kind ≠ .call) : (g.addDecls u ids).1.Linked kind i j ↔ g.Linked kind i j := by
  rw [addDecls_fst]
  exact iff_foldl_of_keeps (P := fun g => g.Linked kind i j) (fun _ id hg => addDecl_moves u id hg)
    (fun _ id hg => linked_addDecl hg u id hk) ids hg

end Graph

/-- The ends of the edge of a kind that a method and one it overrides get between them. -/
def SourceUnit.overrideEnds? (u : SourceUnit) (method overridden : DeclId) :
    EdgeKind → Option (Identity × Identity)
  | .call => none
  | .overrides => some (u.resolve (some method), u.resolve (some overridden))
  | .overriddenBy => some (u.resolve (some overridden), u.resolve (some method))

namespace Graph

variable {kind : EdgeKind} {i j : Identity}

theorem linked_linkPair {g : Graph} (hg : g.Valid) (u : SourceUnit) (method overridden : DeclId)
    (hk : kind ≠ .call) :
    (g.linkPair u method overridden).Linked kind i j
      ↔ g.Linked kind i j ∨ u.overrideEnds? method overridden kind = some (i, j) := by
  rcases h₁ : g.insert u (some method) with ⟨g₁, a⟩
  rcases h₂ : g₁.insert u (some overridden) with ⟨g₂, b⟩
  obtain ⟨-, ha, hb⟩ := insert_insert hg h₁ h₂
  have hinsert₁ := linked_insert (i := i) (j := j) hg u method hk
  have hg₁ := (insert_moves g u (some method)).valid hg
  rw [h₁] at hinsert₁ hg₁
  have hinsert₂ := linked_insert (i := i) (j := j) hg₁ u overridden hk
  rw [h₂] at hinsert₂
  simp only [linkPair, h₁, h₂]
  rw [linked_linkOnce, linked_linkOnce, hinsert₂, hinsert₁, identity?_linkOnce,
    identity?_linkOnce, ha, hb]
  -- One of the two edges is of this kind.
  cases kind with
  | call => exact absurd rfl hk
  | overrides => simp [SourceUnit.overrideEnds?]
  | overriddenBy => simp [SourceUnit.overrideEnds?]

theorem linked_linkMethod {g : Graph} (hg : g.Valid) (u : SourceUnit) (id : DeclId)
    (hk : kind ≠ .call) :
    (g.linkMethod u id).1.Linked kind i j ↔ g.Linked kind i j
      ∨ ∃ m ∈ u.overriddenOf g.options id, u.overrideEnds? id m kind = some (i, j) := by
  unfold linkMethod
  split
  · have hinsert := insert_moves g u (some id)
    have hpairs := iff_foldl (P := fun g => g.Linked kind i j)
      (fun g m hg => linkPair_moves u id m hg) (fun g m hg _ => linked_linkPair hg u id m hk)
      (u.overriddenOf g.options id) (hinsert.valid hg) hinsert.options
    rw [hpairs, linked_insert hg u id hk]
  · next hover => simp [SourceUnit.overriddenOf, hover]

theorem linked_linkUnit {g : Graph} (hg : g.Valid) (u : SourceUnit) (hk : kind ≠ .call) :
    (g.linkUnit u).1.Linked kind i j ↔ g.Linked kind i j
      ∨ ∃ id ∈ u.walk, ∃ m ∈ u.overriddenOf g.options id,
        u.overrideEnds? id m kind = some (i, j) := by
  rw [linkUnit_fst]
  refine iff_foldl (P := fun g => g.Linked kind i j) (fun g id hg => linkMethod_moves u id hg)
    (fun g' id hg' ho => ?_) u.walk hg rfl
  rw [linked_linkMethod hg' u id hk, ho]

/-! ## The graph of a unit -/

theorem not_linked_ofOptions (o : Options) : ¬ (ofOptions o).Linked kind i j := by
  rintro ⟨e, he, -⟩
  simp [ofOptions] at he

/-- The edges of a unit's graph that are no calls come from the methods that its methods name. -/
theorem linked_build {o : Options} {u : SourceUnit} (hk : kind ≠ .call) :
    (build o u).Linked kind i j ↔ o.linkOverrides = true
      ∧ ∃ id d m, u.Overrides o id d ∧ m ∈ d.overridden ∧ o.includesIn u m = true
        ∧ u.overrideEnds? id m kind = some (i, j) := by
  have hmoves := addDecls_moves u (u.sweep o) (valid_ofOptions o)
  have hbodies : ¬ ((ofOptions o).addDecls u (u.sweep o)).1.Linked kind i j := by
    rw [linked_addDecls (valid_ofOptions o) u _ hk]
    exact not_linked_ofOptions o
  rw [build_eq]
  split
  · next ho =>
      rw [linked_linkUnit (hmoves.valid (valid_ofOptions o)) u hk, hmoves.options,
        or_iff_right hbodies, and_iff_right ho]
      constructor
      · rintro ⟨id, hid, m, hm, hends⟩
        have hvisited := SourceUnit.mem_walk_iff.mp hid
        obtain ⟨d, hd⟩ : ∃ d, u.Overrides o id d := by
          refine (SourceUnit.isOverrider_iff hvisited).mp ?_
          by_contra hnot
          simp [SourceUnit.overriddenOf, ofOptions, hnot] at hm
        obtain ⟨hover, hincl⟩ := (SourceUnit.mem_overriddenOf_iff hd).mp hm
        exact ⟨id, d, m, hd, hover, hincl, hends⟩
      · rintro ⟨id, d, m, hd, hover, hincl, hends⟩
        exact ⟨id, SourceUnit.mem_walk_iff.mpr hd.1, m,
          (SourceUnit.mem_overriddenOf_iff hd).mpr ⟨hover, hincl⟩, hends⟩
  · next ho =>
      constructor
      · intro hlinked
        exact absurd hlinked hbodies
      · rintro ⟨hon, -⟩
        exact absurd hon ho

end Graph

/-! ## How many methods are named -/

namespace SourceUnit

variable (u : SourceUnit) (o : Options)

/-- The virtual methods of the unit that may become nodes, with their places. -/
def overriders : List (DeclId × Decl) :=
  u.walk.filterMap fun id => if u.isOverrider o id then (u.decl? id).map (id, ·) else none

variable {u o}

theorem mem_overriders_iff {x : DeclId × Decl} : x ∈ u.overriders o ↔ u.Overrides o x.1 x.2 := by
  unfold overriders
  simp only [List.mem_filterMap, mem_walk_iff, Option.ite_none_right_eq_some,
    Option.map_eq_some_iff]
  constructor
  · rintro ⟨id, hvisited, hover, d, hd, rfl⟩
    obtain ⟨d', hd'⟩ := (isOverrider_iff hvisited).mp hover
    obtain rfl := Option.some.inj (hd.symm.trans hd'.2.1)
    exact hd'
  · intro hx
    exact ⟨x.1, hx.1, (isOverrider_iff hx.1).mpr ⟨x.2, hx⟩, x.2, hx.2.1, rfl⟩

theorem overriders_nodup : (u.overriders o).Nodup := by
  refine List.Nodup.filterMap (fun id id' x hid hid' => ?_) walk_nodup
  simp only [Option.mem_def, Option.ite_none_right_eq_some, Option.map_eq_some_iff] at hid hid'
  obtain ⟨-, d, -, rfl⟩ := hid
  obtain ⟨-, d', -, heq⟩ := hid'
  exact (congrArg Prod.fst heq).symm

/-- What a method asks to be linked to are the methods that it names and that may become nodes. -/
theorem overriddenOf_eq (id : DeclId) :
    u.overriddenOf o id = ((if u.isOverrider o id then (u.decl? id).map (id, ·) else none).map
      fun x : DeclId × Decl => x.2.overridden.filter (o.includesIn u)).getD [] := by
  unfold overriddenOf
  split
  · cases u.decl? id <;> rfl
  · rfl

theorem sum_length_overriddenOf :
    (u.walk.map fun id => (u.overriddenOf o id).length).sum
      = ((u.overriders o).map fun x => x.2.overridden.countP (o.includesIn u)).sum := by
  unfold overriders
  induction u.walk with
  | nil => rfl
  | cons id ids ih =>
      rw [List.map_cons, List.sum_cons, ih, overriddenOf_eq, List.filterMap_cons]
      cases if u.isOverrider o id then (u.decl? id).map (id, ·) else none with
      | none => simp
      | some x => simp [List.countP_eq_length_filter]

end SourceUnit

namespace Graph

theorem linkMethod_snd (g : Graph) (u : SourceUnit) (id : DeclId) :
    (g.linkMethod u id).2 = (u.overriddenOf g.options id).length := by
  unfold linkMethod
  split
  · rfl
  · next hover => simp [SourceUnit.overriddenOf, hover]

/-- Linking a unit gives back how many methods its methods name. -/
theorem linkUnit_snd (g : Graph) (u : SourceUnit) :
    (g.linkUnit u).2
      = ((u.overriders g.options).map fun x => x.2.overridden.countP (g.options.includesIn u)).sum := by
  have htally := tally_snd (fun o id => (u.overriddenOf o id).length)
    (fun g id => linkMethod_options g u id) (fun g id => linkMethod_snd g u id) u.walk g 0
  rw [← SourceUnit.sum_length_overriddenOf, List.sum_eq_foldl]
  exact htally

theorem mem_overrides_build {o : Options} {u : SourceUnit} {n m : Nat} :
    m ∈ (build o u).overrides n ↔ o.linkOverrides = true
      ∧ ∃ id d om, u.Overrides o id d ∧ om ∈ d.overridden ∧ o.includesIn u om = true
        ∧ (build o u).identity? n = some (u.resolve (some id))
        ∧ (build o u).identity? m = some (u.resolve (some om)) := by
  rw [overrides, (build_valid o u).mem_targets_iff_linked]
  simp only [linked_build (by simp : EdgeKind.overrides ≠ .call), SourceUnit.overrideEnds?]
  constructor
  · rintro ⟨i, j, hi, hj, ho, id, d, om, hd, hom, hincl, heq⟩
    obtain ⟨rfl, rfl⟩ := Prod.mk.inj (Option.some.inj heq)
    exact ⟨ho, id, d, om, hd, hom, hincl, hi, hj⟩
  · rintro ⟨ho, id, d, om, hd, hom, hincl, hi, hj⟩
    exact ⟨_, _, hi, hj, ho, id, d, om, hd, hom, hincl, rfl⟩

theorem linked_overriddenBy_build {o : Options} {u : SourceUnit} {i j : Identity} :
    (build o u).Linked .overriddenBy j i ↔ (build o u).Linked .overrides i j := by
  -- Both directions come from the same pairs of methods, with the ends the other way round.
  simp only [linked_build (by simp : EdgeKind.overriddenBy ≠ .call),
    linked_build (by simp : EdgeKind.overrides ≠ .call), SourceUnit.overrideEnds?,
    Option.some.injEq, Prod.mk.injEq, and_comm (b := u.resolve _ = i)]

theorem mem_overriddenBy_build {o : Options} {u : SourceUnit} {n m : Nat} :
    n ∈ (build o u).overriddenBy m ↔ m ∈ (build o u).overrides n := by
  rw [overriddenBy, overrides, (build_valid o u).mem_targets_iff_linked,
    (build_valid o u).mem_targets_iff_linked, exists_comm]
  simp only [linked_overriddenBy_build]
  refine exists_congr fun i => exists_congr fun j => ?_
  rw [and_left_comm]

/-- **Overriding in a unit's graph.** If the options ask for it, one node overrides another exactly
if a virtual method of the unit with the identity of the first names one with the identity of the
second, both of which may become nodes; otherwise none does. To be overridden is the converse, and
neither list repeats a node. The number that linking gives back, in whatever graph, is that of all
methods named. -/
theorem mem_overrides_build_iff (o : Options) (u : SourceUnit) :
    (∀ n m, m ∈ (build o u).overrides n ↔ o.linkOverrides = true
      ∧ ∃ id d om, u.Overrides o id d ∧ om ∈ d.overridden ∧ o.includesIn u om = true
        ∧ (build o u).identity? n = some (u.resolve (some id))
        ∧ (build o u).identity? m = some (u.resolve (some om)))
    ∧ (∀ n m, n ∈ (build o u).overriddenBy m ↔ m ∈ (build o u).overrides n)
    ∧ (∀ n, ((build o u).overrides n).Nodup ∧ ((build o u).overriddenBy n).Nodup)
    ∧ (o.linkOverrides = true
      ∨ ∀ n, (build o u).overrides n = [] ∧ (build o u).overriddenBy n = [])
    ∧ ∀ g : Graph, (u.overriders g.options).Nodup
      ∧ (∀ x, x ∈ u.overriders g.options ↔ u.Overrides g.options x.1 x.2)
      ∧ (g.linkUnit u).2 = ((u.overriders g.options).map fun x =>
        x.2.overridden.countP (g.options.includesIn u)).sum := by
  refine ⟨fun n m => mem_overrides_build, fun n m => mem_overriddenBy_build, fun n => ?_, ?_,
    fun g => ⟨SourceUnit.overriders_nodup, fun x => SourceUnit.mem_overriders_iff, linkUnit_snd g u⟩⟩
  · exact ⟨(build_valid o u).targets_nodup (by simp) n, (build_valid o u).targets_nodup (by simp) n⟩
  · by_cases ho : o.linkOverrides = true
    · exact Or.inl ho
    · refine Or.inr fun n => ⟨?_, ?_⟩
      · refine List.eq_nil_iff_forall_not_mem.mpr fun m hm => ?_
        exact ho (mem_overrides_build.mp hm).1
      · refine List.eq_nil_iff_forall_not_mem.mpr fun m hm => ?_
        exact ho (mem_overrides_build.mp (mem_overriddenBy_build.mp hm)).1

end Graph

end CallGraph
