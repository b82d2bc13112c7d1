import CallGraph.Proofs.CallEdges

/-!
# Graphs of one unit

A graph may hold declarations of several units. The graph that is built of one unit has more to say
than others: every node keeps what the unit says of its declaration, and a stable key belongs to the
first node that has it in the unit.

Such facts are invariants of three steps, in which all declarations are of the unit: a node is
appended, an edge is put between nodes of declarations, and something is counted. `KeptBy` asks for
these steps and `KeptBy.build` gives the graph of the unit, so that no invariant has to look into the
way in which bodies and methods are put in.
-/

namespace CallGraph

namespace Graph

/-- The property is kept by what is done with the declarations of one unit. -/
structure KeptBy (u : SourceUnit) (P : Graph → Prop) : Prop where
  node : ∀ {g : Graph} {d : DeclId}, g.Valid → P g → P (g.addNode u d)
  link : ∀ {g : Graph} {e : Edge} {c d : DeclId}, g.Valid → P g →
    g.identity? e.source = some (.decl c) → g.identity? e.target = some (.decl d) → P (g.link e)
  count : ∀ {g : Graph} (s : Stats), P g → P { g with stats := g.stats + s }

namespace KeptBy

variable {u : SourceUnit} {P : Graph → Prop} (hP : KeptBy u P)

theorem foldl {β : Type} {f : Graph → β → Graph} (hmoves : ∀ g x, g.Valid → Moves g (f g x))
    (hstep : ∀ g x, g.Valid → P g → P (f g x)) (xs : List β) {g : Graph} (hg : g.Valid)
    (h : P g) : P (xs.foldl f g) := by
  induction xs generalizing g with
  | nil => exact h
  | cons x xs ih => exact ih ((hmoves g x hg).valid hg) (hstep g x hg h)

include hP

theorem insert {g : Graph} (hg : g.Valid) (h : P g) (id : DeclId) :
    P (g.insert u (some id)).1 := by
  rcases insert_eq g u id with ⟨n, -, heq⟩ | ⟨d, -, -, heq⟩
  · rw [heq]
    exact h
  · rw [heq]
    exact hP.node hg h

theorem insert_insert {g g₁ g₂ : Graph} {c d : DeclId} {a b : Nat} (hg : g.Valid) (h : P g)
    (h₁ : g.insert u (some c) = (g₁, a)) (h₂ : g₁.insert u (some d) = (g₂, b)) : P g₂ := by
  have hinsert₁ := hP.insert hg h c
  have hg₁ := (insert_moves g u (some c)).valid hg
  rw [h₁] at hinsert₁ hg₁
  have hinsert₂ := hP.insert hg₁ hinsert₁ d
  rwa [h₂] at hinsert₂

theorem linkOnce {g : Graph} {e : Edge} {c d : DeclId} (hg : g.Valid) (h : P g)
    (hs : g.identity? e.source = some (.decl c)) (ht : g.identity? e.target = some (.decl d)) :
    P (g.linkOnce e) := by
  rcases linkOnce_eq g e with ⟨-, heq⟩ | ⟨-, heq⟩
  · rw [heq]
    exact h
  · rw [heq]
    exact hP.link hg h hs ht

theorem addCall {g : Graph} (hg : g.Valid) (h : P g) (c : Call) : P (g.addCall u c) := by
  rcases h₁ : g.insert u (some c.caller) with ⟨g₁, a⟩
  rcases h₂ : g₁.insert u (some c.callee) with ⟨g₂, b⟩
  obtain ⟨hmoves, ha, hb⟩ := Graph.insert_insert hg h₁ h₂
  obtain ⟨i, hi⟩ := u.exists_resolve_eq c.caller
  obtain ⟨j, hj⟩ := u.exists_resolve_eq c.callee
  rw [hi] at ha
  rw [hj] at hb
  simp only [Graph.addCall, h₁, h₂]
  exact hP.link (hmoves.valid hg) (hP.insert_insert hg h h₁ h₂) ha hb

theorem addDecl {g : Graph} (hg : g.Valid) (h : P g) (id : DeclId) : P (g.addDecl u id).1 := by
  have hinsert := (insert_moves g u (some id)).valid hg
  have hcalls := foldl (fun _ c hg => addCall_moves u c hg) (fun _ c hg h => hP.addCall hg h c)
    (u.callsOf g.options id) hinsert (hP.insert hg h id)
  exact hP.count _ hcalls

theorem linkPair {g : Graph} (hg : g.Valid) (h : P g) (method overridden : DeclId) :
    P (g.linkPair u method overridden) := by
  rcases h₁ : g.insert u (some method) with ⟨g₁, a⟩
  rcases h₂ : g₁.insert u (some overridden) with ⟨g₂, b⟩
  obtain ⟨hmoves, ha, hb⟩ := Graph.insert_insert hg h₁ h₂
  obtain ⟨i, hi⟩ := u.exists_resolve_eq method
  obtain ⟨j, hj⟩ := u.exists_resolve_eq overridden
  rw [hi] at ha
  rw [hj] at hb
  have hg₂ := hmoves.valid hg
  have hover := hP.linkOnce (e := ⟨a, b, .overrides⟩) hg₂ (hP.insert_insert hg h h₁ h₂) ha hb
  have hvalid := hg₂.linkOnce (e := ⟨a, b, .overrides⟩) (has_of_identity? ha)
    (has_of_identity? hb) (by simp)
  simp only [Graph.linkPair, h₁, h₂]
  exact hP.linkOnce hvalid hover (by rwa [identity?_linkOnce]) (by rwa [identity?_linkOnce])

theorem linkMethod {g : Graph} (hg : g.Valid) (h : P g) (id : DeclId) :
    P (g.linkMethod u id).1 := by
  unfold Graph.linkMethod
  split
  · exact foldl (fun _ m hg => linkPair_moves u id m hg) (fun _ m hg h => hP.linkPair hg h id m) _
      ((insert_moves g u (some id)).valid hg) (hP.insert hg h id)
  · exact h

theorem addDecls {g : Graph} (hg : g.Valid) (h : P g) (ids : List DeclId) :
    P (g.addDecls u ids).1 := by
  rw [addDecls_fst]
  exact foldl (fun _ id hg => addDecl_moves u id hg) (fun _ id hg h => hP.addDecl hg h id) ids hg h

theorem linkUnit {g : Graph} (hg : g.Valid) (h : P g) : P (g.linkUnit u).1 := by
  rw [linkUnit_fst]
  exact foldl (fun _ id hg => linkMethod_moves u id hg) (fun _ id hg h => hP.linkMethod hg h id) u.walk
    hg h

theorem build (o : Options) (h : P (ofOptions o)) : P (build o u) := by
  have hmoves := addDecls_moves u (u.sweep o) (valid_ofOptions o)
  have hbodies := hP.addDecls (valid_ofOptions o) h (u.sweep o)
  rw [build_eq]
  split
  · exact hP.linkUnit (hmoves.valid (valid_ofOptions o)) hbodies
  · exact hbodies

end KeptBy

/-! ## What nodes keep -/

/-- Every node but the root keeps what the unit says of its declaration. -/
def Captures (u : SourceUnit) (g : Graph) : Prop :=
  ∀ node ∈ g.nodes.toList, node = .root ∨ ∃ d, node = .ofDecl d (u.decl? d)

theorem keptBy_captures (u : SourceUnit) : KeptBy u (Captures u) where
  node := by
    intro g d _ h node hnode
    rw [addNode_nodes, Array.toList_push] at hnode
    rcases List.mem_append.mp hnode with hold | hnew
    · exact h node hold
    · exact Or.inr ⟨d, List.mem_singleton.mp hnew⟩
  link _ h _ _ := h
  count _ h := h

theorem build_captures (o : Options) (u : SourceUnit) : Captures u (build o u) := by
  refine (keptBy_captures u).build o fun node hnode => Or.inl ?_
  simpa [ofOptions] using hnode

/-- The nodes of a unit's graph are the root and, for each identity, what the unit says of it. -/
theorem mem_nodes_build {o : Options} {u : SourceUnit} {node : Node} :
    node ∈ (build o u).nodes.toList
      ↔ node = .root ∨ ∃ d, .decl d ∈ (build o u).identities ∧ node = .ofDecl d (u.decl? d) := by
  have hmem : ∀ i, i ∈ (build o u).identities
      ↔ ∃ node ∈ (build o u).nodes.toList, node.identity = i := fun i => List.mem_map
  constructor
  · intro hnode
    rcases build_captures o u node hnode with hroot | ⟨d, rfl⟩
    · exact Or.inl hroot
    · exact Or.inr ⟨d, (hmem _).mpr ⟨_, hnode, rfl⟩, rfl⟩
  · rintro (rfl | ⟨d, hd, rfl⟩)
    · obtain ⟨node, hnode, hid⟩ := (hmem .root).mp (mem_identities_build.mpr (Or.inl rfl))
      rcases build_captures o u node hnode with rfl | ⟨d, rfl⟩
      · exact hnode
      · cases hid
    · obtain ⟨node, hnode, hid⟩ := (hmem _).mp hd
      rcases build_captures o u node hnode with rfl | ⟨d', rfl⟩
      · cases hid
      · obtain rfl := Identity.decl.inj hid
        exact hnode

theorem Valid.nodes_nodup {g : Graph} (hg : g.Valid) : g.nodes.toList.Nodup := by
  refine List.nodup_iff_getElem?_ne_getElem?.mpr fun n m hnm hm heq => ?_
  rw [Array.getElem?_toList, Array.getElem?_toList] at heq
  have hid : g.identity? n = g.identity? m := congrArg (Option.map Node.identity) heq
  obtain ⟨i, hi⟩ := exists_identity?_of_has (has_iff.mpr (by simpa using hm))
  exact Nat.ne_of_lt hnm (hg.identity?_inj (hid.trans hi) hi)

/-! ## Which node owns a key -/

end Graph

/-- The node stands for a declaration that has this key in the unit. -/
def Node.hasKey (u : SourceUnit) (k : Key) (node : Node) : Bool :=
  match node.identity with
  | .root => false
  | .decl d => u.key d = k

namespace Graph

/-- Every stable key is owned by the first node that has it. -/
def FirstOwns (u : SourceUnit) (g : Graph) : Prop :=
  ∀ k, g.nodeOfKey? k = if k.isStable then g.nodes.findIdx? (·.hasKey u k) else none

theorem nodeOfKey?_claim (g : Graph) (k k' : Key) (n : Nat) :
    (g.claim k n).nodeOfKey? k' = (g.nodeOfKey? k').or
      (if k'.isStable ∧ k = k' then some n else none) := by
  unfold claim
  split
  · next hfree =>
      obtain ⟨hstable, hnone⟩ := Bool.and_eq_true_iff.mp hfree
      have happend : ({ g with keys := g.keys ++ [(k, n)] } : Graph).nodeOfKey? k'
          = (g.nodeOfKey? k').or (List.lookup k' [(k, n)]) := List.lookup_append
      rw [happend]
      by_cases hk : k = k'
      · subst hk
        simp [hstable]
      · have hne : (k' == k) = false := beq_false_of_ne (Ne.symm hk)
        simp [hk, List.lookup_cons, hne]
  · next htaken =>
      -- The key is not stable, or it is owned already; in both cases the right side adds nothing.
      by_cases hk : k'.isStable ∧ k = k'
      · obtain ⟨hstable, rfl⟩ := hk
        rw [hstable, Bool.true_and, Bool.not_eq_true, Option.isNone_eq_false_iff] at htaken
        rw [Option.or_of_isSome htaken]
      · rw [if_neg hk, Option.or_none]

theorem keptBy_firstOwns (u : SourceUnit) : KeptBy u (FirstOwns u) where
  node := by
    intro g d _ h k
    have hclaim : (g.addNode u d).nodeOfKey? k = (g.nodeOfKey? k).or
        (if k.isStable ∧ u.key d = k then some g.nodes.size else none) :=
      nodeOfKey?_claim (g.appendNode (.ofDecl d (u.decl? d))) (u.key d) k _
    rw [hclaim, h k, addNode_nodes, Array.findIdx?_push]
    by_cases hstable : k.isStable <;> simp [hstable, Node.hasKey, Node.ofDecl]
  link _ h _ _ := h
  count _ h := h

theorem firstOwns_ofOptions (o : Options) (u : SourceUnit) : FirstOwns u (ofOptions o) := by
  intro k
  simp [nodeOfKey?, ofOptions, Node.hasKey, Node.root]

theorem build_firstOwns (o : Options) (u : SourceUnit) : FirstOwns u (build o u) :=
  (keptBy_firstOwns u).build o (firstOwns_ofOptions o u)

/-- The keys of a unit's graph are the stable keys of the declarations that have nodes. -/
theorem mem_keys_build {o : Options} {u : SourceUnit} {k : Key} :
    k ∈ (build o u).keys.map Prod.fst
      ↔ k.isStable = true ∧ ∃ d, .decl d ∈ (build o u).identities ∧ u.key d = k := by
  have howned : k ∈ (build o u).keys.map Prod.fst ↔ ((build o u).nodeOfKey? k).isSome := by
    simp [nodeOfKey?, List.lookup_isSome_iff]
  rw [howned, build_firstOwns o u k]
  by_cases hstable : k.isStable
  · rw [if_pos hstable, Array.findIdx?_isSome, ← Array.any_toList, List.any_eq_true,
      and_iff_right hstable]
    constructor
    · rintro ⟨node, hnode, hkey⟩
      rcases mem_nodes_build.mp hnode with rfl | ⟨d, hd, rfl⟩
      · cases hkey
      · exact ⟨d, hd, of_decide_eq_true hkey⟩
    · rintro ⟨d, hd, hkey⟩
      exact ⟨_, mem_nodes_build.mpr (Or.inr ⟨d, hd, rfl⟩), decide_eq_true hkey⟩
  · simp [hstable]

/-! ## What the root calls -/

/-- The root calls every other node once, in the order of the nodes. -/
def RootCallsAll (g : Graph) : Prop :=
  g.callees root = List.range' 1 (g.nodes.size - 1)

theorem keptBy_rootCallsAll (u : SourceUnit) : KeptBy u RootCallsAll where
  node := by
    intro g d hg h
    have hsize : 0 < g.nodes.size := hg.root_lt_size
    have hcallees : (g.addNode u d).callees root = g.callees root ++ [g.nodes.size] := by
      simp [callees, targets]
    rw [RootCallsAll, hcallees, h, addNode_nodes, Array.size_push]
    obtain ⟨n, hn⟩ := Nat.exists_eq_succ_of_ne_zero (Nat.ne_of_gt hsize)
    rw [hn, Nat.succ_sub_one, Nat.add_sub_cancel, List.range'_concat]
    congr 2
    omega
  link := by
    intro g e c d hg h hs _
    have hcallees : (g.link e).callees root = g.callees root := by
      simp [callees, targets, hg.ne_root hs]
    rw [RootCallsAll, hcallees, h, link_nodes]
  count _ h := h

theorem callees_root_build (o : Options) (u : SourceUnit) :
    (build o u).callees root = List.range' 1 ((build o u).nodes.size - 1) :=
  (keptBy_rootCallsAll u).build o rfl

/-- The identities of the nodes, place by place. -/
theorem map_identity?_range (g : Graph) :
    (List.range g.nodes.size).map g.identity? = g.identities.map some := by
  refine List.ext_getElem (by simp [identities]) fun n hn _ => ?_
  have hsize : n < g.nodes.size := by simpa using hn
  simp [identities, identity?, Array.getElem?_eq_getElem hsize]

/-- The root calls a declaration once if it has a node, and otherwise not. -/
theorem callsBetween_root_build (o : Options) (u : SourceUnit) (d : DeclId) :
    (build o u).callsBetween .root (.decl d) = (build o u).identities.count (.decl d) := by
  have hg := build_valid o u
  have hcallees : (build o u).callsBetween .root (.decl d)
      = ((build o u).callees root).countP fun n => (build o u).identity? n = some (.decl d) := by
    rw [callees, targets, List.countP_map, List.countP_filter, callsBetween]
    refine List.countP_congr fun e _ => ?_
    simp only [hg.root_iff, decide_eq_true_eq, Function.comp_apply, Bool.and_eq_true]
    constructor
    · rintro ⟨hk, hs, ht⟩
      exact ⟨ht, hk, hs⟩
    · rintro ⟨ht, hk, hs⟩
      exact ⟨hk, hs, ht⟩
  have hplaces : List.range (build o u).nodes.size
      = root :: List.range' 1 ((build o u).nodes.size - 1) := by
    obtain ⟨n, hn⟩ := Nat.exists_eq_succ_of_ne_zero (Nat.ne_of_gt hg.root_lt_size)
    rw [hn, List.range_eq_range', List.range'_succ]
    rfl
  have hids := congrArg (List.count (some (.decl d))) (map_identity?_range (build o u))
  rw [hplaces, List.map_cons, hg.root_identity, List.count_cons_of_ne (by simp),
    List.count_map_of_injective _ some (Option.some_injective _), List.count_eq_countP,
    List.countP_map] at hids
  rw [hcallees, callees_root_build, ← hids]
  refine List.countP_congr fun n _ => ?_
  simp

end Graph

end CallGraph
