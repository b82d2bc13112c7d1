import CallGraph.Build
import Mathlib.Logic.Relation

/-!
# The store of nodes and edges

Whatever is done to a graph comes down to four moves (`Move`): a node is appended together with the
call that the root makes to it, a call between nodes is appended, an edge of another kind is added
unless it is there, and counts are added. The calls of a body and the overriding methods of a unit
are put in by many such moves (`Moves`), with nodes made on the way.

`Valid` says what all graphs have in common. It is kept by each move (`Move.valid`), so by every
operation that is made of moves, and nothing about an operation has to be known but that it is.
-/

namespace CallGraph

theorem Key.isStable_iff {k : Key} : k.isStable = true ↔ k ≠ .noName := by
  cases k <;> simp [isStable]

/-- No declaration has the identity of the root. -/
theorem SourceUnit.exists_resolve_eq (u : SourceUnit) (id : DeclId) :
    ∃ d, u.resolve (some id) = .decl d := by
  simp only [resolve]
  split <;> exact ⟨_, rfl⟩

namespace Graph

theorem has_iff {g : Graph} {n : Nat} : g.has n = true ↔ n < g.nodes.size := by
  simp [has]

theorem has_of_identity? {g : Graph} {n : Nat} {i : Identity} (h : g.identity? n = some i) :
    g.has n = true := by
  obtain ⟨node, hnode, -⟩ := Option.map_eq_some_iff.mp h
  exact has_iff.mpr (Array.getElem?_eq_some_iff.mp hnode).1

theorem exists_identity?_of_has {g : Graph} {n : Nat} (h : g.has n = true) :
    ∃ i, g.identity? n = some i := by
  rw [identity?, Array.getElem?_eq_getElem (has_iff.mp h)]
  exact ⟨_, rfl⟩

theorem mem_targets_iff {g : Graph} {kind : EdgeKind} {n m : Nat} :
    m ∈ g.targets kind n ↔ ⟨n, m, kind⟩ ∈ g.edges.toList := by
  simp only [targets, List.mem_map, List.mem_filter, decide_eq_true_eq]
  constructor
  · rintro ⟨e, ⟨he, rfl, rfl⟩, rfl⟩
    exact he
  · intro he
    exact ⟨_, ⟨he, rfl, rfl⟩, rfl⟩

/-! ## The parts of a graph after a change -/

@[simp] theorem link_nodes (g : Graph) (e : Edge) : (g.link e).nodes = g.nodes := rfl

@[simp] theorem link_places (g : Graph) (e : Edge) : (g.link e).places = g.places := rfl

@[simp] theorem link_keys (g : Graph) (e : Edge) : (g.link e).keys = g.keys := rfl

@[simp] theorem link_options (g : Graph) (e : Edge) : (g.link e).options = g.options := rfl

@[simp] theorem link_edges (g : Graph) (e : Edge) :
    (g.link e).edges.toList = g.edges.toList ++ [e] := by
  simp [link]

@[simp] theorem claim_nodes (g : Graph) (k : Key) (n : Nat) : (g.claim k n).nodes = g.nodes := by
  unfold claim
  split <;> rfl

@[simp] theorem claim_edges (g : Graph) (k : Key) (n : Nat) : (g.claim k n).edges = g.edges := by
  unfold claim
  split <;> rfl

@[simp] theorem claim_places (g : Graph) (k : Key) (n : Nat) :
    (g.claim k n).places = g.places := by
  unfold claim
  split <;> rfl

@[simp] theorem claim_options (g : Graph) (k : Key) (n : Nat) :
    (g.claim k n).options = g.options := by
  unfold claim
  split <;> rfl

@[simp] theorem addNode_nodes (g : Graph) (u : SourceUnit) (d : DeclId) :
    (g.addNode u d).nodes = g.nodes.push (.ofDecl d (u.decl? d)) := by
  simp [addNode, appendNode]

@[simp] theorem addNode_edges (g : Graph) (u : SourceUnit) (d : DeclId) :
    (g.addNode u d).edges.toList = g.edges.toList ++ [⟨root, g.nodes.size, .call⟩] := by
  simp [addNode, appendNode]

@[simp] theorem addNode_places (g : Graph) (u : SourceUnit) (d : DeclId) :
    (g.addNode u d).places = g.places ++ [(.decl d, g.nodes.size)] := by
  simp [addNode, appendNode, Node.ofDecl]

@[simp] theorem addNode_options (g : Graph) (u : SourceUnit) (d : DeclId) :
    (g.addNode u d).options = g.options := by
  simp [addNode, appendNode]

/-- Nothing happens to the keys of a graph when a node is appended, but that the new node takes its
stable key if nobody owns it. -/
theorem addNode_keys (g : Graph) (u : SourceUnit) (d : DeclId) :
    (g.addNode u d).keys = g.keys
      ∨ (u.key d).isStable = true ∧ g.nodeOfKey? (u.key d) = none
        ∧ (g.addNode u d).keys = g.keys ++ [(u.key d, g.nodes.size)] := by
  simp only [addNode, link_keys]
  unfold claim
  split
  · rename_i h
    simp only [Bool.and_eq_true, Option.isNone_iff_eq_none] at h
    exact Or.inr ⟨h.1, h.2, rfl⟩
  · exact Or.inl rfl

theorem linkOnce_eq (g : Graph) (e : Edge) :
    (e ∈ g.edges.toList ∧ g.linkOnce e = g) ∨ (e ∉ g.edges.toList ∧ g.linkOnce e = g.link e) := by
  unfold linkOnce
  split
  · rename_i h
    exact Or.inl ⟨by simpa using h, rfl⟩
  · rename_i h
    exact Or.inr ⟨by simpa using h, rfl⟩

@[simp] theorem linkOnce_nodes (g : Graph) (e : Edge) : (g.linkOnce e).nodes = g.nodes := by
  rcases linkOnce_eq g e with ⟨-, heq⟩ | ⟨-, heq⟩ <;> rw [heq]
  rfl

@[simp] theorem linkOnce_places (g : Graph) (e : Edge) : (g.linkOnce e).places = g.places := by
  rcases linkOnce_eq g e with ⟨-, heq⟩ | ⟨-, heq⟩ <;> rw [heq]
  rfl

@[simp] theorem linkOnce_keys (g : Graph) (e : Edge) : (g.linkOnce e).keys = g.keys := by
  rcases linkOnce_eq g e with ⟨-, heq⟩ | ⟨-, heq⟩ <;> rw [heq]
  rfl

@[simp] theorem linkOnce_options (g : Graph) (e : Edge) :
    (g.linkOnce e).options = g.options := by
  rcases linkOnce_eq g e with ⟨-, heq⟩ | ⟨-, heq⟩ <;> rw [heq]
  rfl

@[simp] theorem identity?_linkOnce (g : Graph) (e : Edge) (n : Nat) :
    (g.linkOnce e).identity? n = g.identity? n := by
  rw [identity?, linkOnce_nodes, identity?]

/-! ## Identities after a node is appended -/

theorem identity?_addNode (g : Graph) (u : SourceUnit) (d : DeclId) (n : Nat) :
    (g.addNode u d).identity? n = if n = g.nodes.size then some (.decl d) else g.identity? n := by
  unfold identity?
  rw [addNode_nodes, Array.getElem?_push]
  split <;> rfl

theorem identity?_addNode_of_has {g : Graph} (u : SourceUnit) (d : DeclId) {n : Nat}
    (hn : g.has n = true) : (g.addNode u d).identity? n = g.identity? n := by
  rw [identity?_addNode, if_neg (Nat.ne_of_lt (has_iff.mp hn))]

theorem nodeOf?_addNode (g : Graph) (u : SourceUnit) (d : DeclId) (i : Identity) :
    (g.addNode u d).nodeOf? i
      = (g.nodeOf? i).or (if Identity.decl d = i then some g.nodes.size else none) := by
  unfold nodeOf?
  rw [addNode_places, List.lookup_append, List.lookup_cons]
  by_cases hi : Identity.decl d = i
  · simp [hi]
  · have hne : (i == Identity.decl d) = false := beq_false_of_ne (Ne.symm hi)
    simp [hi, hne]

theorem identity?_size (g : Graph) : g.identity? g.nodes.size = none := by
  simp [identity?]

/-! ## Valid graphs -/

/-- What holds of every graph, whatever was put into it. -/
structure Valid (g : Graph) : Prop where
  /-- The root stands at its place and nowhere else. -/
  root_iff : ∀ n, g.identity? n = some .root ↔ n = root
  /-- The table of identities leads to the node that carries one, so no two nodes share one. -/
  nodeOf?_iff : ∀ i n, g.nodeOf? i = some n ↔ g.identity? n = some i
  /-- An identity has one entry. -/
  place_once : (g.places.map Prod.fst).Nodup
  /-- Edges run between nodes of the graph. -/
  ends : ∀ e ∈ g.edges.toList, g.has e.source = true ∧ g.has e.target = true
  /-- Nothing calls the root. -/
  root_uncalled : ∀ e ∈ g.edges.toList, e.kind = .call → e.target ≠ root
  /-- The oldest call of a node comes from the root. -/
  oldest_call : ∀ n, n ≠ root → g.has n = true →
    g.edges.toList.find? (fun e => e.kind = .call ∧ e.target = n) = some ⟨root, n, .call⟩
  /-- Apart from calls, no edge stands twice. -/
  edge_once : ∀ e : Edge, e.kind ≠ .call → g.edges.toList.count e ≤ 1
  /-- Keys that name something are owned, by nodes other than the root. -/
  key_owner : ∀ k n, (k, n) ∈ g.keys → k ≠ .noName ∧ n ≠ root ∧ g.has n = true
  /-- A key has one owner. -/
  key_once : (g.keys.map Prod.fst).Nodup

theorem valid_ofOptions (o : Options) : (ofOptions o).Valid where
  root_iff n := by
    cases n with
    | zero => simp [identity?, ofOptions, Node.root, root]
    | succ n => simp [identity?, ofOptions, root]
  nodeOf?_iff i n := by
    have hfind : (ofOptions o).nodeOf? i = if i = .root then some root else none := by
      cases i <;> rfl
    rw [hfind]
    cases n with
    | zero => simp [identity?, ofOptions, Node.root, root, eq_comm]
    | succ n => simp [identity?, ofOptions, root]
  place_once := by simp [ofOptions]
  ends e he := by simp [ofOptions] at he
  root_uncalled e he := by simp [ofOptions] at he
  oldest_call n hn hhas := by
    have hlt : n < 1 := has_iff.mp hhas
    exact absurd (Nat.lt_one_iff.mp hlt) hn
  edge_once e _ := by simp [ofOptions]
  key_owner k n h := by simp [ofOptions] at h
  key_once := by simp [ofOptions]

namespace Valid

variable {g : Graph}

theorem root_identity (hg : g.Valid) : g.identity? root = some .root :=
  (hg.root_iff root).mpr rfl

theorem root_lt_size (hg : g.Valid) : root < g.nodes.size :=
  has_iff.mp (has_of_identity? hg.root_identity)

/-- A node that stands for a declaration is not the root. -/
theorem ne_root (hg : g.Valid) {n : Nat} {d : DeclId} (h : g.identity? n = some (.decl d)) :
    n ≠ root := by
  intro hn
  rw [hn, hg.root_identity] at h
  simp at h

/-- No two nodes have the same identity. -/
theorem identity?_inj (hg : g.Valid) {n m : Nat} {i : Identity} (hn : g.identity? n = some i)
    (hm : g.identity? m = some i) : n = m := by
  have hfound := (hg.nodeOf?_iff i n).mpr hn
  rw [(hg.nodeOf?_iff i m).mpr hm] at hfound
  exact (Option.some.inj hfound).symm

/-- No edge leads to the place where the next node will stand. -/
theorem not_target_size (hg : g.Valid) :
    g.edges.toList.find? (fun e => e.kind = .call ∧ e.target = g.nodes.size) = none := by
  refine List.find?_eq_none.mpr fun e he => ?_
  have hlt := has_iff.mp (hg.ends e he).2
  simp only [decide_eq_true_eq, not_and]
  intro _
  omega

/-! ### What each change keeps -/

/-- The new node carries an identity that no node had, so look-ups stay exact. -/
theorem nodeOf?_iff_addNode (hg : g.Valid) (u : SourceUnit) {d : DeclId}
    (hd : g.nodeOf? (.decl d) = none) (i : Identity) (n : Nat) :
    (g.addNode u d).nodeOf? i = some n ↔ (g.addNode u d).identity? n = some i := by
  rw [nodeOf?_addNode, identity?_addNode]
  by_cases hi : Identity.decl d = i
  · subst hi
    rw [hd, if_pos rfl, Option.none_or]
    by_cases hn : n = g.nodes.size
    · simp [hn]
    · rw [if_neg hn, ← hg.nodeOf?_iff, hd]
      simp [Ne.symm hn]
  · rw [if_neg hi, Option.or_none, hg.nodeOf?_iff]
    by_cases hn : n = g.nodes.size
    · subst hn
      simp [identity?_size, hi]
    · rw [if_neg hn]

theorem oldest_call_addNode (hg : g.Valid) (u : SourceUnit) (d : DeclId) {n : Nat}
    (hn : n ≠ root) (hhas : (g.addNode u d).has n = true) :
    (g.addNode u d).edges.toList.find? (fun e => e.kind = .call ∧ e.target = n)
      = some ⟨root, n, .call⟩ := by
  rw [addNode_edges, List.find?_append]
  by_cases hold : g.has n = true
  · rw [hg.oldest_call n hn hold]
    rfl
  · have hsize : n = g.nodes.size := by
      have h₁ := has_iff.mp hhas
      rw [has_iff] at hold
      rw [addNode_nodes, Array.size_push] at h₁
      omega
    subst hsize
    rw [hg.not_target_size]
    simp

/-- A table whose entries do not repeat takes one for something that it does not have. -/
theorem nodup_append_entry {α : Type} [BEq α] [LawfulBEq α] {t : List (α × Nat)} {a : α} {n : Nat}
    (ht : (t.map Prod.fst).Nodup) (ha : t.lookup a = none) :
    ((t ++ [(a, n)]).map Prod.fst).Nodup := by
  rw [List.map_append, List.nodup_append]
  refine ⟨ht, by simp, ?_⟩
  intro b hb a' ha'
  obtain ⟨⟨b, m⟩, hmem, rfl⟩ := List.mem_map.mp hb
  obtain rfl : a' = a := by simpa using ha'
  have hne := List.lookup_eq_none_iff.mp ha _ hmem
  exact fun heq => (bne_iff_ne.mp hne) heq.symm

theorem key_once_addNode (hg : g.Valid) (u : SourceUnit) (d : DeclId) :
    ((g.addNode u d).keys.map Prod.fst).Nodup := by
  rcases addNode_keys g u d with hkeys | ⟨-, hfree, hkeys⟩
  · rw [hkeys]
    exact hg.key_once
  · rw [hkeys]
    exact nodup_append_entry hg.key_once hfree

theorem addNode (hg : g.Valid) (u : SourceUnit) {d : DeclId}
    (hd : g.nodeOf? (.decl d) = none) : (g.addNode u d).Valid where
  root_iff n := by
    rw [identity?_addNode]
    split
    · rename_i hn
      have := hg.root_lt_size
      simp only [Option.some.injEq, reduceCtorEq, false_iff]
      omega
    · exact hg.root_iff n
  nodeOf?_iff := hg.nodeOf?_iff_addNode u hd
  place_once := by
    rw [addNode_places]
    exact nodup_append_entry hg.place_once hd
  ends e he := by
    rw [addNode_edges] at he
    simp only [has_iff, addNode_nodes, Array.size_push]
    rcases List.mem_append.mp he with he | he
    · have hends := hg.ends e he
      simp only [has_iff] at hends
      omega
    · obtain rfl := List.mem_singleton.mp he
      exact ⟨Nat.lt_succ_of_lt hg.root_lt_size, Nat.lt_succ_self _⟩
  root_uncalled e he hk := by
    rw [addNode_edges] at he
    rcases List.mem_append.mp he with he | he
    · exact hg.root_uncalled e he hk
    · obtain rfl := List.mem_singleton.mp he
      exact Nat.ne_of_gt hg.root_lt_size
  oldest_call _ hn hhas := hg.oldest_call_addNode u d hn hhas
  edge_once e hk := by
    have hne : ⟨root, g.nodes.size, .call⟩ ≠ e := fun h => hk (h ▸ rfl)
    rw [addNode_edges, List.count_append, List.count_singleton, if_neg (by simpa using hne)]
    exact hg.edge_once e hk
  key_owner k n h := by
    have hgrow : ∀ n, g.has n = true → (g.addNode u d).has n = true := fun n hn => by
      simp only [has_iff, addNode_nodes, Array.size_push] at hn ⊢
      omega
    rcases addNode_keys g u d with hkeys | ⟨hstable, -, hkeys⟩
    · obtain ⟨hs, hr, hh⟩ := hg.key_owner k n (hkeys ▸ h)
      exact ⟨hs, hr, hgrow n hh⟩
    · rw [hkeys] at h
      rcases List.mem_append.mp h with h | h
      · obtain ⟨hs, hr, hh⟩ := hg.key_owner k n h
        exact ⟨hs, hr, hgrow n hh⟩
      · obtain ⟨rfl, rfl⟩ := Prod.mk.inj (List.mem_singleton.mp h)
        exact ⟨Key.isStable_iff.mp hstable, Nat.ne_of_gt hg.root_lt_size, has_iff.mpr (by simp)⟩
  key_once := hg.key_once_addNode u d

/-- A new edge is harmless if it runs between nodes, is no call of the root and, unless it is a
call, is not there yet. -/
theorem link (hg : g.Valid) {e : Edge} (hs : g.has e.source = true) (ht : g.has e.target = true)
    (hroot : e.kind = .call → e.target ≠ root) (hnew : e.kind ≠ .call → e ∉ g.edges.toList) :
    (g.link e).Valid where
  root_iff := hg.root_iff
  nodeOf?_iff := hg.nodeOf?_iff
  place_once := hg.place_once
  ends e' he' := by
    rw [link_edges] at he'
    rcases List.mem_append.mp he' with he' | he'
    · exact hg.ends e' he'
    · obtain rfl := List.mem_singleton.mp he'
      exact ⟨hs, ht⟩
  root_uncalled e' he' hk := by
    rw [link_edges] at he'
    rcases List.mem_append.mp he' with he' | he'
    · exact hg.root_uncalled e' he' hk
    · obtain rfl := List.mem_singleton.mp he'
      exact hroot hk
  oldest_call n hn hhas := by
    rw [link_edges, List.find?_append, hg.oldest_call n hn hhas]
    rfl
  edge_once e' hk := by
    rw [link_edges, List.count_append, List.count_singleton]
    split
    · rename_i heq
      obtain rfl : e = e' := by simpa using heq
      exact Nat.le_of_eq (congrArg (· + 1) (List.count_eq_zero.mpr (hnew hk)))
    · exact hg.edge_once e' hk
  key_owner := hg.key_owner
  key_once := hg.key_once

/-- Options and counts do not matter. -/
theorem congr (hg : g.Valid) {g' : Graph} (hnodes : g'.nodes = g.nodes) (hedges : g'.edges = g.edges)
    (hplaces : g'.places = g.places) (hkeys : g'.keys = g.keys) : g'.Valid := by
  obtain ⟨o, nodes, edges, places, keys, s⟩ := g
  obtain ⟨o', nodes', edges', places', keys', s'⟩ := g'
  obtain rfl : nodes' = nodes := hnodes
  obtain rfl : edges' = edges := hedges
  obtain rfl : places' = places := hplaces
  obtain rfl : keys' = keys := hkeys
  exact ⟨hg.root_iff, hg.nodeOf?_iff, hg.place_once, hg.ends, hg.root_uncalled, hg.oldest_call,
    hg.edge_once, hg.key_owner, hg.key_once⟩

theorem linkOnce (hg : g.Valid) {e : Edge} (hs : g.has e.source = true)
    (ht : g.has e.target = true) (hk : e.kind ≠ .call) : (g.linkOnce e).Valid := by
  rcases linkOnce_eq g e with ⟨-, heq⟩ | ⟨hnew, heq⟩
  · rw [heq]
    exact hg
  · rw [heq]
    exact hg.link hs ht (fun h => absurd h hk) fun _ => hnew

end Valid

/-! ## Moves -/

/-- The four ways in which a graph changes. -/
inductive Move : Graph → Graph → Prop where
  /-- A declaration that has no node gets one. -/
  | node {g : Graph} (u : SourceUnit) {d : DeclId} (hd : g.nodeOf? (.decl d) = none) :
      Move g (g.addNode u d)
  /-- A node, not the root, is called by another. -/
  | call {g : Graph} {a b : Nat} (ha : g.has a = true) (hb : g.has b = true) (hr : b ≠ root) :
      Move g (g.link ⟨a, b, .call⟩)
  /-- Nodes are linked in another way. -/
  | link {g : Graph} {e : Edge} (hs : g.has e.source = true) (ht : g.has e.target = true)
      (hk : e.kind ≠ .call) : Move g (g.linkOnce e)
  /-- Something is counted. -/
  | count {g : Graph} (s : Stats) : Move g { g with stats := g.stats + s }

/-- Any number of moves. -/
abbrev Moves : Graph → Graph → Prop :=
  Relation.ReflTransGen Move

theorem Move.valid {g g' : Graph} (h : Move g g') (hg : g.Valid) : g'.Valid := by
  cases h with
  | node u hd => exact hg.addNode u hd
  | call ha hb hr => exact hg.link ha hb (fun _ => hr) fun hk => absurd rfl hk
  | link hs ht hk => exact hg.linkOnce hs ht hk
  | count s => exact hg.congr rfl rfl rfl rfl

theorem Moves.valid {g g' : Graph} (h : Moves g g') (hg : g.Valid) : g'.Valid := by
  induction h with
  | refl => exact hg
  | tail _ hmove ih => exact hmove.valid ih

/-- A node keeps its place and its identity. -/
theorem Move.identity? {g g' : Graph} (h : Move g g') {n : Nat} {i : Identity}
    (hn : g.identity? n = some i) : g'.identity? n = some i := by
  cases h with
  | node u hd => rw [identity?_addNode_of_has u _ (has_of_identity? hn), hn]
  | call => exact hn
  | link => rwa [identity?_linkOnce]
  | count => exact hn

theorem Moves.identity? {g g' : Graph} (h : Moves g g') {n : Nat} {i : Identity}
    (hn : g.identity? n = some i) : g'.identity? n = some i := by
  induction h with
  | refl => exact hn
  | tail _ hmove ih => exact hmove.identity? ih

theorem Move.options {g g' : Graph} (h : Move g g') : g'.options = g.options := by
  cases h with
  | node => exact addNode_options ..
  | call => rfl
  | link => exact linkOnce_options ..
  | count => rfl

theorem Moves.options {g g' : Graph} (h : Moves g g') : g'.options = g.options := by
  induction h with
  | refl => rfl
  | tail _ hmove ih => rw [hmove.options, ih]

/-- A fold is made of moves if each of its steps is. -/
theorem Moves.foldl {β : Type} {f : Graph → β → Graph}
    (hf : ∀ g x, g.Valid → Moves g (f g x)) (xs : List β) {g : Graph} (hg : g.Valid) :
    Moves g (xs.foldl f g) := by
  induction xs generalizing g with
  | nil => exact Relation.ReflTransGen.refl
  | cons x xs ih => exact (hf g x hg).trans (ih ((hf g x hg).valid hg))

/-! ## Operations are made of moves -/

/-- Where something is counted on the way, the graph is that of the plain fold. -/
theorem tally_fst {α β : Type} [Add β] (f : Graph → α → Graph × β) (xs : List α) (g : Graph)
    (n : β) : (tally f xs g n).1 = xs.foldl (fun g x => (f g x).1) g := by
  unfold tally
  induction xs generalizing g n with
  | nil => rfl
  | cons x xs ih => exact ih (f g x).1 (n + (f g x).2)

theorem addDecls_fst (g : Graph) (u : SourceUnit) (ids : List DeclId) :
    (g.addDecls u ids).1 = ids.foldl (fun g id => (g.addDecl u id).1) g :=
  tally_fst (fun g id => g.addDecl u id) ids g {}

theorem linkUnit_fst (g : Graph) (u : SourceUnit) :
    (g.linkUnit u).1 = u.walk.foldl (fun g id => (g.linkMethod u id).1) g :=
  tally_fst (fun g id => g.linkMethod u id) u.walk g 0

/-- A declaration that has its node is found there, and nothing is put in. -/
theorem insert_of_nodeOf? {g : Graph} {u : SourceUnit} {id : DeclId} {n : Nat}
    (hn : g.nodeOf? (u.resolve (some id)) = some n) : g.insert u (some id) = (g, n) := by
  obtain ⟨d, hd⟩ := u.exists_resolve_eq id
  rw [hd] at hn
  simp [insert, hd, hn]

/-- A declaration that has no node gets one, after all others. -/
theorem insert_of_nodeOf?_eq_none {g : Graph} {u : SourceUnit} {id d : DeclId}
    (hd : u.resolve (some id) = .decl d) (hn : g.nodeOf? (.decl d) = none) :
    g.insert u (some id) = (g.addNode u d, g.nodes.size) := by
  simp [insert, hd, hn]

/-- Inserting a declaration either finds its node or appends one. -/
theorem insert_eq (g : Graph) (u : SourceUnit) (id : DeclId) :
    (∃ n, g.nodeOf? (u.resolve (some id)) = some n ∧ g.insert u (some id) = (g, n))
      ∨ ∃ d, u.resolve (some id) = .decl d ∧ g.nodeOf? (.decl d) = none
        ∧ g.insert u (some id) = (g.addNode u d, g.nodes.size) := by
  obtain ⟨d, hd⟩ := u.exists_resolve_eq id
  cases hn : g.nodeOf? (.decl d) with
  | some n => exact Or.inl ⟨n, hd ▸ hn, insert_of_nodeOf? (hd ▸ hn)⟩
  | none => exact Or.inr ⟨d, hd, hn, insert_of_nodeOf?_eq_none hd hn⟩

/-- A declaration without a body brings no calls and no counts. -/
theorem addDecl_fst_of_not_hasBody (g : Graph) {u : SourceUnit} {id : DeclId}
    (h : u.hasBody id = false) : (g.addDecl u id).1 = (g.insert u (some id)).1 := by
  have hbody : (u.decl? id).bind Decl.body = none := by
    simpa [SourceUnit.hasBody] using h
  have hcalls : u.callsOf g.options id = [] := by
    simp [SourceUnit.callsOf, SourceUnit.statements, hbody]
  have hstats : u.statsOf g.options id = {} := by
    simp [SourceUnit.statsOf, h]
  simp only [addDecl, hcalls, hstats, List.foldl_nil]
  rfl

theorem insert_moves (g : Graph) (u : SourceUnit) (id : Option DeclId) :
    Moves g (g.insert u id).1 := by
  cases id with
  | none =>
      unfold insert
      simp only [SourceUnit.resolve]
      split
      · exact Relation.ReflTransGen.refl
      · exact Relation.ReflTransGen.refl
      · contradiction
  | some id =>
      rcases insert_eq g u id with ⟨n, -, heq⟩ | ⟨d, -, hd, heq⟩
      · rw [heq]
      · rw [heq]
        exact Relation.ReflTransGen.single (.node u hd)

/-- What an insertion returns is the place of the declaration's node. -/
theorem insert_identity? {g : Graph} (hg : g.Valid) (u : SourceUnit) (id : DeclId) :
    (g.insert u (some id)).1.identity? (g.insert u (some id)).2
      = some (u.resolve (some id)) := by
  rcases insert_eq g u id with ⟨n, hn, heq⟩ | ⟨d, hd, -, heq⟩
  · rw [heq]
    exact (hg.nodeOf?_iff _ n).mp hn
  · rw [heq, hd]
    simp [identity?_addNode]

/-- After two insertions both places are known; the first one has not moved. -/
theorem insert_insert {g g₁ g₂ : Graph} {u : SourceUnit} {c d : DeclId} {a b : Nat} (hg : g.Valid)
    (h₁ : g.insert u (some c) = (g₁, a)) (h₂ : g₁.insert u (some d) = (g₂, b)) :
    Moves g g₂ ∧ g₂.identity? a = some (u.resolve (some c))
      ∧ g₂.identity? b = some (u.resolve (some d)) := by
  have hmoves₁ := insert_moves g u (some c)
  have hmoves₂ := insert_moves g₁ u (some d)
  have ha := insert_identity? hg u c
  rw [h₁] at hmoves₁ ha
  have hb := insert_identity? (hmoves₁.valid hg) u d
  rw [h₂] at hmoves₂ hb
  exact ⟨hmoves₁.trans hmoves₂, hmoves₂.identity? ha, hb⟩

theorem addCall_moves (u : SourceUnit) (c : Call) {g : Graph} (hg : g.Valid) :
    Moves g (g.addCall u c) := by
  rcases h₁ : g.insert u (some c.caller) with ⟨g₁, a⟩
  rcases h₂ : g₁.insert u (some c.callee) with ⟨g₂, b⟩
  obtain ⟨hmoves, ha, hb⟩ := insert_insert hg h₁ h₂
  obtain ⟨d, hd⟩ := u.exists_resolve_eq c.callee
  have hroot : b ≠ root := (hmoves.valid hg).ne_root (hd ▸ hb)
  simp only [addCall, h₁, h₂]
  exact hmoves.tail (.call (has_of_identity? ha) (has_of_identity? hb) hroot)

theorem addDecl_moves (u : SourceUnit) (id : DeclId) {g : Graph} (hg : g.Valid) :
    Moves g (g.addDecl u id).1 := by
  have hinsert := insert_moves g u (some id)
  have hcalls := Moves.foldl (fun g c hg => addCall_moves u c hg) (u.callsOf g.options id)
    (hinsert.valid hg)
  exact (hinsert.trans hcalls).tail (.count _)

theorem addDecls_moves (u : SourceUnit) (ids : List DeclId) {g : Graph} (hg : g.Valid) :
    Moves g (g.addDecls u ids).1 := by
  rw [addDecls_fst]
  exact Moves.foldl (fun _ id hg => addDecl_moves u id hg) ids hg

theorem linkPair_moves (u : SourceUnit) (method overridden : DeclId) {g : Graph} (hg : g.Valid) :
    Moves g (g.linkPair u method overridden) := by
  rcases h₁ : g.insert u (some method) with ⟨g₁, a⟩
  rcases h₂ : g₁.insert u (some overridden) with ⟨g₂, b⟩
  obtain ⟨hmoves, ha, hb⟩ := insert_insert hg h₁ h₂
  have hover : Move g₂ (g₂.linkOnce ⟨a, b, .overrides⟩) :=
    .link (has_of_identity? ha) (has_of_identity? hb) (by simp)
  have hunder : Move (g₂.linkOnce ⟨a, b, .overrides⟩)
      ((g₂.linkOnce ⟨a, b, .overrides⟩).linkOnce ⟨b, a, .overriddenBy⟩) :=
    .link (has_of_identity? (hover.identity? hb)) (has_of_identity? (hover.identity? ha)) (by simp)
  simp only [linkPair, h₁, h₂]
  exact (hmoves.tail hover).tail hunder

theorem linkMethod_moves (u : SourceUnit) (id : DeclId) {g : Graph} (hg : g.Valid) :
    Moves g (g.linkMethod u id).1 := by
  unfold linkMethod
  split
  · have hinsert := insert_moves g u (some id)
    exact hinsert.trans
      (Moves.foldl (fun _ m hg => linkPair_moves u id m hg) _ (hinsert.valid hg))
  · exact Relation.ReflTransGen.refl

theorem linkUnit_moves (u : SourceUnit) {g : Graph} (hg : g.Valid) : Moves g (g.linkUnit u).1 := by
  rw [linkUnit_fst]
  exact Moves.foldl (fun _ id hg => linkMethod_moves u id hg) u.walk hg

/-- The bodies of a unit come first, then its methods are linked if the options say so. -/
theorem build_eq (o : Options) (u : SourceUnit) :
    build o u = if o.linkOverrides then (((ofOptions o).addDecls u (u.sweep o)).1.linkUnit u).1
      else ((ofOptions o).addDecls u (u.sweep o)).1 := rfl

/-- A fold changes nothing if none of its steps does. -/
theorem foldl_eq_self {β : Type} {f : Graph → β → Graph} {g : Graph} {xs : List β}
    (h : ∀ x ∈ xs, f g x = g) : xs.foldl f g = g :=
  List.foldlRecOn (motive := (· = g)) xs f rfl fun _ hg' x hx => hg' ▸ h x hx

/-- Nothing is linked in a unit none of whose methods takes part in overriding. -/
theorem build_eq_addDecls {o : Options} {u : SourceUnit}
    (h : u.walk.any (u.isOverrider o) = false) :
    build o u = ((ofOptions o).addDecls u (u.sweep o)).1 := by
  have hoptions : ((ofOptions o).addDecls u (u.sweep o)).1.options = o :=
    (addDecls_moves u (u.sweep o) (valid_ofOptions o)).options
  rw [build_eq, linkUnit_fst, foldl_eq_self, ite_self]
  intro id hid
  rw [linkMethod, hoptions, if_neg (List.any_eq_false.mp h id hid)]

theorem build_moves (o : Options) (u : SourceUnit) : Moves (ofOptions o) (build o u) := by
  have hunit := addDecls_moves u (u.sweep o) (valid_ofOptions o)
  rw [build_eq]
  split
  · exact hunit.trans (linkUnit_moves u (hunit.valid (valid_ofOptions o)))
  · exact hunit

theorem build_valid (o : Options) (u : SourceUnit) : (build o u).Valid :=
  (build_moves o u).valid (valid_ofOptions o)

end Graph

end CallGraph
