import CallGraph.Proofs.KeyListing
import CallGraph.Proofs.OneUnit
import CallGraph.Proofs.Session

/-!
# Owners of keys

The table of keys is filled when nodes are appended, wherever that happens, and never looked at again.
In a graph that takes all its declarations from one unit it says what a search through the nodes would
say: the owner of a stable key is the first node that bears it. This is `FirstOwns`, which is kept by
whatever is done with declarations of the unit, and by edges between given places, which touch neither
nodes nor keys. So it holds of all sessions with the unit (`session_firstOwns`), and everything that is
said about keys below follows from it.
-/

namespace CallGraph

/-- The unit that an operation takes declarations from. Edges between given places need none. -/
def Operation.unit? : Operation → Option SourceUnit
  | .insert u _ => some u
  | .addDecl u _ => some u
  | .addBlocks u _ => some u
  | .addUnit u => some u
  | .linkMethod u _ => some u
  | .linkUnit u => some u
  | .addCallee _ _ => none
  | .addOverrides _ _ => none
  | .addOverriddenBy _ _ => none

namespace Graph

/-! ## Sessions with one unit -/

theorem insert_none (g : Graph) (u : SourceUnit) : (g.insert u none).1 = g := by
  simp only [insert, SourceUnit.resolve]
  cases g.nodeOf? .root <;> rfl

namespace KeptBy

variable {u : SourceUnit} {P : Graph → Prop} (hP : KeptBy u P)

include hP

/-- What is kept by the steps of one unit is kept by the operations that take declarations from it. -/
theorem after {g : Graph} {op : Operation} (hop : op.unit? = some u) (hg : g.Valid) (h : P g) :
    P (g.after op) := by
  cases op with
  | insert v id =>
      cases hop
      cases id with
      | none =>
          show P (g.insert u none).1
          rwa [insert_none]
      | some id => exact hP.insert hg h id
  | addDecl v id => cases hop; exact hP.addDecl hg h id
  | addBlocks v id => cases hop; exact hP.addDecls hg h _
  | addUnit v => cases hop; exact hP.addDecls hg h _
  | linkMethod v id => cases hop; exact hP.linkMethod hg h id
  | linkUnit v => cases hop; exact hP.linkUnit hg h
  | addCallee a b => cases hop
  | addOverrides a b => cases hop
  | addOverriddenBy a b => cases hop

end KeptBy

/-- An edge between given places changes neither nodes nor keys. -/
theorem after_of_unit?_eq_none {g : Graph} {op : Operation} (hop : op.unit? = none) :
    (g.after op).nodes = g.nodes ∧ (g.after op).keys = g.keys := by
  cases hdone : g.perform op with
  | error e => simp [after, hdone]
  | ok g' =>
      have hafter : g.after op = g' := by simp [after, hdone]
      rw [hafter]
      cases op with
      | addCallee a b =>
          obtain ⟨-, -, -, rfl⟩ := addCallee_eq_ok_iff.mp hdone
          exact ⟨rfl, rfl⟩
      | addOverrides a b =>
          obtain ⟨-, -, rfl⟩ := addOverrides_eq_ok_iff.mp hdone
          exact ⟨linkOnce_nodes .., linkOnce_keys ..⟩
      | addOverriddenBy a b =>
          obtain ⟨-, -, rfl⟩ := addOverriddenBy_eq_ok_iff.mp hdone
          exact ⟨linkOnce_nodes .., linkOnce_keys ..⟩
      | _ => cases hop

theorem FirstOwns.after {u : SourceUnit} {g : Graph} {op : Operation}
    (hop : ∀ v, op.unit? = some v → v = u) (hg : g.Valid) (h : FirstOwns u g) :
    FirstOwns u (g.after op) := by
  cases hunit : op.unit? with
  | some v => exact (keptBy_firstOwns u).after (hop v hunit ▸ hunit) hg h
  | none =>
      obtain ⟨hnodes, hkeys⟩ := after_of_unit?_eq_none (g := g) hunit
      intro k
      rw [nodeOfKey?, hkeys, hnodes]
      exact h k

theorem session_firstOwns {u : SourceUnit} {ops : List Operation}
    (hops : ∀ op ∈ ops, ∀ v, op.unit? = some v → v = u) {g : Graph} (hg : g.Valid)
    (h : FirstOwns u g) : FirstOwns u (g.session ops) := by
  induction ops generalizing g with
  | nil => exact h
  | cons op ops ih =>
      obtain ⟨hop, hops⟩ := List.forall_mem_cons.mp hops
      exact ih hops ((after_moves hg op).valid hg) (h.after hop hg)

/-! ## Nodes and their keys -/

/-- The node at a place stands for a declaration that has the key in the unit. -/
def Bears (u : SourceUnit) (g : Graph) (n : Nat) (k : Key) : Prop :=
  ∃ d, g.identity? n = some (.decl d) ∧ u.key d = k

theorem bears_iff_getElem {u : SourceUnit} {g : Graph} {n : Nat} {k : Key} (hn : n < g.nodes.size) :
    g.Bears u n k ↔ g.nodes[n].hasKey u k = true := by
  simp only [Bears, identity?, Array.getElem?_eq_getElem hn, Option.map_some, Option.some.injEq,
    Node.hasKey]
  cases g.nodes[n].identity <;> simp

theorem Bears.lt_size {u : SourceUnit} {g : Graph} {n : Nat} {k : Key} (h : g.Bears u n k) :
    n < g.nodes.size := by
  obtain ⟨d, hd, -⟩ := h
  exact has_iff.mp (has_of_identity? hd)

namespace FirstOwns

variable {u : SourceUnit} {g : Graph} {k : Key} {n : Nat} (h : FirstOwns u g)

include h

theorem nodeOfKey?_eq_some_iff :
    g.nodeOfKey? k = some n
      ↔ k ≠ .noName ∧ g.Bears u n k ∧ ∀ m, m < n → ¬ g.Bears u m k := by
  rw [← Key.isStable_iff]
  by_cases hstable : k.isStable = true
  · rw [h k, if_pos hstable, Array.findIdx?_eq_some_iff_getElem, and_iff_right hstable]
    constructor
    · rintro ⟨hn, hkey, hbefore⟩
      refine ⟨(bears_iff_getElem hn).mpr hkey, fun m hm hbears => ?_⟩
      exact hbefore m hm ((bears_iff_getElem _).mp hbears)
    · rintro ⟨hbears, hbefore⟩
      have hn := hbears.lt_size
      refine ⟨hn, (bears_iff_getElem hn).mp hbears, fun m hm hkey => ?_⟩
      exact hbefore m hm ((bears_iff_getElem _).mpr hkey)
  · rw [h k, if_neg hstable]
    simp [hstable]

/-- A key that some node bears is owned, by that node or an earlier one. -/
theorem exists_owner (hk : k ≠ .noName) (hn : g.Bears u n k) :
    ∃ m, m ≤ n ∧ g.nodeOfKey? k = some m := by
  cases howner : g.nodeOfKey? k with
  | some m =>
      have hbefore := (h.nodeOfKey?_eq_some_iff.mp howner).2.2
      exact ⟨m, Nat.le_of_not_lt fun hlt => hbefore n hlt hn, rfl⟩
  | none =>
      rw [h k, if_pos (Key.isStable_iff.mpr hk), Array.findIdx?_eq_none_iff] at howner
      have hnone := howner _ (Array.getElem_mem hn.lt_size)
      rw [(bears_iff_getElem hn.lt_size).mp hn] at hnone
      cases hnone

end FirstOwns

/-- The keys of a graph are owned by the first nodes of one unit that bear them, and no key that a node
bears is left out. -/
structure KeysClaimed (u : SourceUnit) (g : Graph) : Prop where
  owner_iff : ∀ k n, g.nodeOfKey? k = some n
    ↔ k ≠ .noName ∧ g.Bears u n k ∧ ∀ m, m < n → ¬ g.Bears u m k
  /-- The entries of the table are what a look-up finds. -/
  entry_iff : ∀ k n, (k, n) ∈ g.keys ↔ g.nodeOfKey? k = some n
  entry_once : (g.keys.map Prod.fst).Nodup
  /-- Each key of a node that names something has an entry, and nothing else has. -/
  key_iff : ∀ k, k ∈ g.keys.map Prod.fst ↔ k ≠ .noName ∧ ∃ n, g.Bears u n k
  /-- A node owns its key or shares it with an earlier node, which owns it. -/
  owned : ∀ n k, k ≠ .noName → g.Bears u n k →
    g.nodeOfKey? k = some n ∨ ∃ m, m < n ∧ g.Bears u m k ∧ g.nodeOfKey? k = some m

theorem FirstOwns.keysClaimed {u : SourceUnit} {g : Graph} (h : FirstOwns u g) (hg : g.Valid) :
    g.KeysClaimed u where
  owner_iff k n := h.nodeOfKey?_eq_some_iff
  entry_iff k n := hg.mem_keys_iff
  entry_once := hg.key_once
  key_iff k := by
    simp only [List.mem_map, Prod.exists, exists_and_right, exists_eq_right, hg.mem_keys_iff]
    constructor
    · rintro ⟨n, hn⟩
      obtain ⟨hk, hbears, -⟩ := h.nodeOfKey?_eq_some_iff.mp hn
      exact ⟨hk, n, hbears⟩
    · rintro ⟨hk, n, hbears⟩
      obtain ⟨m, -, hm⟩ := h.exists_owner hk hbears
      exact ⟨m, hm⟩
  owned n k hk hbears := by
    obtain ⟨m, hle, hm⟩ := h.exists_owner hk hbears
    rcases Nat.lt_or_eq_of_le hle with hlt | rfl
    · exact Or.inr ⟨m, hlt, (h.nodeOfKey?_eq_some_iff.mp hm).2.1, hm⟩
    · exact Or.inl hm

/-- **The first node that bears a key owns it**, if the key names something, in the graph of a unit and
after every session that takes its declarations from the unit, and each such key of a node has exactly
one owner. -/
theorem keysClaimed_of_one_unit (o : Options) (u : SourceUnit) :
    (build o u).KeysClaimed u
    ∧ ∀ ops : List Operation, (∀ op ∈ ops, ∀ v, op.unit? = some v → v = u) →
      ((ofOptions o).session ops).KeysClaimed u := by
  refine ⟨(build_firstOwns o u).keysClaimed (build_valid o u), fun ops hops => ?_⟩
  have hvalid := (session_moves (valid_ofOptions o) ops).valid (valid_ofOptions o)
  exact (session_firstOwns hops (valid_ofOptions o) (firstOwns_ofOptions o u)).keysClaimed hvalid

/-- A method that is declared twice, and a function that links by the name of the method. -/
def sameName : SourceUnit where
  name := "same.m"
  decls := #[
    { Decl.ofName .objCMethod "m" with id := 0 },
    { Decl.ofName .objCMethod "m" with id := 1, canonical := some 0 },
    { Decl.ofName .function "m" with id := 2, isExternC := true }]
  topLevel := [0, 1, 2]

/-- The second declaration of the method gets its node first. -/
def sameNameOps : List Operation :=
  [.insert sameName (some 1), .addUnit sameName, .addCallee 1 3]

theorem session_sameNameOps :
    (ofOptions {}).session sameNameOps
      = ((((ofOptions {}).addNode sameName 1).addNode sameName 0).addNode sameName 2).link
        ⟨1, 3, .call⟩ := by
  have hwalk : sameName.walk = [0, 1, 2] := by cbv
  have hsweep : sameName.sweep {} = [0, 1, 2] := by
    rw [SourceUnit.sweep_eq_filter_walk (by decide), hwalk]
    decide
  have hresolve : sameName.resolve (some 1) = .decl 1 := by cbv
  let g := (ofOptions {}).addNode sameName 1
  let g' := g.addNode sameName 0
  have hinsert : (ofOptions {}).insert sameName (some 1) = (g, 1) :=
    insert_of_nodeOf?_eq_none hresolve rfl
  have hmethod : (g.addDecl sameName 0).1 = g' := by
    rw [addDecl_fst_of_not_hasBody g rfl, insert_of_nodeOf?_eq_none (d := 0) (by cbv) rfl]
  have hagain : (g'.addDecl sameName 1).1 = g' := by
    -- The sweep comes to the second declaration again.
    rw [addDecl_fst_of_not_hasBody g' rfl, insert_of_nodeOf? (n := 1) (hresolve ▸ rfl)]
  have hfunction : (g'.addDecl sameName 2).1 = g'.addNode sameName 2 := by
    rw [addDecl_fst_of_not_hasBody g' rfl, insert_of_nodeOf?_eq_none (d := 2) (by cbv) rfl]
  have hunit : (g.addUnit sameName).1 = g'.addNode sameName 2 := by
    change (g.addDecls sameName (sameName.sweep {})).1 = _
    rw [hsweep, addDecls_fst, List.foldl_cons, List.foldl_cons, List.foldl_cons, List.foldl_nil,
      hmethod, hagain, hfunction]
  simp only [sameNameOps, session, after, perform, hinsert, hunit]
  rfl

/-- Three nodes bear one key, and the first of them owns it. -/
theorem keysClaimed_sameName :
    (∀ op ∈ sameNameOps, ∀ v, op.unit? = some v → v = sameName)
    ∧ ((ofOptions {}).session sameNameOps).KeysClaimed sameName
    ∧ ((ofOptions {}).session sameNameOps).keys = [(.plain "m", 1)]
    ∧ ((ofOptions {}).session sameNameOps).identities = [.root, .decl 1, .decl 0, .decl 2] := by
  have hops : ∀ op ∈ sameNameOps, ∀ v, op.unit? = some v → v = sameName := by
    simp [sameNameOps, Operation.unit?]
  refine ⟨hops, (keysClaimed_of_one_unit {} sameName).2 _ hops, ?_⟩
  rw [session_sameNameOps]
  decide

end Graph

end CallGraph
