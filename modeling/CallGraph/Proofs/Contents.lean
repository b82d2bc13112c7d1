import CallGraph.Proofs.Store
import Mathlib.Logic.ExistsUnique

/-!
# What a graph holds

Places of nodes depend on the order in which nodes were made, so what a graph holds is told without
them: which identities have nodes, which calls there are between declarations, as pairs of
identities in the order of their edges, and what was counted.

For each operation there is one equation on each of these. A node brings in its identity and no call
between declarations, because the root is the caller of the edge that comes with it. A call of a
body brings in the pair of its ends. So after a unit has been put in, the calls of the graph are
those of the bodies, one after the other (`callPairs_addDecls`), and linking methods afterwards adds
none.
-/

namespace CallGraph

namespace Graph

/-! ## Identities -/

/-- The identities that have nodes, in the order of the nodes. -/
def identities (g : Graph) : List Identity :=
  g.nodes.toList.map Node.identity

theorem mem_identities_iff {g : Graph} {i : Identity} :
    i ∈ g.identities ↔ ∃ n, g.identity? n = some i := by
  simp only [identities, identity?, List.mem_map, Option.map_eq_some_iff]
  constructor
  · rintro ⟨node, hnode, hi⟩
    obtain ⟨n, hn⟩ := List.mem_iff_getElem?.mp hnode
    exact ⟨n, node, by rwa [Array.getElem?_toList] at hn, hi⟩
  · rintro ⟨n, node, hn, hi⟩
    exact ⟨node, List.mem_iff_getElem?.mpr ⟨n, by rwa [Array.getElem?_toList]⟩, hi⟩

/-- An identity that has a node has one node. -/
theorem Valid.mem_identities_iff_existsUnique {g : Graph} (hg : g.Valid) {i : Identity} :
    i ∈ g.identities ↔ ∃! n, g.identity? n = some i := by
  rw [mem_identities_iff]
  constructor
  · rintro ⟨n, hn⟩
    exact ⟨n, hn, fun m hm => hg.identity?_inj hm hn⟩
  · exact ExistsUnique.exists

theorem identities_addNode (g : Graph) (u : SourceUnit) (d : DeclId) :
    (g.addNode u d).identities = g.identities ++ [.decl d] := by
  simp [identities, Node.ofDecl]

theorem mem_identities_insert {g : Graph} (hg : g.Valid) {u : SourceUnit} {id : DeclId}
    {i : Identity} :
    i ∈ (g.insert u (some id)).1.identities
      ↔ i ∈ g.identities ∨ u.resolve (some id) = i := by
  rcases insert_eq g u id with ⟨n, hn, heq⟩ | ⟨d, hd, -, heq⟩
  · have hmem : u.resolve (some id) ∈ g.identities :=
      mem_identities_iff.mpr ⟨n, (hg.nodeOf?_iff _ n).mp hn⟩
    rw [heq]
    exact ⟨Or.inl, fun h => h.elim (fun hi => hi) fun hi => hi ▸ hmem⟩
  · rw [heq, identities_addNode, hd]
    simp [eq_comm]

/-! ## Calls -/

/-- The calls between declarations, oldest first: the ends of all calls that the root does not
make. -/
def callPairs (g : Graph) : List (Option Identity × Option Identity) :=
  (g.edges.toList.filter fun e => e.kind = .call ∧ e.source ≠ root).map fun e =>
    (g.identity? e.source, g.identity? e.target)

end Graph

namespace SourceUnit

variable (u : SourceUnit) (o : Options)

/-- The ends of a call, as identities. -/
def ends (c : Call) : Option Identity × Option Identity :=
  (some (u.resolve (some c.caller)), some (u.resolve (some c.callee)))

/-- The declarations that get nodes when the body of `id` is put in. -/
def metIn (id : DeclId) : List DeclId :=
  id :: (u.callsOf o id).flatMap fun c => [c.caller, c.callee]

/-- What is counted in the bodies of a unit. -/
def sweepStats : Stats :=
  .sum ((u.sweep o).map (u.statsOf o))

/-- The declarations that get nodes when `id` is linked to what it overrides. -/
def linkedBy (id : DeclId) : List DeclId :=
  if u.isOverrider o id then id :: u.overriddenOf o id else []

/-- The declarations that get nodes when the graph of a unit is built. -/
def met : List DeclId :=
  (u.sweep o).flatMap (u.metIn o) ++
    if o.linkOverrides then u.walk.flatMap (u.linkedBy o) else []

end SourceUnit

namespace Graph

theorem callPairs_addNode {g : Graph} (hg : g.Valid) (u : SourceUnit) (d : DeclId) :
    (g.addNode u d).callPairs = g.callPairs := by
  unfold callPairs
  -- The new edge is a call by the root, so it is none of these; the old ones keep their ends.
  rw [addNode_edges, List.filter_append, List.map_append]
  simp only [ne_eq, not_true_eq_false, and_false, decide_false, Bool.false_eq_true,
    not_false_eq_true, List.filter_cons_of_neg, List.filter_nil, List.map_nil, List.append_nil]
  refine List.map_congr_left fun e he => ?_
  obtain ⟨hs, ht⟩ := hg.ends e (List.mem_filter.mp he).1
  rw [identity?_addNode_of_has u d hs, identity?_addNode_of_has u d ht]

theorem callPairs_insert {g : Graph} (hg : g.Valid) (u : SourceUnit) (id : DeclId) :
    (g.insert u (some id)).1.callPairs = g.callPairs := by
  rcases insert_eq g u id with ⟨n, -, heq⟩ | ⟨d, -, -, heq⟩
  · rw [heq]
  · rw [heq]
    exact callPairs_addNode hg u d

theorem callPairs_link_call (g : Graph) {a b : Nat} (ha : a ≠ root) :
    (g.link ⟨a, b, .call⟩).callPairs = g.callPairs ++ [(g.identity? a, g.identity? b)] := by
  unfold callPairs
  rw [link_edges, List.filter_append, List.map_append]
  simp [ha, identity?]

theorem callPairs_linkOnce (g : Graph) {e : Edge} (hk : e.kind ≠ .call) :
    (g.linkOnce e).callPairs = g.callPairs := by
  rcases linkOnce_eq g e with ⟨-, heq⟩ | ⟨-, heq⟩
  · rw [heq]
  · rw [heq]
    unfold callPairs
    rw [link_edges, List.filter_append, List.map_append]
    simp [hk, identity?]

/-! ## Folds

All operations on units are folds. The options, on which what is found in a body depends, stay the
same in a fold, and so what its steps add up to can be told from the list alone. -/

/-- If every step appends to the calls, a fold appends one after the other. -/
theorem callPairs_foldl {β : Type} {f : Graph → β → Graph} {o : Options}
    {added : β → List (Option Identity × Option Identity)}
    (hmoves : ∀ g x, g.Valid → Moves g (f g x))
    (hstep : ∀ g x, g.Valid → g.options = o → (f g x).callPairs = g.callPairs ++ added x)
    (xs : List β) {g : Graph} (hg : g.Valid) (ho : g.options = o) :
    (xs.foldl f g).callPairs = g.callPairs ++ xs.flatMap added := by
  induction xs generalizing g with
  | nil => simp
  | cons x xs ih =>
      have hx := hmoves g x hg
      rw [List.foldl_cons, ih (hx.valid hg) (hx.options.trans ho), hstep g x hg ho,
        List.flatMap_cons, List.append_assoc]

/-- If every step makes something true under a condition and never undoes it, it is true after a fold
if it was before or the condition held at some step. -/
theorem iff_foldl {β : Type} {f : Graph → β → Graph} {o : Options} {P : Graph → Prop}
    {adds : β → Prop} (hmoves : ∀ g x, g.Valid → Moves g (f g x))
    (hstep : ∀ g x, g.Valid → g.options = o → (P (f g x) ↔ P g ∨ adds x))
    (xs : List β) {g : Graph} (hg : g.Valid) (ho : g.options = o) :
    P (xs.foldl f g) ↔ P g ∨ ∃ x ∈ xs, adds x := by
  induction xs generalizing g with
  | nil => simp
  | cons x xs ih =>
      have hx := hmoves g x hg
      rw [List.foldl_cons, ih (hx.valid hg) (hx.options.trans ho), hstep g x hg ho, or_assoc]
      simp only [List.mem_cons, exists_eq_or_imp]

/-- What no step changes is the same after a fold. -/
theorem iff_foldl_of_keeps {β : Type} {f : Graph → β → Graph} {P : Graph → Prop}
    (hmoves : ∀ g x, g.Valid → Moves g (f g x)) (hstep : ∀ g x, g.Valid → (P (f g x) ↔ P g))
    (xs : List β) {g : Graph} (hg : g.Valid) : P (xs.foldl f g) ↔ P g := by
  induction xs generalizing g with
  | nil => exact Iff.rfl
  | cons x xs ih => exact (ih ((hmoves g x hg).valid hg)).trans (hstep g x hg)

/-- If every step gives nodes to certain declarations, a fold gives nodes to those of all steps. -/
theorem mem_identities_foldl {β : Type} {f : Graph → β → Graph} {o : Options} {u : SourceUnit}
    {met : β → List DeclId} (hmoves : ∀ g x, g.Valid → Moves g (f g x))
    (hstep : ∀ g x i, g.Valid → g.options = o →
      (i ∈ (f g x).identities ↔ i ∈ g.identities ∨ ∃ d ∈ met x, u.resolve (some d) = i))
    (xs : List β) {g : Graph} (hg : g.Valid) (ho : g.options = o) (i : Identity) :
    i ∈ (xs.foldl f g).identities
      ↔ i ∈ g.identities ∨ ∃ d ∈ xs.flatMap met, u.resolve (some d) = i := by
  rw [iff_foldl (P := fun g => i ∈ g.identities) hmoves (fun g x hg ho => hstep g x i hg ho) xs
    hg ho]
  refine or_congr_right ?_
  constructor
  · rintro ⟨x, hx, d, hd, hi⟩
    exact ⟨d, List.mem_flatMap.mpr ⟨x, hx, hd⟩, hi⟩
  · rintro ⟨d, hd, hi⟩
    obtain ⟨x, hx, hd⟩ := List.mem_flatMap.mp hd
    exact ⟨x, hx, d, hd, hi⟩

/-! ## Bodies -/

theorem callPairs_addCall {g : Graph} (hg : g.Valid) (u : SourceUnit) (c : Call) :
    (g.addCall u c).callPairs = g.callPairs ++ [u.ends c] := by
  rcases h₁ : g.insert u (some c.caller) with ⟨g₁, a⟩
  rcases h₂ : g₁.insert u (some c.callee) with ⟨g₂, b⟩
  obtain ⟨hmoves, ha, hb⟩ := insert_insert hg h₁ h₂
  have hg₁ : g₁.Valid := by
    have := (insert_moves g u (some c.caller)).valid hg
    rwa [h₁] at this
  have hpairs₁ := callPairs_insert hg u c.caller
  have hpairs₂ := callPairs_insert hg₁ u c.callee
  rw [h₁] at hpairs₁
  rw [h₂] at hpairs₂
  obtain ⟨d, hd⟩ := u.exists_resolve_eq c.caller
  have hroot : a ≠ root := (hmoves.valid hg).ne_root (hd ▸ ha)
  simp only [addCall, h₁, h₂]
  rw [callPairs_link_call g₂ hroot, hpairs₂, hpairs₁, ha, hb]
  rfl

theorem callPairs_addDecl {g : Graph} (hg : g.Valid) (u : SourceUnit) (id : DeclId) :
    (g.addDecl u id).1.callPairs = g.callPairs ++ (u.callsOf g.options id).map u.ends := by
  have hinsert := insert_moves g u (some id)
  have hfold := callPairs_foldl (fun g c hg => addCall_moves u c hg)
    (fun g c hg _ => callPairs_addCall hg u c) (u.callsOf g.options id)
    (hinsert.valid hg) hinsert.options
  rw [callPairs_insert hg u id] at hfold
  exact hfold.trans (by rw [List.map_eq_flatMap])

/-- **The calls that bodies put into a graph**, in order. -/
theorem callPairs_addDecls {g : Graph} (hg : g.Valid) (u : SourceUnit) (ids : List DeclId) :
    (g.addDecls u ids).1.callPairs
      = g.callPairs ++ (ids.flatMap (u.callsOf g.options)).map u.ends := by
  have hstep : ∀ (g' : Graph) (id : DeclId), g'.Valid → g'.options = g.options →
      (g'.addDecl u id).1.callPairs = g'.callPairs ++ (u.callsOf g.options id).map u.ends := by
    intro g' id hg' ho
    rw [callPairs_addDecl hg' u id, ho]
  rw [addDecls_fst, List.map_flatMap]
  exact callPairs_foldl (fun g id hg => addDecl_moves u id hg) hstep ids hg rfl

theorem mem_identities_addCall {g : Graph} (hg : g.Valid) {u : SourceUnit} {c : Call}
    {i : Identity} :
    i ∈ (g.addCall u c).identities
      ↔ i ∈ g.identities ∨ ∃ d ∈ [c.caller, c.callee], u.resolve (some d) = i := by
  have hg₁ := (insert_moves g u (some c.caller)).valid hg
  have hlink : (g.addCall u c).identities
      = ((g.insert u (some c.caller)).1.insert u (some c.callee)).1.identities := rfl
  rw [hlink, mem_identities_insert hg₁, mem_identities_insert hg, or_assoc]
  simp

theorem mem_identities_addDecl {g : Graph} (hg : g.Valid) {u : SourceUnit} {id : DeclId}
    {i : Identity} :
    i ∈ (g.addDecl u id).1.identities
      ↔ i ∈ g.identities ∨ ∃ d ∈ u.metIn g.options id, u.resolve (some d) = i := by
  have hinsert := insert_moves g u (some id)
  have hfold := mem_identities_foldl (fun g c hg => addCall_moves u c hg)
    (fun g c i hg _ => mem_identities_addCall hg) (u.callsOf g.options id)
    (hinsert.valid hg) hinsert.options i
  rw [mem_identities_insert hg, or_assoc] at hfold
  refine hfold.trans ?_
  simp only [SourceUnit.metIn, List.mem_cons, or_and_right, exists_or, exists_eq_left]

theorem mem_identities_addDecls {g : Graph} (hg : g.Valid) (u : SourceUnit) (ids : List DeclId)
    (i : Identity) :
    i ∈ (g.addDecls u ids).1.identities
      ↔ i ∈ g.identities ∨ ∃ d ∈ ids.flatMap (u.metIn g.options), u.resolve (some d) = i := by
  rw [addDecls_fst]
  refine mem_identities_foldl (fun g id hg => addDecl_moves u id hg) ?_ ids hg rfl i
  intro g' id i hg' ho
  rw [mem_identities_addDecl hg', ho]

/-! ## Overriding -/

theorem callPairs_linkPair {g : Graph} (hg : g.Valid) (u : SourceUnit)
    (method overridden : DeclId) : (g.linkPair u method overridden).callPairs = g.callPairs := by
  have hg₁ := (insert_moves g u (some method)).valid hg
  unfold linkPair
  rw [callPairs_linkOnce _ (by simp), callPairs_linkOnce _ (by simp),
    callPairs_insert hg₁ u overridden, callPairs_insert hg u method]

/-- Linking methods adds no call between declarations. -/
theorem callPairs_linkMethod {g : Graph} (hg : g.Valid) (u : SourceUnit) (id : DeclId) :
    (g.linkMethod u id).1.callPairs = g.callPairs := by
  unfold linkMethod
  split
  · have hinsert := insert_moves g u (some id)
    have hfold := callPairs_foldl (fun g m hg => linkPair_moves u id m hg)
      (fun g m hg _ => (callPairs_linkPair hg u id m).trans (List.append_nil _).symm)
      (u.overriddenOf g.options id) (hinsert.valid hg) hinsert.options
    rw [hfold, callPairs_insert hg u id]
    simp
  · rfl

theorem callPairs_linkUnit {g : Graph} (hg : g.Valid) (u : SourceUnit) :
    (g.linkUnit u).1.callPairs = g.callPairs := by
  rw [linkUnit_fst]
  have hfold := callPairs_foldl (fun g id hg => linkMethod_moves u id hg)
    (fun g id hg _ => (callPairs_linkMethod hg u id).trans (List.append_nil _).symm)
    u.walk hg rfl
  exact hfold.trans (by simp)

theorem mem_identities_linkPair {g : Graph} (hg : g.Valid) {u : SourceUnit}
    {method overridden : DeclId} {i : Identity} :
    i ∈ (g.linkPair u method overridden).identities
      ↔ i ∈ g.identities ∨ ∃ d ∈ [method, overridden], u.resolve (some d) = i := by
  have hg₁ := (insert_moves g u (some method)).valid hg
  have hlink : (g.linkPair u method overridden).identities
      = ((g.insert u (some method)).1.insert u (some overridden)).1.identities := by
    simp only [linkPair, identities, linkOnce_nodes]
  rw [hlink, mem_identities_insert hg₁, mem_identities_insert hg, or_assoc]
  simp

theorem mem_identities_linkMethod {g : Graph} (hg : g.Valid) {u : SourceUnit} {id : DeclId}
    {i : Identity} :
    i ∈ (g.linkMethod u id).1.identities
      ↔ i ∈ g.identities ∨ ∃ d ∈ u.linkedBy g.options id, u.resolve (some d) = i := by
  unfold linkMethod SourceUnit.linkedBy
  split
  · have hinsert := insert_moves g u (some id)
    have hfold := mem_identities_foldl (fun g m hg => linkPair_moves u id m hg)
      (fun g m i hg _ => mem_identities_linkPair hg) (u.overriddenOf g.options id)
      (hinsert.valid hg) hinsert.options i
    rw [hfold, mem_identities_insert hg, or_assoc]
    -- Each pair names the method again, which has its node already.
    simp only [List.mem_flatMap, List.mem_cons, List.not_mem_nil, or_false]
    constructor
    · rintro (h | h | ⟨d, ⟨m, hm, rfl | rfl⟩, h⟩)
      · exact Or.inl h
      · exact Or.inr ⟨id, Or.inl rfl, h⟩
      · exact Or.inr ⟨d, Or.inl rfl, h⟩
      · exact Or.inr ⟨d, Or.inr hm, h⟩
    · rintro (h | ⟨d, rfl | hd, h⟩)
      · exact Or.inl h
      · exact Or.inr (Or.inl h)
      · exact Or.inr (Or.inr ⟨d, ⟨d, hd, Or.inr rfl⟩, h⟩)
  · simp

theorem mem_identities_linkUnit {g : Graph} (hg : g.Valid) (u : SourceUnit) (i : Identity) :
    i ∈ (g.linkUnit u).1.identities
      ↔ i ∈ g.identities ∨ ∃ d ∈ u.walk.flatMap (u.linkedBy g.options), u.resolve (some d) = i := by
  rw [linkUnit_fst]
  refine mem_identities_foldl (fun g id hg => linkMethod_moves u id hg) ?_ u.walk hg rfl i
  intro g' id i hg' ho
  rw [mem_identities_linkMethod hg', ho]

end Graph

/-! ## Counts -/

namespace Stats

theorem zero_add (s : Stats) : {} + s = s := by
  show add {} s = s
  simp only [add, Nat.zero_add]

/-- Counting on from what has been counted before adds what is counted now. -/
theorem foldl_add (l : List Stats) (s : Stats) : l.foldl (· + ·) s = s + sum l := by
  have hassoc : ∀ a b c : Stats, a + b + c = a + (b + c) := fun a b c => by
    show (a.add b).add c = a.add (b.add c)
    simp only [add, Nat.add_assoc]
  have hzero : s + {} = s := rfl
  have : Std.Associative fun a b : Stats => a + b := ⟨hassoc⟩
  calc l.foldl (· + ·) s = l.foldl (· + ·) (s + {}) := by rw [hzero]
    _ = s + sum l := List.foldl_assoc

end Stats

namespace Graph

/-- What no step changes is the same at the end of a fold, in every graph. -/
theorem foldl_view {β γ : Type} (view : Graph → γ) {f : Graph → β → Graph}
    (hf : ∀ g x, view (f g x) = view g) (xs : List β) (g : Graph) :
    view (xs.foldl f g) = view g := by
  induction xs generalizing g with
  | nil => rfl
  | cons x xs ih => rw [List.foldl_cons, ih, hf]

/-! ### The options stay the same -/

theorem addCall_options (g : Graph) (u : SourceUnit) (c : Call) :
    (g.addCall u c).options = g.options := by
  show ((g.insert u (some c.caller)).1.insert u (some c.callee)).1.options = g.options
  rw [(insert_moves _ u _).options, (insert_moves g u _).options]

theorem addDecl_options (g : Graph) (u : SourceUnit) (id : DeclId) :
    (g.addDecl u id).1.options = g.options :=
  (foldl_view options (fun g c => addCall_options g u c) _ _).trans (insert_moves g u _).options

theorem linkPair_options (g : Graph) (u : SourceUnit) (method overridden : DeclId) :
    (g.linkPair u method overridden).options = g.options := by
  simp only [linkPair, linkOnce_options]
  rw [(insert_moves _ u _).options, (insert_moves g u _).options]

theorem linkMethod_options (g : Graph) (u : SourceUnit) (id : DeclId) :
    (g.linkMethod u id).1.options = g.options := by
  unfold linkMethod
  split
  · exact (foldl_view options (fun g m => linkPair_options g u id m) _ _).trans
      (insert_moves g u _).options
  · rfl

/-! ### What is given back -/

/-- What is counted on the way is told from the list alone, if it depends on the options only. -/
theorem tally_snd {α β : Type} [Add β] {f : Graph → α → Graph × β} (count : Options → α → β)
    (hoptions : ∀ g x, (f g x).1.options = g.options)
    (hcount : ∀ g x, (f g x).2 = count g.options x) (xs : List α) (g : Graph) (n : β) :
    (tally f xs g n).2 = (xs.map (count g.options)).foldl (· + ·) n := by
  unfold tally
  induction xs generalizing g n with
  | nil => rfl
  | cons x xs ih =>
      rw [List.foldl_cons, ih, hoptions, hcount]
      rfl

theorem addDecls_snd (g : Graph) (u : SourceUnit) (ids : List DeclId) :
    (g.addDecls u ids).2 = .sum (ids.map (u.statsOf g.options)) :=
  tally_snd u.statsOf (fun g id => addDecl_options g u id) (fun _ _ => rfl) ids g {}

theorem addUnit_snd (g : Graph) (u : SourceUnit) : (g.addUnit u).2 = u.sweepStats g.options :=
  addDecls_snd g u (u.sweep g.options)

/-! ### What the graph has counted -/

@[simp] theorem addNode_stats (g : Graph) (u : SourceUnit) (d : DeclId) :
    (g.addNode u d).stats = g.stats := by
  simp only [addNode, link, claim]
  split <;> rfl

@[simp] theorem insert_stats (g : Graph) (u : SourceUnit) (id : DeclId) :
    (g.insert u (some id)).1.stats = g.stats := by
  rcases insert_eq g u id with ⟨n, -, heq⟩ | ⟨d, -, -, heq⟩
  · rw [heq]
  · rw [heq]
    exact addNode_stats g u d

@[simp] theorem linkOnce_stats (g : Graph) (e : Edge) : (g.linkOnce e).stats = g.stats := by
  rcases linkOnce_eq g e with ⟨-, heq⟩ | ⟨-, heq⟩ <;> rw [heq]
  rfl

theorem addCall_stats (g : Graph) (u : SourceUnit) (c : Call) :
    (g.addCall u c).stats = g.stats := by
  have hlink : (g.addCall u c).stats
      = ((g.insert u (some c.caller)).1.insert u (some c.callee)).1.stats := rfl
  rw [hlink, insert_stats, insert_stats]

theorem linkPair_stats (g : Graph) (u : SourceUnit) (method overridden : DeclId) :
    (g.linkPair u method overridden).stats = g.stats := by
  simp only [linkPair, linkOnce_stats, insert_stats]

theorem addDecl_stats (g : Graph) (u : SourceUnit) (id : DeclId) :
    (g.addDecl u id).1.stats = g.stats + u.statsOf g.options id := by
  have hcalls := foldl_view stats (fun g c => addCall_stats g u c) (u.callsOf g.options id)
    (g.insert u (some id)).1
  rw [insert_stats] at hcalls
  exact congrArg (· + u.statsOf g.options id) hcalls

theorem foldl_addDecl_stats (g : Graph) (u : SourceUnit) (ids : List DeclId) :
    (ids.foldl (fun g id => (g.addDecl u id).1) g).stats
      = (ids.map (u.statsOf g.options)).foldl (· + ·) g.stats := by
  induction ids generalizing g with
  | nil => rfl
  | cons id ids ih =>
      rw [List.foldl_cons, ih, addDecl_options, addDecl_stats]
      rfl

/-- A graph gains what is given back. -/
theorem addDecls_stats (g : Graph) (u : SourceUnit) (ids : List DeclId) :
    (g.addDecls u ids).1.stats = g.stats + (g.addDecls u ids).2 := by
  rw [addDecls_fst, addDecls_snd, foldl_addDecl_stats, Stats.foldl_add]

theorem linkUnit_stats (g : Graph) (u : SourceUnit) : (g.linkUnit u).1.stats = g.stats := by
  rw [linkUnit_fst]
  refine foldl_view stats (fun g id => ?_) u.walk g
  unfold linkMethod
  split
  · exact (foldl_view stats (fun g m => linkPair_stats g u id m) _ _).trans (insert_stats g u id)
  · rfl

/-! ## The graph of a unit -/

/-- The calls of a unit's graph are those of the bodies gone through, in order. -/
theorem callPairs_build (o : Options) (u : SourceUnit) :
    (build o u).callPairs = ((u.sweep o).flatMap (u.callsOf o)).map u.ends := by
  have hvalid := (addDecls_moves u (u.sweep o) (valid_ofOptions o)).valid (valid_ofOptions o)
  have hunit := callPairs_addDecls (valid_ofOptions o) u (u.sweep o)
  rw [build_eq]
  split
  · exact (callPairs_linkUnit hvalid u).trans hunit
  · exact hunit

/-- The nodes of a unit's graph are the root and those of the declarations met. -/
theorem mem_identities_build {o : Options} {u : SourceUnit} {i : Identity} :
    i ∈ (build o u).identities ↔ i = .root ∨ ∃ d ∈ u.met o, u.resolve (some d) = i := by
  have hmoves := addDecls_moves u (u.sweep o) (valid_ofOptions o)
  have hroot : i ∈ (ofOptions o).identities ↔ i = .root := by
    simp [identities, ofOptions, Node.root]
  have hunit := mem_identities_addDecls (valid_ofOptions o) u (u.sweep o) i
  rw [hroot] at hunit
  rw [build_eq, SourceUnit.met]
  split
  · have hlink := mem_identities_linkUnit (hmoves.valid (valid_ofOptions o)) u i
    rw [hunit, hmoves.options, or_assoc] at hlink
    refine hlink.trans ?_
    simp only [ofOptions, List.mem_append, or_and_right, exists_or]
  · rw [List.append_nil]
    exact hunit

/-- What a unit's graph has counted is what the bodies gone through hold. -/
theorem build_stats (o : Options) (u : SourceUnit) : (build o u).stats = u.sweepStats o := by
  have hunit : ((ofOptions o).addDecls u (u.sweep o)).1.stats = u.sweepStats o := by
    rw [addDecls_stats, addDecls_snd]
    exact Stats.zero_add _
  rw [build_eq]
  split
  · rw [linkUnit_stats, hunit]
  · exact hunit

end Graph

end CallGraph
