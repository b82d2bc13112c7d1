import CallGraph.Proofs.Overrides
import CallGraph.Proofs.Session

/-!
# Putting a unit in again

The second time that a unit is put into a graph, every declaration that is met has its node. An insertion
then changes nothing and only tells the place (`insert_of_nodeOf?`), so that a call becomes one edge between
the places of its ends (`addCall_of_mem`), and all that the bodies add is the edges of their calls, one
after the other (`addDecls_of_met`).

The first time, nodes are made between the calls, but nodes do not move. So the calls that the first time
left, told by identities (`callPairs`), are at the end the same edges, looked up in the finished graph
(`Valid.declCalls_eq`), and both times come to one list.

Linking adds edges of its own kinds only if they are not there, and what it adds depends on the unit and
the options. A second time it finds all of its nodes and edges, and leaves the graph as it is
(`linkUnit_linkUnit`).
-/

namespace CallGraph

namespace Graph

/-! ## Looking nodes up -/

theorem Valid.nodeOf?_of_mem {g : Graph} (hg : g.Valid) {i : Identity} (hi : i ∈ g.identities) :
    ∃ n, g.nodeOf? i = some n ∧ g.identity? n = some i := by
  obtain ⟨n, hn⟩ := mem_identities_iff.mp hi
  exact ⟨n, (hg.nodeOf?_iff i n).mpr hn, hn⟩

/-- The call between the nodes with these identities. -/
def callBetween (g : Graph) (ends : Option Identity × Option Identity) : Edge :=
  ⟨(ends.1.bind g.nodeOf?).getD root, (ends.2.bind g.nodeOf?).getD root, .call⟩

/-- The table of identities is all that counts for look-ups. -/
theorem callBetween_congr {g g' : Graph} (h : g'.places = g.places) :
    g'.callBetween = g.callBetween := by
  have hnode : g'.nodeOf? = g.nodeOf? := by
    funext i
    rw [nodeOf?, h, nodeOf?]
  funext ends
  rw [callBetween, hnode, callBetween]

theorem identities_congr {g g' : Graph} (h : g'.nodes = g.nodes) : g'.identities = g.identities := by
  simp only [identities, h]

/-- The edges of the calls between declarations, oldest first. -/
def declCalls (es : List Edge) : List Edge :=
  es.filter fun e => e.kind = .call ∧ e.source ≠ root

/-- The edges of calls can be told from the identities of their ends. -/
theorem Valid.declCalls_eq {g : Graph} (hg : g.Valid) :
    declCalls g.edges.toList = g.callPairs.map g.callBetween := by
  rw [callPairs, List.map_map]
  refine (List.map_id _).symm.trans (List.map_congr_left fun e he => ?_)
  obtain ⟨hmem, hcall⟩ := List.mem_filter.mp he
  obtain ⟨hs, ht⟩ := hg.ends e hmem
  obtain ⟨i, hi⟩ := exists_identity?_of_has hs
  obtain ⟨j, hj⟩ := exists_identity?_of_has ht
  have hkind : e.kind = .call := (of_decide_eq_true hcall).1
  simp only [id_eq, Function.comp_apply, callBetween, hi, hj, Option.bind_some,
    (hg.nodeOf?_iff i _).mpr hi, (hg.nodeOf?_iff j _).mpr hj, Option.getD_some, ← hkind]

/-! ## Bodies whose declarations have nodes -/

variable {g : Graph} {u : SourceUnit}

theorem addCall_of_mem (hg : g.Valid) {c : Call}
    (hcaller : u.resolve (some c.caller) ∈ g.identities)
    (hcallee : u.resolve (some c.callee) ∈ g.identities) :
    g.addCall u c = g.link (g.callBetween (u.ends c)) := by
  obtain ⟨a, ha, -⟩ := hg.nodeOf?_of_mem hcaller
  obtain ⟨b, hb, -⟩ := hg.nodeOf?_of_mem hcallee
  simp only [addCall, insert_of_nodeOf? ha, insert_of_nodeOf? hb]
  simp only [callBetween, SourceUnit.ends, Option.bind_some, ha, hb, Option.getD_some]

/-- The graph has the node of everything that is met in the body of a declaration. -/
def HasMet (g : Graph) (u : SourceUnit) (id : DeclId) : Prop :=
  ∀ d ∈ u.metIn g.options id, u.resolve (some d) ∈ g.identities

/-- One graph is the other with edges appended and, maybe, something counted. -/
structure Appends (g g' : Graph) (es : List Edge) : Prop where
  options : g'.options = g.options
  nodes : g'.nodes = g.nodes
  places : g'.places = g.places
  keys : g'.keys = g.keys
  edges : g'.edges.toList = g.edges.toList ++ es

namespace Appends

theorem refl (g : Graph) : g.Appends g [] :=
  ⟨rfl, rfl, rfl, rfl, (List.append_nil _).symm⟩

theorem trans {g₁ g₂ g₃ : Graph} {es fs : List Edge} (h₁ : g₁.Appends g₂ es) (h₂ : g₂.Appends g₃ fs) :
    g₁.Appends g₃ (es ++ fs) where
  options := h₂.options.trans h₁.options
  nodes := h₂.nodes.trans h₁.nodes
  places := h₂.places.trans h₁.places
  keys := h₂.keys.trans h₁.keys
  edges := by rw [h₂.edges, h₁.edges, List.append_assoc]

theorem link (g : Graph) (e : Edge) : g.Appends (g.link e) [e] :=
  ⟨rfl, rfl, rfl, rfl, link_edges g e⟩

end Appends

theorem foldl_addCall_of_mem (hg : g.Valid) (cs : List Call)
    (h : ∀ c ∈ cs, u.resolve (some c.caller) ∈ g.identities
      ∧ u.resolve (some c.callee) ∈ g.identities) :
    g.Appends (cs.foldl (fun g c => g.addCall u c) g) (cs.map fun c => g.callBetween (u.ends c)) := by
  induction cs generalizing g with
  | nil => exact .refl g
  | cons c cs ih =>
      obtain ⟨⟨hcaller, hcallee⟩, hrest⟩ := List.forall_mem_cons.mp h
      have hvalid := (addCall_moves u c hg).valid hg
      rw [addCall_of_mem hg hcaller hcallee] at hvalid
      rw [List.foldl_cons, addCall_of_mem hg hcaller hcallee]
      exact (Appends.link g _).trans (ih hvalid hrest)

theorem addDecl_of_met (hg : g.Valid) {id : DeclId} (h : g.HasMet u id) :
    g.Appends (g.addDecl u id).1
      ((u.callsOf g.options id).map fun c => g.callBetween (u.ends c)) := by
  obtain ⟨hid, hcalls⟩ := List.forall_mem_cons.mp h
  obtain ⟨n, hn, -⟩ := hg.nodeOf?_of_mem hid
  have hends : ∀ c ∈ u.callsOf g.options id, u.resolve (some c.caller) ∈ g.identities
      ∧ u.resolve (some c.callee) ∈ g.identities := fun c hc =>
    ⟨hcalls _ (List.mem_flatMap.mpr ⟨c, hc, by simp⟩), hcalls _ (List.mem_flatMap.mpr ⟨c, hc, by simp⟩)⟩
  have hfold := foldl_addCall_of_mem hg _ hends
  simp only [addDecl, insert_of_nodeOf? hn]
  exact ⟨hfold.options, hfold.nodes, hfold.places, hfold.keys, hfold.edges⟩

/-- Bodies whose declarations have nodes add the edges of their calls, and no node and no key. -/
theorem addDecls_of_met (hg : g.Valid) (ids : List DeclId) (h : ∀ id ∈ ids, g.HasMet u id) :
    g.Appends (g.addDecls u ids).1
      ((ids.flatMap (u.callsOf g.options)).map fun c => g.callBetween (u.ends c)) := by
  rw [addDecls_fst]
  induction ids generalizing g with
  | nil => exact .refl g
  | cons id ids ih =>
      obtain ⟨hid, hrest⟩ := List.forall_mem_cons.mp h
      have hstep := addDecl_of_met hg hid
      have hmet : ∀ id' ∈ ids, (g.addDecl u id).1.HasMet u id' := fun id' hid' d hd => by
        rw [identities_congr hstep.nodes]
        exact hrest id' hid' d (hstep.options ▸ hd)
      have hih := ih ((addDecl_moves u id hg).valid hg) hmet
      rw [hstep.options, callBetween_congr hstep.places] at hih
      rw [List.flatMap_cons, List.map_append]
      exact hstep.trans hih

/-! ## The first time and the second -/

/-- Edges are only appended. -/
theorem Move.edges_prefix {g g' : Graph} (h : Move g g') : g.edges.toList <+: g'.edges.toList := by
  cases h with
  | node u hd => rw [addNode_edges]; exact List.prefix_append _ _
  | call => rw [link_edges]; exact List.prefix_append _ _
  | @link e _ _ _ =>
      rcases linkOnce_eq g e with ⟨-, heq⟩ | ⟨-, heq⟩
      · rw [heq]
      · rw [heq, link_edges]; exact List.prefix_append _ _
  | count => exact List.prefix_refl _

theorem Moves.edges_prefix {g g' : Graph} (h : Moves g g') : g.edges.toList <+: g'.edges.toList := by
  induction h with
  | refl => exact List.prefix_refl _
  | tail _ hmove ih => exact ih.trans hmove.edges_prefix

theorem hasMet_addUnit (hg : g.Valid) {id : DeclId} (hid : id ∈ u.sweep g.options) :
    (g.addUnit u).1.HasMet u id := by
  intro d hd
  rw [addUnit, (addDecls_moves u _ hg).options] at hd
  exact (mem_identities_addDecls hg u _ _).mpr
    (Or.inr ⟨d, List.mem_flatMap.mpr ⟨id, hid, hd⟩, rfl⟩)

/-- The calls between declarations that bodies put in are those of the bodies, between the places that the
nodes have afterwards. -/
theorem declCalls_addUnit (hg : g.Valid) {added : List Edge}
    (hadded : (g.addUnit u).1.edges.toList = g.edges.toList ++ added) :
    declCalls added = ((u.sweep g.options).flatMap (u.callsOf g.options)).map fun c =>
      (g.addUnit u).1.callBetween (u.ends c) := by
  have hall := ((addDecls_moves u (u.sweep g.options) hg).valid hg).declCalls_eq
  rw [callPairs_addDecls hg u, List.map_append, List.map_map] at hall
  replace hall : declCalls (g.addUnit u).1.edges.toList = _ := hall
  rw [hadded, declCalls, List.filter_append] at hall
  -- What was there before is as long on both sides, so the lists can be cut at the same point.
  refine (List.append_inj hall ?_).2
  simp only [callPairs, List.length_map]

theorem addUnit_addUnit (hg : g.Valid) {added : List Edge}
    (hadded : (g.addUnit u).1.edges.toList = g.edges.toList ++ added) :
    (g.addUnit u).1.Appends ((g.addUnit u).1.addUnit u).1 (declCalls added) := by
  have hmoves : Moves g (g.addUnit u).1 := addDecls_moves u (u.sweep g.options) hg
  have hagain := addDecls_of_met (hmoves.valid hg) (u.sweep g.options) fun id => hasMet_addUnit hg
  rw [hmoves.options, ← declCalls_addUnit hg hadded] at hagain
  show Appends _ ((g.addUnit u).1.addDecls u (u.sweep (g.addUnit u).1.options)).1 _
  rw [hmoves.options]
  exact hagain

/-! ## Methods that are linked -/

theorem linkOnce_of_linked (hg : g.Valid) {kind : EdgeKind} {a b : Nat} {i j : Identity}
    (ha : g.identity? a = some i) (hb : g.identity? b = some j) (h : g.Linked kind i j) :
    g.linkOnce ⟨a, b, kind⟩ = g := by
  have hmem : ⟨a, b, kind⟩ ∈ g.edges.toList :=
    mem_targets_iff.mp (hg.mem_targets_iff_linked.mpr ⟨i, j, ha, hb, h⟩)
  rcases linkOnce_eq g ⟨a, b, kind⟩ with ⟨-, heq⟩ | ⟨hnew, -⟩
  · exact heq
  · exact absurd hmem hnew

/-- The graph has both edges between the nodes of a method and one that it overrides. -/
def HasLinks (g : Graph) (u : SourceUnit) (method overridden : DeclId) : Prop :=
  ∀ kind ends, u.overrideEnds? method overridden kind = some ends → g.Linked kind ends.1 ends.2

theorem linkPair_of_hasLinks (hg : g.Valid) {method overridden : DeclId}
    (hm : u.resolve (some method) ∈ g.identities) (ho : u.resolve (some overridden) ∈ g.identities)
    (h : g.HasLinks u method overridden) : g.linkPair u method overridden = g := by
  obtain ⟨a, ha, hia⟩ := hg.nodeOf?_of_mem hm
  obtain ⟨b, hb, hib⟩ := hg.nodeOf?_of_mem ho
  simp only [linkPair, insert_of_nodeOf? ha, insert_of_nodeOf? hb]
  rw [linkOnce_of_linked hg hia hib (h .overrides _ rfl),
    linkOnce_of_linked hg hib hia (h .overriddenBy _ rfl)]

theorem linkMethod_of_hasLinks (hg : g.Valid) {id : DeclId}
    (hnodes : ∀ d ∈ u.linkedBy g.options id, u.resolve (some d) ∈ g.identities)
    (hlinks : ∀ m ∈ u.overriddenOf g.options id, g.HasLinks u id m) : (g.linkMethod u id).1 = g := by
  unfold linkMethod
  unfold SourceUnit.linkedBy at hnodes
  split
  next hover =>
    rw [if_pos hover] at hnodes
    obtain ⟨hid, hoverridden⟩ := List.forall_mem_cons.mp hnodes
    obtain ⟨n, hn, -⟩ := hg.nodeOf?_of_mem hid
    rw [insert_of_nodeOf? hn]
    exact foldl_eq_self fun m hm => linkPair_of_hasLinks hg hid (hoverridden m hm) (hlinks m hm)
  next => rfl

theorem linkUnit_linkUnit (hg : g.Valid) : (g.linkUnit u).1.linkUnit u = g.linkUnit u := by
  have hmoves := linkUnit_moves u hg
  refine Prod.ext ?_ (by rw [linkUnit_snd, linkUnit_snd, hmoves.options])
  rw [linkUnit_fst (g.linkUnit u).1]
  refine foldl_eq_self fun id hid => linkMethod_of_hasLinks (hmoves.valid hg) ?_ ?_
  · intro d hd
    rw [hmoves.options] at hd
    exact (mem_identities_linkUnit hg u _).mpr
      (Or.inr ⟨d, List.mem_flatMap.mpr ⟨id, hid, hd⟩, rfl⟩)
  · intro m hm kind ends hends
    rw [hmoves.options] at hm
    have hk : kind ≠ .call := by
      rintro rfl
      cases hends
    exact (linked_linkUnit hg u hk).mpr (Or.inr ⟨id, hid, m, hm, hends⟩)

/-- **What happens if a unit is put in again.** Take any graph that some operations have made. The second
time that the unit is put in, there is no new node and no new key, the same counts are given back as the
first time, and the edges that are appended are the calls between declarations that were appended the
first time, in the same order. Once the methods of the unit are linked, linking them again leaves the
whole graph as it is and gives back the same number of links. -/
theorem addUnit_again (o : Options) (ops : List Operation) (u : SourceUnit) :
    let g := (ofOptions o).session ops
    let once := g.addUnit u
    let twice := once.1.addUnit u
    let linked := g.linkUnit u
    (twice.1.nodes = once.1.nodes ∧ twice.1.places = once.1.places ∧ twice.1.keys = once.1.keys)
    ∧ (once.1.stats = g.stats + once.2 ∧ twice.1.stats = once.1.stats + twice.2
      ∧ twice.2 = once.2 ∧ once.2 = u.sweepStats g.options)
    ∧ (∃ added, once.1.edges.toList = g.edges.toList ++ added
      ∧ twice.1.edges.toList = once.1.edges.toList
        ++ added.filter fun e => e.kind = .call ∧ e.source ≠ root)
    ∧ linked.1.linkUnit u = linked := by
  intro g once twice linked
  have hg : g.Valid := session_valid o ops
  have hmoves : Moves g once.1 := addDecls_moves u (u.sweep g.options) hg
  obtain ⟨added, hadded⟩ := hmoves.edges_prefix
  have hagain := addUnit_addUnit hg hadded.symm
  have hcounts : twice.2 = once.2 := by
    rw [addUnit_snd once.1, addUnit_snd g, hmoves.options]
  exact ⟨⟨hagain.nodes, hagain.places, hagain.keys⟩,
    ⟨addDecls_stats g u _, addDecls_stats once.1 u _, hcounts, addUnit_snd g u⟩,
    ⟨added, hadded.symm, hagain.edges⟩, linkUnit_linkUnit hg⟩

end Graph

end CallGraph
