import CallGraph.Proofs.Sweep
import CallGraph.Report
import Mathlib.Data.List.Pairwise

/-!
# The listing of keys

The keys of a graph are a table from keys to nodes, and a table may hand out its entries in any order.
They are listed by their texts, so the texts come out in the same order whatever the table does
(`map_key_listKeys`). But a text does not always tell which key it is of: what links by its plain name
can bear the mangled name of something else. Sorting is stable, so the entries of one text stay in
the order in which they were handed out (`filter_listKeys`), and the listing depends on it exactly
if a plain and a mangled key of the same text are owned by nodes with different labels
(`listsAlike_iff`).

The listing of several units puts those of each one after the other, each from a table of its own
(`Listing`). Their lengths are fixed, so it is determined exactly if each of them is.
-/

namespace CallGraph

/-! ## Who owns a key -/

/-- The two forms of a key that names something. -/
theorem Key.eq_plain_or_eq_mangled {k : Key} (hk : k ≠ .noName) :
    k = .plain k.text ∨ k = .mangled k.text := by
  cases k with
  | noName => exact absurd rfl hk
  | plain s => exact Or.inl rfl
  | mangled s => exact Or.inr rfl

/-- The entries of a graph's keys are what a look-up finds. -/
theorem Graph.Valid.mem_keys_iff {g : Graph} (hg : g.Valid) {k : Key} {n : Nat} :
    (k, n) ∈ g.keys ↔ g.nodeOfKey? k = some n := by
  rw [nodeOfKey?, List.lookup_eq_some_iff]
  constructor
  · intro hmem
    obtain ⟨before, after, hkeys⟩ := List.append_of_mem hmem
    refine ⟨before, after, hkeys, fun x hx => ?_⟩
    have honce := hg.key_once
    rw [hkeys, List.map_append, List.nodup_append] at honce
    exact bne_iff_ne.mpr (Ne.symm (honce.2.2 _ (List.mem_map_of_mem hx) _ (by simp)))
  · rintro ⟨before, after, hkeys, -⟩
    rw [hkeys]
    simp

/-! ## The listing of one unit -/

namespace KeyEntry

theorem le_trans (a b c : KeyEntry) (hab : le a b = true) (hbc : le b c = true) :
    le a c = true :=
  decide_eq_true (String.le_trans (of_decide_eq_true hab) (of_decide_eq_true hbc))

theorem le_total (a b : KeyEntry) : (le a b || le b a) = true := by
  simpa [le] using String.le_total a.key b.key

end KeyEntry

namespace UnitGraph

/-- The listing does not depend on the order in which the keys are handed out. -/
def ListsAlike (g : UnitGraph) : Prop :=
  ∀ ks ks' : List (Key × Nat), ks.Perm g.graph.keys → ks'.Perm g.graph.keys →
    g.listKeys ks = g.listKeys ks'

/-- A plain and a mangled key of the same text are owned by nodes with the same label. -/
def TextsTellLabels (g : UnitGraph) : Prop :=
  ∀ s n m, g.graph.nodeOfKey? (.plain s) = some n → g.graph.nodeOfKey? (.mangled s) = some m →
    g.graph.label n = g.graph.label m

variable (g : UnitGraph)

theorem listKeys_perm (ks : List (Key × Nat)) : (g.listKeys ks).Perm (ks.map g.keyEntry) :=
  List.mergeSort_perm _ _

theorem pairwise_listKeys (ks : List (Key × Nat)) :
    (g.listKeys ks).Pairwise fun a b => a.key ≤ b.key :=
  (List.pairwise_mergeSort KeyEntry.le_trans KeyEntry.le_total (ks.map g.keyEntry)).imp
    of_decide_eq_true

/-- The texts are listed in one order. -/
theorem map_key_listKeys {ks ks' : List (Key × Nat)} (h : ks.Perm ks') :
    (g.listKeys ks).map KeyEntry.key = (g.listKeys ks').map KeyEntry.key := by
  have hperm : (g.listKeys ks).Perm (g.listKeys ks') :=
    ((g.listKeys_perm ks).trans (h.map _)).trans (g.listKeys_perm ks').symm
  refine List.Perm.eq_of_pairwise (fun _ _ _ _ => String.le_antisymm) ?_ ?_ (hperm.map _)
  · exact List.pairwise_map.mpr (g.pairwise_listKeys ks)
  · exact List.pairwise_map.mpr (g.pairwise_listKeys ks')

theorem map_unit_key_listKeys (ks : List (Key × Nat)) :
    (g.listKeys ks).map (fun e => (e.unit, e.key))
      = ((g.listKeys ks).map KeyEntry.key).map (g.unit.name, ·) := by
  rw [List.map_map]
  refine List.map_congr_left fun e he => ?_
  obtain ⟨x, -, rfl⟩ := List.mem_map.mp ((g.listKeys_perm ks).mem_iff.mp he)
  rfl

/-- The entries of one text stay in the order in which they come. -/
theorem filter_listKeys (ks : List (Key × Nat)) (s : String) :
    ((g.listKeys ks).filter fun e => e.key = s)
      = (ks.filter fun x => x.1.text = s).map g.keyEntry := by
  have hsorted : ((ks.map g.keyEntry).filter fun e => e.key = s).Pairwise
      (fun a b => KeyEntry.le a b = true) := by
    refine List.pairwise_of_forall_mem_list fun a ha b hb => ?_
    have hakey : a.key = s := of_decide_eq_true (List.mem_filter.mp ha).2
    have hbkey : b.key = s := of_decide_eq_true (List.mem_filter.mp hb).2
    exact decide_eq_true (hakey.trans hbkey.symm ▸ String.le_refl _)
  -- The listing holds these entries in this order, and as many of the text as there are.
  have hsub : ((ks.map g.keyEntry).filter fun e => e.key = s).Sublist (g.listKeys ks) :=
    List.sublist_mergeSort KeyEntry.le_trans KeyEntry.le_total hsorted List.filter_sublist
  have hfilter := hsub.filter fun e => e.key = s
  simp only [List.filter_filter, Bool.and_self] at hfilter
  have hlength := ((g.listKeys_perm ks).filter fun e => e.key = s).length_eq
  rw [← hfilter.eq_of_length hlength.symm, List.filter_map]
  rfl

variable {g}

/-- Two entries of one text have the same label, if texts tell labels. -/
theorem keyEntry_eq_of_text {x y : Key × Nat} (hg : g.graph.Valid) (htexts : g.TextsTellLabels)
    (hx : x ∈ g.graph.keys) (hy : y ∈ g.graph.keys) (htext : x.1.text = y.1.text) :
    g.keyEntry x = g.keyEntry y := by
  obtain ⟨k, n⟩ := x
  obtain ⟨k', m⟩ := y
  have hlabel : g.graph.label n = g.graph.label m := by
    have hk := hg.mem_keys_iff.mp hx
    have hk' := hg.mem_keys_iff.mp hy
    have hforms := Key.eq_plain_or_eq_mangled (hg.key_owner k n hx).1
    have hforms' := Key.eq_plain_or_eq_mangled (hg.key_owner k' m hy).1
    rw [← htext] at hforms'
    rcases hforms with hplain | hmangled
    · rw [hplain] at hk
      rcases hforms' with hplain' | hmangled'
      · rw [hplain', hk] at hk'
        rw [Option.some.inj hk']
      · rw [hmangled'] at hk'
        exact htexts _ n m hk hk'
    · rw [hmangled] at hk
      rcases hforms' with hplain' | hmangled'
      · rw [hplain'] at hk'
        exact (htexts _ m n hk' hk).symm
      · rw [hmangled', hk] at hk'
        rw [Option.some.inj hk']
  rw [keyEntry, keyEntry, htext, hlabel]

/-- If two keys have one text, either can be handed out first. -/
theorem exists_perm_keys {x y : Key × Nat} (hx : x ∈ g.graph.keys) (hy : y ∈ g.graph.keys)
    (hne : x ≠ y) : ∃ rest, (x :: y :: rest).Perm g.graph.keys
      ∧ (y :: x :: rest).Perm g.graph.keys := by
  have hmem : y ∈ g.graph.keys.erase x := (List.mem_erase_of_ne hne.symm).mpr hy
  have hperm : (x :: y :: (g.graph.keys.erase x).erase y).Perm g.graph.keys :=
    ((List.perm_cons_erase hmem).symm.cons x).trans (List.perm_cons_erase hx).symm
  exact ⟨_, hperm, (List.Perm.swap x y _).trans hperm⟩

theorem listsAlike_iff (hg : g.graph.Valid) : g.ListsAlike ↔ g.TextsTellLabels := by
  constructor
  · intro halike s n m hplain hmangled
    obtain ⟨rest, hfirst, hsecond⟩ := exists_perm_keys (hg.mem_keys_iff.mpr hplain)
      (hg.mem_keys_iff.mpr hmangled) (by simp)
    -- The first entry of the text is that of the key handed out first.
    have hfilter := congrArg (List.filter fun e => e.key = s) (halike _ _ hfirst hsecond)
    rw [filter_listKeys, filter_listKeys] at hfilter
    simp only [Key.text, decide_true, List.filter_cons_of_pos, List.map_cons, List.cons.injEq]
      at hfilter
    exact congrArg KeyEntry.label hfilter.1
  · intro htexts ks ks' hks hks'
    have hmem : ∀ {ks : List (Key × Nat)} {e : KeyEntry}, ks.Perm g.graph.keys →
        e ∈ g.listKeys ks → ∃ x ∈ g.graph.keys, g.keyEntry x = e := by
      intro ks e hks he
      obtain ⟨x, hx, hentry⟩ := List.mem_map.mp ((g.listKeys_perm ks).mem_iff.mp he)
      exact ⟨x, hks.mem_iff.mp hx, hentry⟩
    refine List.Perm.eq_of_pairwise ?_ (g.pairwise_listKeys ks) (g.pairwise_listKeys ks') ?_
    · intro a b ha hb hab hba
      obtain ⟨x, hx, rfl⟩ := hmem hks ha
      obtain ⟨y, hy, rfl⟩ := hmem hks' hb
      exact keyEntry_eq_of_text hg htexts hx hy (String.le_antisymm hab hba)
    · exact ((g.listKeys_perm ks).trans ((hks.trans hks'.symm).map _)).trans
        (g.listKeys_perm ks').symm

end UnitGraph

/-! ## The listing of several units -/

namespace UnitGraphs

/-- What can be listed for some units, each of which hands out its keys in some order. -/
inductive Listing : UnitGraphs → List KeyEntry → Prop where
  | nil : Listing [] []
  | cons {g : UnitGraph} {gs : UnitGraphs} {ks : List (Key × Nat)} {rest : List KeyEntry}
      (hks : ks.Perm g.graph.keys) (hrest : Listing gs rest) :
      Listing (g :: gs) (g.listKeys ks ++ rest)

theorem listing_keyEntries (gs : UnitGraphs) : Listing gs gs.keyEntries := by
  induction gs with
  | nil => exact Listing.nil
  | cons g gs ih => exact Listing.cons (List.Perm.refl _) ih

/-- Whatever the orders, the same entries are listed, and their units and texts in the same order. -/
theorem Listing.perm_and_map_unit_key {gs : UnitGraphs} {l : List KeyEntry} (h : Listing gs l) :
    l.Perm gs.keyEntries
    ∧ l.map (fun e => (e.unit, e.key)) = gs.keyEntries.map (fun e => (e.unit, e.key)) := by
  induction h with
  | nil => exact ⟨List.Perm.refl _, rfl⟩
  | @cons g gs ks rest hks _ ih =>
      have hperm : (g.listKeys ks).Perm g.keyEntries :=
        ((g.listKeys_perm ks).trans (hks.map _)).trans (g.listKeys_perm _).symm
      refine ⟨hperm.append ih.1, ?_⟩
      show (g.listKeys ks ++ rest).map (fun e => (e.unit, e.key))
        = (g.keyEntries ++ gs.keyEntries).map (fun e => (e.unit, e.key))
      rw [List.map_append, List.map_append, ih.2, g.map_unit_key_listKeys, g.map_key_listKeys hks,
        ← g.map_unit_key_listKeys]
      rfl

/-- The parts of a listing have fixed lengths, so it is determined exactly if they are. -/
theorem listing_unique_iff_listsAlike {gs : UnitGraphs} :
    (∀ l l', Listing gs l → Listing gs l' → l = l') ↔ ∀ g ∈ gs, g.ListsAlike := by
  induction gs with
  | nil =>
      simp only [List.not_mem_nil, false_implies, implies_true, iff_true]
      intro l l' hl hl'
      cases hl
      cases hl'
      rfl
  | cons g gs ih =>
      rw [List.forall_mem_cons, ← ih]
      constructor
      · intro hunique
        refine ⟨fun ks ks' hks hks' => ?_, fun l l' hl hl' => ?_⟩
        · have hrest := listing_keyEntries gs
          exact List.append_cancel_right (hunique _ _ (.cons hks hrest) (.cons hks' hrest))
        · have hfirst := List.Perm.refl g.graph.keys
          exact List.append_cancel_left (hunique _ _ (.cons hfirst hl) (.cons hfirst hl'))
      · rintro ⟨halike, hrest⟩ _ _ (_ | ⟨hks, hl⟩) (_ | ⟨hks', hl'⟩)
        rw [halike _ _ hks hks', hrest _ _ hl hl']

/-- **The listing of keys.** Whatever the orders in which the graphs of some units hand out their keys,
the same entries are listed, with the same unit and the same text at each place. Which label stands
there depends on the orders, unless in each graph a plain and a mangled key of the same text are owned
by nodes with the same label. -/
theorem listing_build_unique_iff (o : Options) (us : List SourceUnit) :
    let gs := UnitGraphs.build o us
    Listing gs gs.keyEntries
    ∧ (∀ l, Listing gs l → l.Perm gs.keyEntries
      ∧ l.map (fun e => (e.unit, e.key)) = gs.keyEntries.map (fun e => (e.unit, e.key)))
    ∧ ((∀ l l', Listing gs l → Listing gs l' → l = l') ↔ ∀ g ∈ gs, g.TextsTellLabels) := by
  intro gs
  refine ⟨listing_keyEntries gs, fun l hl => hl.perm_and_map_unit_key, ?_⟩
  rw [listing_unique_iff_listsAlike]
  refine forall₂_congr fun g hg => UnitGraph.listsAlike_iff ?_
  obtain ⟨u, -, rfl⟩ := List.mem_map.mp hg
  exact Graph.build_valid o u

/-- A function, and one that links by the mangled name of the first. -/
def aliased : SourceUnit where
  name := "alias.c"
  decls := #[
    { Decl.ofName .function "f" with id := 0 },
    { Decl.ofName .function "_Z1fv" with id := 1, isExternC := true }]
  topLevel := [0, 1]

theorem build_aliased :
    Graph.build {} aliased = ((Graph.ofOptions {}).addNode aliased 0).addNode aliased 1 := by
  have hwalk : aliased.walk = [0, 1] := by cbv
  have hsweep : aliased.sweep {} = [0, 1] := by
    rw [SourceUnit.sweep_eq_filter_walk (by decide), hwalk]
    decide
  let g := (Graph.ofOptions {}).addNode aliased 0
  have hfirst : ((Graph.ofOptions {}).addDecl aliased 0).1 = g := by
    rw [Graph.addDecl_fst_of_not_hasBody _ rfl, Graph.insert_of_nodeOf?_eq_none (d := 0) (by cbv) rfl]
  have hsecond : (g.addDecl aliased 1).1 = g.addNode aliased 1 := by
    rw [Graph.addDecl_fst_of_not_hasBody _ rfl, Graph.insert_of_nodeOf?_eq_none (d := 1) (by cbv) rfl]
  rw [Graph.build_eq_addDecls (hwalk ▸ rfl), hsweep, Graph.addDecls_fst, List.foldl_cons,
    List.foldl_cons, List.foldl_nil, hfirst, hsecond]

/-- The keys of a valid unit can be listed in two ways: both functions own a key of the one text, and
their labels differ. -/
theorem listing_aliased :
    aliased.error? = none
    ∧ ¬ ∀ l l', Listing (UnitGraphs.build {} [aliased]) l → Listing (UnitGraphs.build {} [aliased]) l'
      → l = l' := by
  refine ⟨by decide, fun hunique => ?_⟩
  have halike := listing_unique_iff_listsAlike.mp hunique _ (List.mem_singleton_self _)
  have hlabels := (UnitGraph.listsAlike_iff (Graph.build_valid {} aliased)).mp halike "_Z1fv" 2 1
  rw [UnitGraph.build, build_aliased] at hlabels
  exact absurd (hlabels (by decide) (by decide)) (by decide)

end UnitGraphs

end CallGraph
