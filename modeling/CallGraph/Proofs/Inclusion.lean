import CallGraph.Proofs.FunctionPointers
import Mathlib.Data.List.Flatten

/-!
# Leaving out less

Options say by a prefix which functions are inline helpers and left out. With another prefix by which
nothing is left out that was not left out before (`Options.Widens`), more bodies are gone through, more
callees are taken in and more methods are linked, so nodes are made at other times and stand at other
places. Compared by identities the graph only grows (`Graph.Within`).

Inclusion is asked about at the bodies swept, the blocks inside them, what a statement runs, both ends
of an address that is passed and both ends of overriding. Each of these is monotone by itself. The
bodies of the wider sweep come in the same order with others in between (`Widens.sublist_sweep`), so
places can be counted in the two lists of bodies instead of in the two graphs.
-/

namespace CallGraph

namespace Options

/-- The options differ in nothing but the prefix of inline helpers, and the second ones leave out no
declaration of the unit that the first ones include. -/
structure Widens (u : SourceUnit) (o o' : Options) : Prop where
  functionPointers : o'.functionPointers = o.functionPointers
  linkOverrides : o'.linkOverrides = o.linkOverrides
  includes : ∀ d ∈ u.decls.toList, o.includes d = true → o'.includes d = true

/-- With no prefix, or with a longer one, fewer functions are inline helpers. -/
theorem isInlineHelper_of_longer {o : Options} {p q : String}
    (hpq : q = "" ∨ p ≠ "" ∧ p.toList <+: q.toList) {d : Decl}
    (hd : isInlineHelper { o with inlinePrefix := q } d = true) :
    isInlineHelper { o with inlinePrefix := p } d = true := by
  unfold isInlineHelper at hd ⊢
  simp only [Bool.and_eq_true, Bool.not_eq_true', Option.any_eq_true] at hd ⊢
  obtain ⟨⟨hkind, hq⟩, name, hname, hstarts⟩ := hd
  rcases hpq with rfl | ⟨hp, hlonger⟩
  · simp at hq
  · have hshorter : p.toList <+: name.toList :=
      hlonger.trans (List.isPrefixOf_iff_prefix.mp hstarts)
    exact ⟨⟨hkind, by simpa using hp⟩, name, hname, List.isPrefixOf_iff_prefix.mpr hshorter⟩

theorem widens_of_longer (u : SourceUnit) (o : Options) {p q : String}
    (hpq : q = "" ∨ p ≠ "" ∧ p.toList <+: q.toList) :
    Widens u { o with inlinePrefix := p } { o with inlinePrefix := q } where
  functionPointers := rfl
  linkOverrides := rfl
  includes d _ hd := by
    simp only [Options.includes, Bool.and_eq_true, Bool.not_eq_true'] at hd ⊢
    refine ⟨hd.1, Bool.eq_false_iff.mpr fun hhelper => ?_⟩
    exact Bool.eq_false_iff.mp hd.2 (isInlineHelper_of_longer hpq hhelper)

end Options

/-- In a longer list there are as many or more places of a wider sort. -/
theorem countP_le_of_sublist {α : Type} {p q : α → Bool} {l l' : List α} (h : l.Sublist l')
    (hpq : ∀ x ∈ l, p x = true → q x = true) : l.countP p ≤ l'.countP q :=
  (List.countP_mono_left hpq).trans h.countP_le

namespace Options.Widens

open SourceUnit

variable {u : SourceUnit} {o o' : Options} (h : o.Widens u o')

include h

theorem includesIn {id : DeclId} (hid : o.includesIn u id = true) : o'.includesIn u id = true := by
  obtain ⟨d, hd, hincl⟩ := includesIn_iff.mp hid
  have hmem : d ∈ u.decls.toList := Array.mem_def.mp (Array.mem_of_getElem? hd)
  exact includesIn_iff.mpr ⟨d, hd, h.includes d hmem hincl⟩

/-! ## Bodies -/

theorem isSwept {id : DeclId} (hid : u.isSwept o id = true) : u.isSwept o' id = true := by
  unfold SourceUnit.isSwept at hid ⊢
  rw [Bool.and_eq_true] at hid ⊢
  exact ⟨hid.1, h.includesIn hid.2⟩

theorem isBlock {id : DeclId} (hid : u.isBlock o id = true) : u.isBlock o' id = true := by
  unfold SourceUnit.isBlock at hid ⊢
  rw [Bool.and_eq_true] at hid ⊢
  exact ⟨hid.1, h.includesIn hid.2⟩

theorem sublist_blocksIn (id : DeclId) : (u.blocksIn o id).Sublist (u.blocksIn o' id) :=
  List.monotone_filter_right _ fun _ hb => h.isBlock hb

/-- The bodies gone through are gone through again, in the same order, perhaps with others in
between. -/
theorem sublist_sweep : (u.sweep o).Sublist (u.sweep o') := by
  have hswept : (u.walk.filter (u.isSwept o)).Sublist (u.walk.filter (u.isSwept o')) :=
    List.monotone_filter_right _ fun _ hid => h.isSwept hid
  have hblocks : ∀ id ∈ u.walk.filter (u.isSwept o),
      (u.blocksIn o id ++ [id]).Sublist (u.blocksIn o' id ++ [id]) := fun id _ =>
    (h.sublist_blocksIn id).append_right [id]
  exact (List.Sublist.flatMap_right _ hblocks).trans (hswept.flatMap _)

theorem sublist_sites : (u.sites o).Sublist (u.sites o') :=
  h.sublist_sweep.flatMap _

theorem sublist_passings : (u.passings o).Sublist (u.passings o') :=
  h.sublist_sites.flatMap _

theorem walked {id : DeclId} (hid : u.Walked o id) : u.Walked o' id :=
  mem_sweep_iff.mp (h.sublist_sweep.subset (mem_sweep_iff.mpr hid))

/-! ## Places -/

theorem bound {f : DeclId} (hf : u.Bound o f) : u.Bound o' f :=
  ⟨hf.1, h.includesIn hf.2⟩

theorem passes {x : Stmt × Stmt} {c : Call} (hx : u.Passes o x c) : u.Passes o' x c := by
  obtain ⟨target, args, hcallee, hf⟩ := hx
  exact Passes.address target args (h.bound hcallee) (h.bound hf)

theorem runsInto {s : Stmt} {i : Identity} (hs : u.RunsInto o s i) : u.RunsInto o' s i := by
  obtain ⟨d, hd, hincl, hi⟩ := hs
  exact ⟨d, hd, h.includesIn hincl, hi⟩

theorem passesInto {x : Stmt × Stmt} {i j : Identity} (hx : u.PassesInto o x i j) :
    u.PassesInto o' x i j := by
  obtain ⟨c, hc, hends⟩ := hx
  exact ⟨c, h.passes hc, hends⟩

theorem overrides {id : DeclId} {d : Decl} (hid : u.Overrides o id d) : u.Overrides o' id d := by
  obtain ⟨hvisited, hd, hkind, hvirtual, hincl⟩ := hid
  have hmem : d ∈ u.decls.toList := Array.mem_def.mp (Array.mem_of_getElem? hd)
  exact ⟨hvisited, hd, hkind, hvirtual, h.includes d hmem hincl⟩

/-- Whatever is met with the narrower options is met with the wider ones. -/
theorem met {d : DeclId} (hd : u.Met o d) : u.Met o' d := by
  cases hd with
  | walked hid => exact Met.walked (h.walked hid)
  | run hw hs hrun hincl => exact Met.run (h.walked hw) hs hrun (h.includesIn hincl)
  | passed ho hw hs harg hc =>
      exact Met.passed (h.functionPointers.trans ho) (h.walked hw) hs harg (h.passes hc)
  | overridden ho hid hm hincl =>
      exact Met.overridden (h.linkOverrides.trans ho) (h.overrides hid) hm (h.includesIn hincl)

end Options.Widens

/-! ## Counts -/

/-- No count is above the other's. -/
structure Stats.Within (s s' : Stats) : Prop where
  bodiesWalked : s.bodiesWalked ≤ s'.bodiesWalked
  callSites : s.callSites ≤ s'.callSites
  blockCalls : s.blockCalls ≤ s'.blockCalls
  messageCalls : s.messageCalls ≤ s'.messageCalls
  pointerCalls : s.pointerCalls ≤ s'.pointerCalls

/-- Every sort of place that is counted is found as often or more often. -/
theorem Options.Widens.counted {u : SourceUnit} {o o' : Options} (h : o.Widens u o') {s s' : Stats}
    (hs : u.Counted o s) (hs' : u.Counted o' s') : s.Within s' where
  bodiesWalked := by
    rw [hs.bodiesWalked, hs'.bodiesWalked]
    exact h.sublist_sweep.countP_le
  callSites := by
    rw [hs.callSites, hs'.callSites]
    exact h.sublist_sites.countP_le
  blockCalls := by
    rw [hs.blockCalls, hs'.blockCalls]
    exact h.sublist_sites.countP_le
  messageCalls := by
    rw [hs.messageCalls, hs'.messageCalls]
    exact h.sublist_sites.countP_le
  pointerCalls := by
    rw [hs.pointerCalls, hs'.pointerCalls, h.functionPointers]
    split
    · refine countP_le_of_sublist h.sublist_passings fun x _ hx => ?_
      rw [decide_eq_true_eq] at hx ⊢
      obtain ⟨c, hc⟩ := hx
      exact ⟨c, h.passes hc⟩
    · exact Nat.le_refl 0

namespace Graph

theorem Valid.identities_nodup {g : Graph} (hg : g.Valid) : g.identities.Nodup := by
  have hplaces : ((List.range g.nodes.size).map g.identity?).Nodup := by
    refine List.Nodup.map_on (fun n hn m _ heq => ?_) List.nodup_range
    obtain ⟨i, hi⟩ := exists_identity?_of_has (has_iff.mpr (List.mem_range.mp hn))
    exact hg.identity?_inj hi (heq ▸ hi)
  rw [map_identity?_range] at hplaces
  exact hplaces.of_map some

/-- All that one graph holds the other holds too, wherever it stands there: nodes, calls as often as
they occur, overriding in both directions, and counts. -/
structure Within (g g' : Graph) : Prop where
  identities : ∀ i ∈ g.identities, i ∈ g'.identities
  calls : ∀ i j, g.callsBetween i j ≤ g'.callsBetween i j
  overrides : ∀ i j, g.Linked .overrides i j → g'.Linked .overrides i j
  overriddenBy : ∀ i j, g.Linked .overriddenBy i j → g'.Linked .overriddenBy i j
  stats : g.stats.Within g'.stats

section

variable {u : SourceUnit} {o o' : Options} (h : o.Widens u o')

include h

theorem mem_identities_widens {i : Identity} (hi : i ∈ (build o u).identities) :
    i ∈ (build o' u).identities := by
  rw [mem_identities_build] at hi ⊢
  refine hi.imp_right ?_
  rintro ⟨d, hd, hres⟩
  exact ⟨d, SourceUnit.mem_met_iff.mpr (h.met (SourceUnit.mem_met_iff.mp hd)), hres⟩

theorem callsBetween_widens_decl (a b : DeclId) :
    (build o u).callsBetween (.decl a) (.decl b) ≤ (build o' u).callsBetween (.decl a) (.decl b) := by
  have hnarrow := callsBetween_build_follow o u o.functionPointers a b
  have hwide := callsBetween_build_follow o' u o'.functionPointers a b
  rw [hnarrow, hwide, h.functionPointers]
  refine Nat.add_le_add ?_ ?_
  · refine countP_le_of_sublist h.sublist_sites fun x _ hx => ?_
    rw [decide_eq_true_eq] at hx ⊢
    exact ⟨hx.1, h.runsInto hx.2⟩
  · split
    · refine countP_le_of_sublist h.sublist_passings fun x _ hx => ?_
      rw [decide_eq_true_eq] at hx ⊢
      exact h.passesInto hx
    · exact Nat.le_refl 0

theorem callsBetween_widens (i j : Identity) :
    (build o u).callsBetween i j ≤ (build o' u).callsBetween i j := by
  cases j with
  | root =>
      rw [(build_valid o u).callsBetween_root]
      exact Nat.zero_le _
  | decl b =>
      cases i with
      | decl a => exact callsBetween_widens_decl h a b
      | root =>
          -- The root calls a node once, so the count says whether there is one.
          rw [callsBetween_root_build, callsBetween_root_build, (build_valid o u).identities_nodup.count,
            (build_valid o' u).identities_nodup.count]
          split
          · next hb => rw [if_pos (mem_identities_widens h hb)]
          · exact Nat.zero_le _

theorem linked_widens {kind : EdgeKind} {i j : Identity} (hk : kind ≠ .call)
    (hlinked : (build o u).Linked kind i j) : (build o' u).Linked kind i j := by
  obtain ⟨ho, id, d, m, hd, hm, hincl, hends⟩ := (linked_build hk).mp hlinked
  exact (linked_build hk).mpr
    ⟨h.linkOverrides.trans ho, id, d, m, h.overrides hd, hm, h.includesIn hincl, hends⟩

end

/-- **Leaving out less only adds.** If the options differ in the prefix of inline helpers only, and
nothing of the unit is left out that was not before, the graph holds all that it held before, as often
or more often. That is so if the prefix is dropped or made longer. -/
theorem build_within (u : SourceUnit) (o o' : Options) :
    (o.Widens u o' → (build o u).Within (build o' u))
    ∧ ∀ p q : String, q = "" ∨ p ≠ "" ∧ p.toList <+: q.toList →
      (build { o with inlinePrefix := p } u).Within (build { o with inlinePrefix := q } u) := by
  have hwithin : ∀ o o' : Options, o.Widens u o' → (build o u).Within (build o' u) := by
    intro o o' h
    refine ⟨fun i => mem_identities_widens h, callsBetween_widens h, fun i j => ?_, fun i j => ?_, ?_⟩
    · exact linked_widens h (by simp)
    · exact linked_widens h (by simp)
    · rw [build_stats, build_stats]
      exact h.counted (u.counted_sweepStats o) (u.counted_sweepStats o')
  refine ⟨hwithin o o', fun p q hpq => ?_⟩
  exact hwithin _ _ (Options.widens_of_longer u o hpq)

/-- An inline helper that calls a function, and the function, which calls nothing. -/
def inlineHelper : SourceUnit where
  name := "inline.c"
  decls := #[
    { Decl.ofName .function "__inline_copy" with id := 0, body := some (.directCall 1 []) },
    { Decl.ofName .function "move" with id := 1 }]
  topLevel := [0, 1]

/-- Without a prefix the helper is no longer left out, and its body is gone through. -/
theorem within_inlineHelper :
    Options.Widens inlineHelper {} { inlinePrefix := "" }
    ∧ (build {} inlineHelper).Within (build { inlinePrefix := "" } inlineHelper)
    ∧ (build {} inlineHelper).stats.bodiesWalked = 0
    ∧ (build { inlinePrefix := "" } inlineHelper).stats.bodiesWalked = 1 := by
  have hwidens : Options.Widens inlineHelper {} { inlinePrefix := "" } := ⟨rfl, rfl, by decide⟩
  have hwalk : inlineHelper.walk = [0, 1] := by cbv
  have hcopy : inlineHelper.childLinks.preorder [0] = [0] := by cbv
  have hmove : inlineHelper.childLinks.preorder [1] = [1] := by cbv
  have hleft : ([0, 1] : List DeclId).filter (inlineHelper.isSwept {}) = [1] := by decide
  have hall : ([0, 1] : List DeclId).filter (inlineHelper.isSwept { inlinePrefix := "" }) = [0, 1] := by
    decide
  refine ⟨hwidens, (build_within inlineHelper {} { inlinePrefix := "" }).1 hwidens, ?_, ?_⟩
  · rw [SourceUnit.bodiesWalked_build]
    simp only [SourceUnit.walkedBodies, SourceUnit.sweep, SourceUnit.blocksIn, hwalk, hleft,
      List.flatMap_cons, hmove]
    decide
  · rw [SourceUnit.bodiesWalked_build]
    simp only [SourceUnit.walkedBodies, SourceUnit.sweep, SourceUnit.blocksIn, hwalk, hall,
      List.flatMap_cons, hcopy, hmove]
    decide

end Graph

end CallGraph
