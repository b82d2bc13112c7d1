import CallGraph.Proofs.OneUnit
import Mathlib.Algebra.BigOperators.Group.List.Basic
import Mathlib.Algebra.GroupWithZero.Nat

/-!
# What is counted

A body is counted once each time it is gone through, and so is every place in it that the counts are
about: a statement at some depth, or an argument of a call. Which places these are is told by
relations on statements: `Calls` and `Sends` are the two halves of `Runs`, and `Passes` is about
arguments. A count of a unit is then the number of places of one sort in all its bodies (`Counted`).

Not every place makes an edge: a call counts even if nothing is known of what it runs, and a message
that leads to a method counts even if the method may not become a node. The edges have an account of
their own. A call between nodes is made by the root or it is not; the root makes one for each other
node, and those that it does not make are the calls of the bodies, of which each statement makes one
for what it runs, if that may become a node, and one for each function that it passes
(`length_callsAt`).
-/

namespace CallGraph

/-! ## Sorts of places -/

namespace Stmt

/-- The statement is a call, whatever is known of what it calls. -/
def IsCall (s : Stmt) : Prop :=
  ∃ callee target args, s = .call callee target args

/-- The statement calls a block literal where it stands, perhaps under parentheses and implicit
casts. -/
def CallsBlock (s : Stmt) (b : DeclId) : Prop :=
  ∃ target args, s = .call none target args ∧ target.Wraps (.blockLiteral b)

/-- The statement calls the declaration: the function that it is bound to or, if there is none, the
block literal that it calls where it stands. -/
def Calls (s : Stmt) (d : DeclId) : Prop :=
  (∃ target args, s = .call (some d) target args) ∨ s.CallsBlock d

theorem isCall_iff {s : Stmt} : s.isCall = true ↔ s.IsCall := by
  constructor
  · intro hs
    cases s with
    | call callee target args => exact ⟨callee, target, args, rfl⟩
    | _ => cases hs
  · rintro ⟨callee, target, args, rfl⟩
    rfl

instance (s : Stmt) : Decidable s.IsCall :=
  decidable_of_iff _ isCall_iff

theorem callee?_eq_some_iff {s : Stmt} {d : DeclId} : s.callee? = some d ↔ s.Calls d := by
  constructor
  · intro hs
    unfold callee? at hs
    split at hs
    · next target args =>
        obtain rfl := Option.some.inj hs
        exact Or.inl ⟨target, args, rfl⟩
    · exact Or.inr (SourceUnit.calledBlock?_eq_some_iff.mp hs)
  · rintro (⟨target, args, rfl⟩ | ⟨target, args, rfl, hblock⟩)
    · rfl
    · exact SourceUnit.calledBlock?_eq_some_iff.mpr ⟨target, args, rfl, hblock⟩

end Stmt

namespace SourceUnit

/-- The statement is a message that leads to the method. -/
def Sends (u : SourceUnit) (s : Stmt) (m : DeclId) : Prop :=
  ∃ interface selector toInstance receiver args,
    s = .messageSend (some interface) selector toInstance receiver args
      ∧ u.lookup? interface selector toInstance = some m

variable {u : SourceUnit} {o : Options}

theorem sentTo?_eq_some_iff {s : Stmt} {m : DeclId} : u.sentTo? s = some m ↔ u.Sends s m := by
  constructor
  · intro hs
    unfold sentTo? at hs
    split at hs
    · exact ⟨_, _, _, _, _, rfl, hs⟩
    · cases hs
  · rintro ⟨interface, selector, toInstance, receiver, args, rfl, hm⟩
    exact hm

/-- Whether there is anything of a sort can be asked if it can be looked for. -/
@[reducible] def decidableExists {α : Type} {P : α → Prop} (found : Option α)
    (h : ∀ a, found = some a ↔ P a) : Decidable (∃ a, P a) :=
  decidable_of_iff (found.isSome = true) (Option.isSome_iff_exists.trans (exists_congr h))

instance (s : Stmt) : Decidable (∃ b, s.CallsBlock b) :=
  decidableExists s.calledBlock? fun _ => calledBlock?_eq_some_iff

instance (s : Stmt) : Decidable (∃ m, u.Sends s m) :=
  decidableExists (u.sentTo? s) fun _ => sentTo?_eq_some_iff

instance (x : Stmt × Stmt) : Decidable (∃ c, u.Passes o x c) :=
  decidableExists (u.passed? o x) fun _ => passed?_eq_some_iff

instance (s : Stmt) : Decidable (∃ d, s.Calls d ∧ o.includesIn u d = true) :=
  decidableExists (s.callee?.filter (o.includesIn u)) fun _ => by
    rw [Option.filter_eq_some_iff, Stmt.callee?_eq_some_iff]

instance (s : Stmt) : Decidable (∃ m, u.Sends s m ∧ o.includesIn u m = true) :=
  decidableExists ((u.sentTo? s).filter (o.includesIn u)) fun _ => by
    rw [Option.filter_eq_some_iff, sentTo?_eq_some_iff]

variable (u o) in
/-- The counts are the numbers of places of each sort in the bodies of a unit. -/
structure Counted (s : Stats) : Prop where
  bodiesWalked : s.bodiesWalked = (u.sweep o).countP (u.HasBody ·)
  callSites : s.callSites = (u.sites o).countP fun x => x.2.IsCall
  blockCalls : s.blockCalls = (u.sites o).countP fun x => ∃ b, x.2.CallsBlock b
  messageCalls : s.messageCalls = (u.sites o).countP fun x : DeclId × Stmt => ∃ m, u.Sends x.2 m
  /-- Arguments count only if the options say so. -/
  pointerCalls : s.pointerCalls = if o.functionPointers then
    (u.passings o).countP (fun x => ∃ c, u.Passes o x c) else 0

end SourceUnit

/-! ## All bodies -/

namespace Stats

/-- A counter of several bodies together is the sum of theirs. -/
theorem counter_foldl (count : Stats → Nat) (hadd : ∀ a b, count (a + b) = count a + count b)
    (l : List Stats) (s : Stats) : count (l.foldl (· + ·) s) = count s + (l.map count).sum := by
  induction l generalizing s with
  | nil => rfl
  | cons a l ih => rw [List.foldl_cons, ih, hadd, List.map_cons, List.sum_cons, Nat.add_assoc]

end Stats

namespace SourceUnit

variable {u : SourceUnit} {o : Options}

theorem counter_sweepStats (count : Stats → Nat)
    (hadd : ∀ a b, count (a + b) = count a + count b) (hzero : count {} = 0) :
    count (u.sweepStats o) = ((u.sweep o).map fun w => count (u.statsOf o w)).sum := by
  rw [sweepStats, Stats.sum, Stats.counter_foldl count hadd, hzero, Nat.zero_add, List.map_map]
  rfl

/-- If a counter is about the statements of one body, it is about those of all bodies together. -/
theorem counter_sweepStats_eq_countP (count : Stats → Nat) {p : Stmt → Bool}
    (hadd : ∀ a b, count (a + b) = count a + count b) (hzero : count {} = 0)
    (hbody : ∀ w, count (u.statsOf o w) = (u.statements w).countP p) :
    count (u.sweepStats o) = (u.sites o).countP fun x => p x.2 := by
  rw [counter_sweepStats count hadd hzero, sites, List.countP_flatMap]
  refine congrArg List.sum (List.map_congr_left fun w _ => ?_)
  rw [hbody, Function.comp_apply, List.countP_map]
  rfl

/-- What is counted in one body; without a body there are no statements. -/
theorem statsOf_eq (w : DeclId) : u.statsOf o w =
    { bodiesWalked := if u.hasBody w then 1 else 0
      callSites := (u.statements w).countP Stmt.isCall
      blockCalls := (u.statements w).countP fun s => s.calledBlock?.isSome
      messageCalls := (u.statements w).countP fun s => (u.sentTo? s).isSome
      pointerCalls := ((u.statements w).flatMap (u.pointerCallsAt o)).length } := by
  unfold statsOf hasBody statements
  cases (u.decl? w).bind Decl.body with
  | none => rfl
  | some body => rfl

theorem length_pointerCallsAt (s : Stmt) :
    (u.pointerCallsAt o s).length = if o.functionPointers then
      (s.args.map (s, ·)).countP (fun x => ∃ c, u.Passes o x c) else 0 := by
  rw [pointerCallsAt_eq]
  split
  · rw [List.length_filterMap_eq_countP, List.countP_map]
    refine List.countP_congr fun arg _ => ?_
    rw [Function.comp_apply, decide_eq_true_eq, Option.isSome_iff_exists]
    exact exists_congr fun c => passed?_eq_some_iff
  · rfl

theorem length_flatMap_pointerCallsAt (xs : List (DeclId × Stmt)) :
    (xs.flatMap fun x => u.pointerCallsAt o x.2).length = if o.functionPointers then
      (xs.flatMap fun x => x.2.args.map (x.2, ·)).countP (fun x => ∃ c, u.Passes o x c) else 0 := by
  simp only [List.length_flatMap, length_pointerCallsAt, List.countP_flatMap]
  split
  · rfl
  · simp

theorem pointerCalls_sweepStats :
    (u.sweepStats o).pointerCalls = ((u.sites o).flatMap fun x => u.pointerCallsAt o x.2).length := by
  rw [counter_sweepStats Stats.pointerCalls (fun _ _ => rfl) rfl, sites,
    List.flatMap_assoc, List.length_flatMap]
  refine congrArg List.sum (List.map_congr_left fun w _ => ?_)
  rw [statsOf_eq, List.flatMap_map]

/-- **The counts of a unit.** -/
theorem counted_sweepStats (u : SourceUnit) (o : Options) : u.Counted o (u.sweepStats o) where
  bodiesWalked := by
    rw [sweepStats, Stats.sum, bodiesWalked_foldl, List.countP_eq_length_filter]
    exact Nat.zero_add _
  callSites := by
    rw [counter_sweepStats_eq_countP Stats.callSites (fun _ _ => rfl) rfl
      fun w => by rw [statsOf_eq]]
    refine List.countP_congr fun x _ => ?_
    rw [decide_eq_true_eq, Stmt.isCall_iff]
  blockCalls := by
    rw [counter_sweepStats_eq_countP Stats.blockCalls (fun _ _ => rfl) rfl
      fun w => by rw [statsOf_eq]]
    refine List.countP_congr fun x _ => ?_
    rw [decide_eq_true_eq, Option.isSome_iff_exists]
    exact exists_congr fun b => calledBlock?_eq_some_iff
  messageCalls := by
    rw [counter_sweepStats_eq_countP Stats.messageCalls (fun _ _ => rfl) rfl
      fun w => by rw [statsOf_eq]]
    refine List.countP_congr fun x _ => ?_
    rw [decide_eq_true_eq, Option.isSome_iff_exists]
    exact exists_congr fun m => sentTo?_eq_some_iff
  pointerCalls := by
    rw [pointerCalls_sweepStats, length_flatMap_pointerCallsAt, passings]

/-! ## Edges -/

theorem length_toList {α : Type} {P : α → Prop} [Decidable (∃ a, P a)] {found : Option α}
    (h : ∀ a, found = some a ↔ P a) : found.toList.length = if ∃ a, P a then 1 else 0 := by
  cases found with
  | none =>
      refine (if_neg ?_).symm
      rintro ⟨a, ha⟩
      cases (h a).mpr ha
  | some a => exact (if_pos ⟨a, (h a).mp rfl⟩).symm

/-- A statement does not both call something and send a message. -/
theorem length_filter_runs? (p : DeclId → Bool) (s : Stmt) :
    ((u.runs? s).filter p).toList.length
      = (s.callee?.filter p).toList.length + ((u.sentTo? s).filter p).toList.length := by
  have hone : s.callee? = none ∨ u.sentTo? s = none := by
    cases s <;> simp [sentTo?, Stmt.callee?, Stmt.calledBlock?]
  rcases hone with hcall | hsent
  · simp [runs?, hcall]
  · simp [runs?, hsent]

/-- A statement makes one call for what it runs, if that may become a node, and one for each function
that it passes. -/
theorem length_callsAt (w : DeclId) (s : Stmt) :
    (u.callsAt o w s).length
      = (if ∃ d, s.Calls d ∧ o.includesIn u d = true then 1 else 0)
        + (if ∃ m, u.Sends s m ∧ o.includesIn u m = true then 1 else 0)
        + (u.pointerCallsAt o s).length := by
  have hcalls : ∀ d, s.callee?.filter (o.includesIn u) = some d
      ↔ s.Calls d ∧ o.includesIn u d = true := fun d => by
    rw [Option.filter_eq_some_iff, Stmt.callee?_eq_some_iff]
  have hsends : ∀ m, (u.sentTo? s).filter (o.includesIn u) = some m
      ↔ u.Sends s m ∧ o.includesIn u m = true := fun m => by
    rw [Option.filter_eq_some_iff, sentTo?_eq_some_iff]
  rw [callsAt, List.length_append, List.length_map, length_filter_runs?, length_toList hcalls,
    length_toList hsends]

theorem length_flatMap_callsAt (xs : List (DeclId × Stmt)) :
    (xs.flatMap fun x => u.callsAt o x.1 x.2).length
      = xs.countP (fun x => ∃ d, x.2.Calls d ∧ o.includesIn u d = true)
        + xs.countP (fun x : DeclId × Stmt => ∃ m, u.Sends x.2 m ∧ o.includesIn u m = true)
        + (xs.flatMap fun x => u.pointerCallsAt o x.2).length := by
  induction xs with
  | nil => rfl
  | cons x xs ih =>
      rw [List.flatMap_cons, List.length_append, length_callsAt, ih, List.countP_cons,
        List.countP_cons, List.flatMap_cons, List.length_append]
      simp only [decide_eq_true_eq]
      omega

end SourceUnit

namespace Graph

/-- Every call is made by the root or by a declaration. -/
theorem edgeCount_call (g : Graph) :
    g.edgeCount .call = (g.callees root).length + g.callPairs.length := by
  rw [callees, targets, callPairs, List.length_map, List.length_map, ← List.countP_eq_length_filter,
    ← List.countP_eq_length_filter, edgeCount, List.countP_eq_countP_filter_add _ _
      (fun e : Edge => decide (e.source = root))]
  simp only [List.countP_filter]
  congr 2 <;> funext e <;> simp

/-- The calls of a unit's graph: one of every node by the root, and what the statements of the bodies
make. -/
theorem edgeCount_call_build (o : Options) (u : SourceUnit) :
    (build o u).edgeCount .call = ((build o u).nodes.size - 1)
      + (u.sites o).countP (fun x => ∃ d, x.2.Calls d ∧ o.includesIn u d = true)
      + (u.sites o).countP (fun x : DeclId × Stmt => ∃ m, u.Sends x.2 m ∧ o.includesIn u m = true)
      + (build o u).stats.pointerCalls := by
  rw [edgeCount_call, callees_root_build, List.length_range', callPairs_build, List.length_map,
    SourceUnit.flatMap_callsOf, SourceUnit.length_flatMap_callsAt, build_stats,
    SourceUnit.pointerCalls_sweepStats]
  omega

/-- **The accounts of a unit.** The bodies of the sweep are put in one after the other, and their
statements are those at all paths. The counts that are given back are the numbers of bodies and of
places in them, a body that is gone through twice being counted twice; they are what the graph that the
unit is put into gains, whatever it has been through before, and all that the unit's own graph has. The
calls of that graph are one of each node by the root, one for each place that calls a function or a
block or sends a message to a method, if that may become a node, and the function pointers counted. -/
theorem counted_addUnit (o : Options) (u : SourceUnit) :
    (∀ w, Stmt.Lists (u.at? w) (u.statements w))
    ∧ (∀ g : Graph,
      (g.addUnit u).1 = (u.sweep g.options).foldl (fun g w => (g.addDecl u w).1) g
      ∧ u.Counted g.options (g.addUnit u).2
      ∧ (g.addUnit u).1.stats = g.stats + (g.addUnit u).2)
    ∧ (build o u).stats = ((ofOptions o).addUnit u).2
    ∧ (build o u).edgeCount .call = ((build o u).nodes.size - 1)
      + (u.sites o).countP (fun x => ∃ d, x.2.Calls d ∧ o.includesIn u d = true)
      + (u.sites o).countP (fun x : DeclId × Stmt => ∃ m, u.Sends x.2 m ∧ o.includesIn u m = true)
      + (build o u).stats.pointerCalls := by
  refine ⟨u.lists_statements, fun g => ⟨addDecls_fst g u _, ?_, addDecls_stats g u _⟩, ?_,
    edgeCount_call_build o u⟩
  · rw [addUnit_snd]
    exact u.counted_sweepStats g.options
  · rw [build_stats, addUnit_snd]
    rfl

end Graph

end CallGraph
