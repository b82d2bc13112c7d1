import CallGraph.Proofs.Statements
import CallGraph.Proofs.Sweep

/-!
# The calls of a unit's graph

Between the nodes of two declarations there are as many calls as the bodies gone through have places
for them. A place is a statement of a body, at any depth, that itself runs a declaration (`Runs`):
a call of the function that it is bound to, a call of a block literal where it stands, a message that
leads to a method. The caller is then the declaration whose body it is. If the options say so, an
argument that is the address of a function is a place too (`Passes`), and the caller is then the
function that the argument goes to.

Both kinds are told by relations on statements. `runs?` and `pointerCallsAt` find them; one statement
makes as many calls as it has places (`count_callsAt`), and the graph of a unit puts those of its
bodies one after the other (`callPairs_build`).
-/

namespace CallGraph

/-! ## Places -/

namespace Stmt

/-- The function that a call is bound to. -/
def boundTo? : Stmt → Option DeclId
  | .call callee _ _ => callee
  | _ => none

def args : Stmt → List Stmt
  | .call _ _ args => args
  | _ => []

end Stmt

namespace SourceUnit

/-- The statement itself runs the declaration. -/
inductive Runs (u : SourceUnit) : Stmt → DeclId → Prop where
  | function (callee : DeclId) (target : Stmt) (args : List Stmt) :
      Runs u (.call (some callee) target args) callee
  | block {target : Stmt} {block : DeclId} (args : List Stmt)
      (hblock : target.Wraps (.blockLiteral block)) :
      Runs u (.call none target args) block
  | method {interface method : DeclId} {selector : String} {toInstance : Bool}
      (receiver : Option Stmt) (args : List Stmt)
      (hmethod : u.lookup? interface selector toInstance = some method) :
      Runs u (.messageSend (some interface) selector toInstance receiver args) method

/-- The function is bound when the program is built, and it may become a node. -/
def Bound (u : SourceUnit) (o : Options) (f : DeclId) : Prop :=
  u.isFunction f = true ∧ o.includesIn u f = true

/-- The call passes, as this argument, the address of one function to another, which is taken to call
it. -/
inductive Passes (u : SourceUnit) (o : Options) : Stmt × Stmt → Call → Prop where
  | address {callee f : DeclId} (target : Stmt) (args : List Stmt) (hcallee : u.Bound o callee)
      (hf : u.Bound o f) :
      Passes u o (.call (some callee) target args, .addrOf (.declRef f)) ⟨callee, f⟩

variable (u : SourceUnit) (o : Options)

instance (f : DeclId) : Decidable (u.Bound o f) :=
  inferInstanceAs (Decidable (_ ∧ _))

/-- The call that an argument makes. -/
def passed? (x : Stmt × Stmt) : Option Call :=
  x.1.boundTo?.bind fun a => x.2.address?.bind fun f =>
    if u.Bound o a ∧ u.Bound o f then some ⟨a, f⟩ else none

/-- The statement runs a declaration that may become a node and has this identity. -/
def RunsInto (s : Stmt) (i : Identity) : Prop :=
  ∃ d, u.Runs s d ∧ o.includesIn u d = true ∧ u.resolve (some d) = i

/-- The argument makes a call between functions with these identities. -/
def PassesInto (x : Stmt × Stmt) (i j : Identity) : Prop :=
  ∃ c, u.Passes o x c ∧ u.resolve (some c.caller) = i ∧ u.resolve (some c.callee) = j

/-- The statements of the bodies gone through, at any depth, each with the declaration whose body it
is in. -/
def sites : List (DeclId × Stmt) :=
  (u.sweep o).flatMap fun w => (u.statements w).map (w, ·)

/-- The arguments of the calls in the bodies gone through, each with its call. -/
def passings : List (Stmt × Stmt) :=
  (u.sites o).flatMap fun x => x.2.args.map (x.2, ·)

variable {u o}

theorem calledBlock?_eq_some_iff {s : Stmt} {b : DeclId} :
    s.calledBlock? = some b
      ↔ ∃ target args, s = .call none target args ∧ target.Wraps (.blockLiteral b) := by
  constructor
  · intro hs
    unfold Stmt.calledBlock? at hs
    split at hs
    · next target args =>
        split at hs
        · next b' hb' =>
            obtain rfl := Option.some.inj hs
            exact ⟨target, args, rfl, Stmt.stripped_eq_blockLiteral_iff.mp hb'⟩
        · cases hs
    · cases hs
  · rintro ⟨target, args, rfl, hb⟩
    simp [Stmt.calledBlock?, Stmt.stripped_eq_blockLiteral_iff.mpr hb]

/-- `runs?` finds what a statement itself runs. -/
theorem runs?_eq_some_iff {s : Stmt} {d : DeclId} : u.runs? s = some d ↔ u.Runs s d := by
  constructor
  · intro hs
    rcases Option.or_eq_some_iff.mp hs with hcallee | ⟨-, hsent⟩
    · unfold Stmt.callee? at hcallee
      split at hcallee
      · obtain rfl := Option.some.inj hcallee
        exact Runs.function _ _ _
      · obtain ⟨target, args, rfl, hblock⟩ := calledBlock?_eq_some_iff.mp hcallee
        exact Runs.block args hblock
    · unfold sentTo? at hsent
      split at hsent
      · exact Runs.method _ _ hsent
      · cases hsent
  · rintro (_ | ⟨args, hblock⟩ | ⟨receiver, args, hmethod⟩)
    · rfl
    · have hcalled := calledBlock?_eq_some_iff.mpr ⟨_, args, rfl, hblock⟩
      simp [runs?, Stmt.callee?, hcalled]
    · simpa [runs?, Stmt.callee?, Stmt.calledBlock?, sentTo?] using hmethod

theorem runsInto_iff {s : Stmt} {i : Identity} :
    u.RunsInto o s i
      ↔ ((u.runs? s).any fun d => o.includesIn u d && u.resolve (some d) = i) = true := by
  simp only [RunsInto, ← runs?_eq_some_iff, Option.any_eq_true, Bool.and_eq_true,
    decide_eq_true_eq]

instance (s : Stmt) (i : Identity) : Decidable (u.RunsInto o s i) :=
  decidable_of_iff _ runsInto_iff.symm

theorem address?_eq_some_iff {s : Stmt} {f : DeclId} :
    s.address? = some f ↔ s = .addrOf (.declRef f) := by
  constructor
  · intro hs
    unfold Stmt.address? at hs
    split at hs
    · rw [Option.some.inj hs]
    · cases hs
  · rintro rfl
    rfl

theorem boundTo?_eq_some_iff {s : Stmt} {a : DeclId} :
    s.boundTo? = some a ↔ ∃ target args, s = .call (some a) target args := by
  constructor
  · intro hs
    unfold Stmt.boundTo? at hs
    split at hs
    · next callee target args => exact ⟨target, args, by rw [hs]⟩
    · cases hs
  · rintro ⟨target, args, rfl⟩
    rfl

/-- `passed?` finds the call that an argument makes. -/
theorem passed?_eq_some_iff {x : Stmt × Stmt} {c : Call} :
    u.passed? o x = some c ↔ u.Passes o x c := by
  unfold passed?
  simp only [Option.bind_eq_some_iff, Option.ite_none_right_eq_some, Option.some.injEq]
  constructor
  · obtain ⟨s, arg⟩ := x
    rintro ⟨a, hs, f, harg, ⟨ha, hf⟩, rfl⟩
    obtain ⟨target, args, rfl⟩ := boundTo?_eq_some_iff.mp hs
    obtain rfl := address?_eq_some_iff.mp harg
    exact Passes.address target args ha hf
  · rintro ⟨target, args, ha, hf⟩
    exact ⟨_, rfl, _, rfl, ⟨ha, hf⟩, rfl⟩

theorem passesInto_iff {x : Stmt × Stmt} {i j : Identity} :
    u.PassesInto o x i j
      ↔ ((u.passed? o x).any fun c => u.ends c = (some i, some j)) = true := by
  simp only [PassesInto, ← passed?_eq_some_iff, Option.any_eq_true, decide_eq_true_eq, ends,
    Prod.mk.injEq, Option.some.injEq]

instance (x : Stmt × Stmt) (i j : Identity) : Decidable (u.PassesInto o x i j) :=
  decidable_of_iff _ passesInto_iff.symm

/-- Only a function that may become a node is taken to call what is passed to it. -/
theorem filterMap_passed?_eq_nil {s : Stmt} (hs : ∀ a, s.boundTo? = some a → ¬ u.Bound o a)
    (args : List Stmt) : (args.filterMap fun arg => u.passed? o (s, arg)) = [] := by
  refine List.filterMap_eq_nil_iff.mpr fun arg _ => ?_
  refine Option.eq_none_iff_forall_ne_some.mpr fun c hc => ?_
  obtain ⟨target, args, ha, -⟩ := passed?_eq_some_iff.mp hc
  exact hs _ rfl ha

/-- The calls that a statement makes by its arguments are those that they make one by one. -/
theorem pointerCallsAt_eq (s : Stmt) :
    u.pointerCallsAt o s
      = if o.functionPointers then s.args.filterMap fun arg => u.passed? o (s, arg) else [] := by
  unfold pointerCallsAt
  split
  · next a target args =>
      rw [List.filterMap_filterMap, Bool.and_assoc]
      -- Whether the callee may be taken to call anything is asked once before all arguments there,
      -- and at each argument here.
      by_cases ha : u.Bound o a
      · rw [ha.1, ha.2, Bool.and_self, Bool.and_true]
        refine if_congr Iff.rfl (List.filterMap_congr fun arg _ => ?_) rfl
        simp only [passed?, Stmt.boundTo?, Bound, ha.1, ha.2, true_and, Option.bind_some,
          Bool.and_eq_true]
      · rw [filterMap_passed?_eq_nil (by rintro _ ⟨⟩; exact ha), ite_self]
        refine if_neg fun h => ha ?_
        simp only [Bool.and_eq_true] at h
        exact h.2
  · next hcall =>
      rw [filterMap_passed?_eq_nil, ite_self]
      intro a hs
      obtain ⟨target, args, rfl⟩ := boundTo?_eq_some_iff.mp hs
      exact absurd rfl (hcall a target args)

/-! ## One statement -/

theorem count_runs (w : DeclId) (s : Stmt) (i j : Identity) :
    ((((u.runs? s).filter (o.includesIn u)).toList.map (Call.mk w)).map u.ends).count
        (some i, some j)
      = if u.resolve (some w) = i ∧ u.RunsInto o s j then 1 else 0 := by
  simp only [runsInto_iff]
  cases u.runs? s with
  | none => simp
  | some d =>
      by_cases hd : o.includesIn u d <;> simp [Option.filter, hd, ends, List.count_cons]

theorem count_pointerCallsAt (s : Stmt) (i j : Identity) :
    ((u.pointerCallsAt o s).map u.ends).count (some i, some j)
      = if o.functionPointers then (s.args.map (s, ·)).countP (u.PassesInto o · i j) else 0 := by
  rw [pointerCallsAt_eq]
  split
  · rw [List.count_eq_countP, List.countP_map, List.countP_filterMap, List.countP_map]
    refine List.countP_congr fun arg _ => ?_
    rw [Function.comp_apply, decide_eq_true_eq, passesInto_iff]
    cases u.passed? o (s, arg) <;> simp
  · rfl

/-- One statement makes as many calls as it has places for them. -/
theorem count_callsAt (w : DeclId) (s : Stmt) (i j : Identity) :
    ((u.callsAt o w s).map u.ends).count (some i, some j)
      = (if u.resolve (some w) = i ∧ u.RunsInto o s j then 1 else 0)
        + if o.functionPointers then (s.args.map (s, ·)).countP (u.PassesInto o · i j) else 0 := by
  rw [callsAt, List.map_append, List.count_append, count_runs, count_pointerCallsAt]

/-! ## All bodies -/

theorem flatMap_callsOf : (u.sweep o).flatMap (u.callsOf o)
    = (u.sites o).flatMap fun x => u.callsAt o x.1 x.2 := by
  simp only [sites, List.flatMap_assoc, List.flatMap_map]
  rfl

theorem count_flatMap_callsAt (xs : List (DeclId × Stmt)) (i j : Identity) :
    ((xs.flatMap fun x => u.callsAt o x.1 x.2).map u.ends).count (some i, some j)
      = xs.countP (fun x => u.resolve (some x.1) = i ∧ u.RunsInto o x.2 j)
        + if o.functionPointers then
            (xs.flatMap fun x => x.2.args.map (x.2, ·)).countP (u.PassesInto o · i j)
          else 0 := by
  induction xs with
  | nil => simp
  | cons x xs ih =>
      rw [List.flatMap_cons, List.map_append, List.count_append, count_callsAt, ih,
        List.countP_cons, List.flatMap_cons, List.countP_append]
      simp only [decide_eq_true_eq]
      by_cases hp : o.functionPointers = true
      · simp only [if_pos hp]
        omega
      · simp only [if_neg hp]
        omega

end SourceUnit

namespace Graph

/-- The number of calls from the node with one identity to the node with the other. -/
def callsBetween (g : Graph) (i j : Identity) : Nat :=
  g.edges.toList.countP fun e =>
    e.kind = .call ∧ g.identity? e.source = some i ∧ g.identity? e.target = some j

theorem Valid.callsBetween_root {g : Graph} (hg : g.Valid) (i : Identity) :
    g.callsBetween i .root = 0 := by
  refine List.countP_eq_zero.mpr fun e he hcall => ?_
  obtain ⟨hk, -, ht⟩ := of_decide_eq_true hcall
  exact hg.root_uncalled e he hk ((hg.root_iff e.target).mp ht)

/-- Calls by a declaration are calls that the root does not make. -/
theorem callsBetween_eq_count {g : Graph} (hg : g.Valid) (a : DeclId) (j : Identity) :
    g.callsBetween (.decl a) j = g.callPairs.count (some (.decl a), some j) := by
  rw [callsBetween, callPairs, List.count_eq_countP, List.countP_map, List.countP_filter]
  refine List.countP_congr fun e _ => ?_
  have hroot : g.identity? e.source = some (.decl a) → e.source ≠ root := fun h => hg.ne_root h
  simp only [decide_eq_true_eq, Function.comp_apply, Bool.and_eq_true, beq_iff_eq, Prod.mk.injEq]
  constructor
  · rintro ⟨hk, hs, ht⟩
    exact ⟨⟨hs, ht⟩, hk, hroot hs⟩
  · rintro ⟨⟨hs, ht⟩, hk, -⟩
    exact ⟨hk, hs, ht⟩

/-- **The calls of a unit's graph.** The bodies gone through are those of the functions and methods
of the unit that may become nodes, before each of them the blocks inside it, each block once; their
statements are those at all paths. Between two declarations there are as many calls as these bodies
have statements that run the one in a body of the other and, if function pointers are followed,
arguments that pass the one to the other. -/
theorem callsBetween_build (o : Options) (u : SourceUnit) :
    ((u.walk.filter (u.isSwept o)).Nodup
      ∧ ∀ id, id ∈ u.walk.filter (u.isSwept o) ↔ u.Sweeps o id)
    ∧ (∀ id, (u.blocksIn o id).Nodup ∧ ∀ b, b ∈ u.blocksIn o id ↔ u.Inside id b ∧ u.IsBlock o b)
    ∧ u.sweep o = (u.walk.filter (u.isSwept o)).flatMap (fun id => u.blocksIn o id ++ [id])
    ∧ (∀ w, Stmt.Lists (u.at? w) (u.statements w))
    ∧ ∀ a b : DeclId, (build o u).callsBetween (.decl a) (.decl b)
        = (u.sites o).countP
            (fun x => u.resolve (some x.1) = .decl a ∧ u.RunsInto o x.2 (.decl b))
          + if o.functionPointers then
              (u.passings o).countP (u.PassesInto o · (.decl a) (.decl b))
            else 0 := by
  refine ⟨⟨SourceUnit.walk_nodup.filter _, fun id => SourceUnit.mem_filter_isSwept_iff⟩,
    fun id => ⟨SourceUnit.blocksIn_nodup id, fun b => SourceUnit.mem_blocksIn_iff⟩, rfl,
    u.lists_statements, ?_⟩
  intro a b
  rw [callsBetween_eq_count (build_valid o u), callPairs_build, SourceUnit.flatMap_callsOf,
    SourceUnit.count_flatMap_callsAt, SourceUnit.passings]

end Graph

end CallGraph
