import CallGraph.Proofs.CallEdges

/-!
# The nodes of a unit's graph

A declaration is met while the graph of a unit is built (`Met`) if its body is gone through, if a
statement of such a body runs it, if it is a function whose address goes to another function, or if a
method of the unit overrides it; the last two only if the options say so. The nodes are the root and
those of the declarations met (`mem_identities_build`, `mem_met_iff`).

Each way asks whether the declaration may become a node, so all declarations met may
(`Met.includesIn`). The node stands for the canonical declaration of the one that was asked about,
unless it is a method chosen at run time, and the canonical one is not asked about again. So a
declaration that is left out can have a node after all, and it is said below when none has.
-/

namespace CallGraph

namespace SourceUnit

/-- The declaration is a virtual method of the unit that may become a node. -/
def Overrides (u : SourceUnit) (o : Options) (id : DeclId) (d : Decl) : Prop :=
  u.Visited id ∧ u.decl? id = some d ∧ d.kind ∈ [.method, .destructor, .objCMethod]
    ∧ d.isVirtual = true ∧ o.includes d = true

/-- The declaration gets a node while the graph of the unit is built. -/
inductive Met (u : SourceUnit) (o : Options) : DeclId → Prop where
  | walked {id : DeclId} (hid : u.Walked o id) : Met u o id
  | run {w d : DeclId} {s : Stmt} (hw : u.Walked o w) (hs : s ∈ u.statements w)
      (hd : u.Runs s d) (hincl : o.includesIn u d = true) : Met u o d
  | passed {w : DeclId} {s arg : Stmt} {c : Call} (ho : o.functionPointers = true)
      (hw : u.Walked o w) (hs : s ∈ u.statements w) (harg : arg ∈ s.args)
      (hc : u.Passes o (s, arg) c) : Met u o c.callee
  | overridden {id m : DeclId} {d : Decl} (ho : o.linkOverrides = true) (hid : u.Overrides o id d)
      (hm : m ∈ d.overridden) (hincl : o.includesIn u m = true) : Met u o m

variable {u : SourceUnit} {o : Options}

/-! ## Inclusion -/

theorem Sweeps.includesIn {id : DeclId} (hid : u.Sweeps o id) : o.includesIn u id = true := by
  obtain ⟨-, d, hd, hincl, -⟩ := hid
  exact includesIn_iff.mpr ⟨d, hd, hincl⟩

theorem Walked.includesIn {id : DeclId} (hid : u.Walked o id) : o.includesIn u id = true := by
  rcases hid with hid | ⟨⟨d, hd, -, hincl⟩, -⟩
  · exact hid.includesIn
  · exact includesIn_iff.mpr ⟨d, hd, hincl⟩

/-- Whatever is met may become a node. -/
theorem Met.includesIn {d : DeclId} (hd : u.Met o d) : o.includesIn u d = true := by
  cases hd with
  | walked hid => exact hid.includesIn
  | run _ _ _ hincl => exact hincl
  | passed _ _ _ _ hc =>
      obtain ⟨_, _, _, hf⟩ := hc
      exact hf.2
  | overridden _ _ _ hincl => exact hincl

/-! ## What is met in one body -/

theorem mem_callsAt_iff {w : DeclId} {s : Stmt} {c : Call} :
    c ∈ u.callsAt o w s
      ↔ (c.caller = w ∧ u.Runs s c.callee ∧ o.includesIn u c.callee = true)
        ∨ (o.functionPointers = true ∧ ∃ arg ∈ s.args, u.Passes o (s, arg) c) := by
  have hrun : c ∈ ((u.runs? s).filter (o.includesIn u)).toList.map (Call.mk w)
      ↔ c.caller = w ∧ u.Runs s c.callee ∧ o.includesIn u c.callee = true := by
    simp only [List.mem_map, Option.mem_toList, Option.filter_eq_some_iff, runs?_eq_some_iff]
    constructor
    · rintro ⟨d, ⟨hd, hincl⟩, rfl⟩
      exact ⟨rfl, hd, hincl⟩
    · rintro ⟨rfl, hd, hincl⟩
      exact ⟨c.callee, ⟨hd, hincl⟩, rfl⟩
  have hpass : c ∈ u.pointerCallsAt o s
      ↔ o.functionPointers = true ∧ ∃ arg ∈ s.args, u.Passes o (s, arg) c := by
    rw [pointerCallsAt_eq]
    split <;> simp [*, passed?_eq_some_iff]
  rw [callsAt, List.mem_append, hrun, hpass]

/-- Both ends of a call of a body are met: the caller is the declaration that has the body, or a
function that the body calls. -/
theorem met_of_mem_callsOf {w : DeclId} {c : Call} (hw : u.Walked o w) (hc : c ∈ u.callsOf o w) :
    u.Met o c.caller ∧ u.Met o c.callee := by
  obtain ⟨s, hs, hc⟩ := List.mem_flatMap.mp hc
  rcases mem_callsAt_iff.mp hc with ⟨rfl, hd, hincl⟩ | ⟨ho, arg, harg, hpass⟩
  · exact ⟨Met.walked hw, Met.run hw hs hd hincl⟩
  · refine ⟨?_, Met.passed ho hw hs harg hpass⟩
    obtain ⟨target, args, hcallee, -⟩ := hpass
    exact Met.run hw hs (Runs.function _ target args) hcallee.2

theorem mem_metIn_iff {w d : DeclId} :
    d ∈ u.metIn o w ↔ d = w ∨ ∃ c ∈ u.callsOf o w, d = c.caller ∨ d = c.callee := by
  simp [metIn]

theorem callee_mem_metIn {w : DeclId} {s : Stmt} {c : Call} (hs : s ∈ u.statements w)
    (hc : c ∈ u.callsAt o w s) : c.callee ∈ u.metIn o w :=
  mem_metIn_iff.mpr (Or.inr ⟨c, List.mem_flatMap.mpr ⟨s, hs, hc⟩, Or.inr rfl⟩)

/-! ## What is met in linking methods -/

theorem isOverrider_iff {id : DeclId} (hid : u.Visited id) :
    u.isOverrider o id = true ↔ ∃ d, u.Overrides o id d := by
  unfold isOverrider Overrides Options.includesIn
  cases hd : u.decl? id with
  | none => simp
  | some d =>
      simp only [Option.any_some, Bool.and_eq_true, hid, Option.some.injEq, true_and,
        exists_eq_left', and_assoc]
      refine and_congr_left fun _ => ?_
      cases d.kind <;> decide

theorem Overrides.sweeps {id : DeclId} {d : Decl} (hid : u.Overrides o id d) : u.Sweeps o id := by
  obtain ⟨hvisited, hd, hkind, -, hincl⟩ := hid
  refine ⟨hvisited, d, hd, hincl, ?_⟩
  revert hkind
  cases d.kind <;> decide

theorem mem_overriddenOf_iff {id m : DeclId} {d : Decl} (hid : u.Overrides o id d) :
    m ∈ u.overriddenOf o id ↔ m ∈ d.overridden ∧ o.includesIn u m = true := by
  rw [overriddenOf, if_pos ((isOverrider_iff hid.1).mpr ⟨d, hid⟩), hid.2.1]
  simp

/-- Linking meets the methods that override others, and those that they override. -/
theorem mem_linkedBy_iff {id m : DeclId} (hid : u.Visited id) :
    m ∈ u.linkedBy o id
      ↔ ∃ d, u.Overrides o id d ∧ (m = id ∨ m ∈ d.overridden ∧ o.includesIn u m = true) := by
  unfold linkedBy
  constructor
  · intro hm
    split at hm
    · next hover =>
        obtain ⟨d, hd⟩ := (isOverrider_iff hid).mp hover
        rw [List.mem_cons, mem_overriddenOf_iff hd] at hm
        exact ⟨d, hd, hm⟩
    · cases hm
  · rintro ⟨d, hd, hm⟩
    rw [if_pos ((isOverrider_iff hid).mpr ⟨d, hd⟩), List.mem_cons, mem_overriddenOf_iff hd]
    exact hm

/-! ## All that is met -/

theorem mem_met_iff {d : DeclId} : d ∈ u.met o ↔ u.Met o d := by
  rw [met, List.mem_append, List.mem_flatMap]
  constructor
  · rintro (⟨w, hw, hd⟩ | hd)
    · have hw := mem_sweep_iff.mp hw
      rcases mem_metIn_iff.mp hd with rfl | ⟨c, hc, rfl | rfl⟩
      · exact Met.walked hw
      · exact (met_of_mem_callsOf hw hc).1
      · exact (met_of_mem_callsOf hw hc).2
    · split at hd
      · next ho =>
          obtain ⟨id, hid, hd⟩ := List.mem_flatMap.mp hd
          obtain ⟨e, he, rfl | ⟨hm, hincl⟩⟩ := (mem_linkedBy_iff (mem_walk_iff.mp hid)).mp hd
          · exact Met.walked (Or.inl he.sweeps)
          · exact Met.overridden ho he hm hincl
      · cases hd
  · intro hd
    cases hd with
    | walked hid => exact Or.inl ⟨d, mem_sweep_iff.mpr hid, mem_metIn_iff.mpr (Or.inl rfl)⟩
    | @run w _ s hw hs hd hincl =>
        have hc : Call.mk w d ∈ u.callsAt o w s := mem_callsAt_iff.mpr (Or.inl ⟨rfl, hd, hincl⟩)
        exact Or.inl ⟨w, mem_sweep_iff.mpr hw, callee_mem_metIn hs hc⟩
    | @passed w s arg c ho hw hs harg hpass =>
        have hc : c ∈ u.callsAt o w s := mem_callsAt_iff.mpr (Or.inr ⟨ho, arg, harg, hpass⟩)
        exact Or.inl ⟨w, mem_sweep_iff.mpr hw, callee_mem_metIn hs hc⟩
    | @overridden id _ e ho hid hm hincl =>
        rw [if_pos ho]
        exact Or.inr (List.mem_flatMap.mpr
          ⟨id, mem_walk_iff.mpr hid.1, (mem_linkedBy_iff hid.1).mpr ⟨e, hid, Or.inr ⟨hm, hincl⟩⟩⟩)

theorem met_of_mem_topLevel {d : DeclId} (htop : d ∈ u.topLevel) (hd : u.isSwept o d = true) :
    u.Met o d := by
  have hvisited : u.Visited d := ⟨d, htop, Relation.ReflTransGen.refl⟩
  exact Met.walked (Or.inl ⟨hvisited, isSwept_iff.mp hd⟩)

/-! ## Which declaration a node stands for -/

variable (u) in
/-- The declaration is a method that is chosen at run time. -/
def Dispatched (d : DeclId) : Prop :=
  ∃ e, u.decl? d = some e
    ∧ (e.kind = .objCMethod ∨ (e.kind = .method ∨ e.kind = .destructor) ∧ e.isVirtual = true)

theorem isDispatched_iff {d : DeclId} : u.isDispatched d = true ↔ u.Dispatched d := by
  rw [isDispatched, Option.any_eq_true, Dispatched]
  refine exists_congr fun e => and_congr_right fun _ => ?_
  cases hkind : e.kind <;> simp [Decl.isDynamicallyDispatched, hkind]

instance (d : DeclId) : Decidable (u.Dispatched d) :=
  decidable_of_iff _ isDispatched_iff

theorem resolve_eq_decl_iff {d c : DeclId} :
    u.resolve (some d) = .decl c ↔ if u.Dispatched d then d = c else u.canonical d = c := by
  simp only [resolve, isDispatched_iff]
  by_cases hd : u.Dispatched d <;> simp [hd]

end SourceUnit

namespace Graph

open SourceUnit

/-- **The nodes of a unit's graph** are the root and one for each identity of a declaration met. What
is met is said by what the walk of the unit visits and by the statements at all paths of bodies. -/
theorem mem_identities_build_iff_met (o : Options) (u : SourceUnit) :
    (∀ id, id ∈ u.walk ↔ u.Visited id)
    ∧ (∀ w s, s ∈ u.statements w ↔ ∃ path, u.at? w path = some s)
    ∧ ∀ i, (i ∈ (build o u).identities ↔ i = .root ∨ ∃ d, u.Met o d ∧ u.resolve (some d) = i)
      ∧ (i ∈ (build o u).identities ↔ ∃! n, (build o u).identity? n = some i) := by
  refine ⟨fun id => mem_walk_iff, fun w s => mem_statements_iff, fun i => ⟨?_, ?_⟩⟩
  · simp only [mem_identities_build, mem_met_iff]
  · exact (build_valid o u).mem_identities_iff_existsUnique

/-- **When no declaration that is left out has a node.** Every declaration met may become a node, but
its node stands for the canonical one. So all nodes are of declarations that may become nodes exactly
if the canonical declaration of each one met may, apart from methods chosen at run time. -/
theorem includesIn_of_mem_identities_iff (o : Options) (u : SourceUnit) :
    (∀ d, u.Met o d → o.includesIn u d = true)
    ∧ ((∀ c, Identity.decl c ∈ (build o u).identities → o.includesIn u c = true)
      ↔ ∀ d, u.Met o d → ¬ u.Dispatched d → o.includesIn u (u.canonical d) = true) := by
  refine ⟨fun d hd => hd.includesIn, ?_⟩
  simp only [mem_identities_build, mem_met_iff, reduceCtorEq, false_or]
  constructor
  · intro hall d hd hstatic
    exact hall _ ⟨d, hd, resolve_eq_decl_iff.mpr (by simp [hstatic])⟩
  · rintro hall c ⟨d, hd, hc⟩
    have hc := resolve_eq_decl_iff.mp hc
    split at hc
    · rw [← hc]
      exact hd.includesIn
    · next hstatic =>
        rw [← hc]
        exact hall d hd hstatic

/-- Two functions that may become nodes, each declared again: first where a template parameter is not
yet known, and first under the name of an inline helper. -/
def redeclared : SourceUnit where
  name := "redeclared.c"
  decls := #[
    { Decl.ofName .function "f" with id := 0, isDependent := true },
    { Decl.ofName .function "f" with id := 1, canonical := some 0 },
    { Decl.ofName .function "__inline_g" with id := 2 },
    { Decl.ofName .function "g" with id := 3, canonical := some 2 }]
  topLevel := [0, 1, 2, 3]

/-- In a valid unit declarations that are left out have nodes, because they are the canonical ones of
declarations that are not left out. -/
theorem identities_redeclared :
    redeclared.error? = none
    ∧ Options.includesIn {} redeclared 0 = false
    ∧ Options.includesIn {} redeclared 2 = false
    ∧ Identity.decl 0 ∈ (build {} redeclared).identities
    ∧ Identity.decl 2 ∈ (build {} redeclared).identities := by
  have hf : redeclared.resolve (some 1) = .decl 0 := by cbv
  have hg : redeclared.resolve (some 3) = .decl 2 := by cbv
  have hmetf : redeclared.Met {} 1 := met_of_mem_topLevel (by decide) (by decide)
  have hmetg : redeclared.Met {} 3 := met_of_mem_topLevel (by decide) (by decide)
  refine ⟨by decide, by decide, by decide, ?_, ?_⟩
  · exact mem_identities_build.mpr (Or.inr ⟨1, mem_met_iff.mpr hmetf, hf⟩)
  · exact mem_identities_build.mpr (Or.inr ⟨3, mem_met_iff.mpr hmetg, hg⟩)

end Graph

end CallGraph
