import CallGraph.Proofs.Contents
import CallGraph.Proofs.Traversal
import CallGraph.SourceUnit.Validation
import Mathlib.Data.Finset.Card
import Mathlib.Data.List.Pairwise

/-!
# The bodies of a unit, and how often each is gone through

Which bodies are gone through is said here by the way declarations lie in each other, without the
traversals that find them: the functions and methods of the unit that may become nodes (`Sweeps`),
and the blocks that may and lie inside one of those, at any depth (`IsBlock`, `Inside`). The walk of
the unit and the search for the blocks of one function each visit a declaration once
(`walk_nodup`, `blocksIn_nodup`).

Together they do not. A function can lie inside another one, as a method of a local record does, and
a block in the inner one is found from both. So a body is gone through once exactly if no block with
a body lies inside two of the functions and methods (`bodiesWalked_eq_card_iff`).
-/

namespace CallGraph

namespace SourceUnit

variable (u : SourceUnit) (o : Options)

/-! ## What lies inside what -/

/-- One declaration lies directly inside the other. -/
def Holds (a b : DeclId) : Prop :=
  ∃ d, u.decl? a = some d ∧ b ∈ d.children

/-- One declaration is the other or lies inside it, at any depth. -/
def Inside : DeclId → DeclId → Prop :=
  Relation.ReflTransGen u.Holds

/-- The declaration is at the top of the unit or lies inside one that is. -/
def Visited (id : DeclId) : Prop :=
  ∃ r ∈ u.topLevel, u.Inside r id

/-- A block of the unit that may become a node. -/
def IsBlock (b : DeclId) : Prop :=
  ∃ d, u.decl? b = some d ∧ d.kind = .block ∧ o.includes d

/-- A function or method of the unit that may become a node. -/
def Sweeps (id : DeclId) : Prop :=
  u.Visited id ∧ ∃ d, u.decl? id = some d ∧ o.includes d ∧
    d.kind ∈ [.function, .method, .constructor, .destructor, .objCMethod]

/-- The body of the declaration is gone through, if it has one: it is a function or method, or a
block inside one. -/
def Walked (id : DeclId) : Prop :=
  u.Sweeps o id ∨ u.IsBlock o id ∧ ∃ i, u.Sweeps o i ∧ u.Inside i id

variable {u o}

theorem link_links_iff {targets : Decl → List DeclId} {a b : DeclId} :
    (u.links targets).Link a b ↔ ∃ d, u.decl? a = some d ∧ b ∈ targets d := by
  simp only [Links.Link, links]
  cases u.decl? a <;> simp

theorem link_childLinks_iff {a b : DeclId} : u.childLinks.Link a b ↔ u.Holds a b :=
  link_links_iff

theorem reaches_childLinks : u.childLinks.Reaches = u.Inside := by
  unfold Links.Reaches Inside
  congr
  funext a b
  exact propext link_childLinks_iff

theorem mem_walk_iff {id : DeclId} : id ∈ u.walk ↔ u.Visited id := by
  rw [walk, Links.mem_preorder_iff, reaches_childLinks, Visited]

theorem walk_nodup : u.walk.Nodup :=
  u.childLinks.preorder_nodup u.topLevel

theorem includesIn_iff {id : DeclId} :
    o.includesIn u id = true ↔ ∃ d, u.decl? id = some d ∧ o.includes d := by
  rw [Options.includesIn, Option.any_eq_true]

/-! ## Blocks -/

theorem isBlock_iff {b : DeclId} : u.isBlock o b = true ↔ u.IsBlock o b := by
  unfold isBlock IsBlock
  rw [Bool.and_eq_true, includesIn_iff, Option.any_eq_true]
  constructor
  · rintro ⟨⟨d, hd, hk⟩, d', hd', hincl⟩
    obtain rfl := Option.some.inj (hd.symm.trans hd')
    exact ⟨d, hd, of_decide_eq_true hk, hincl⟩
  · rintro ⟨d, hd, hk, hincl⟩
    exact ⟨⟨d, hd, decide_eq_true hk⟩, d, hd, hincl⟩

theorem mem_blocksIn_iff {id b : DeclId} :
    b ∈ u.blocksIn o id ↔ u.Inside id b ∧ u.IsBlock o b := by
  rw [blocksIn, List.mem_filter, Links.mem_preorder_singleton_iff, reaches_childLinks, isBlock_iff]

theorem blocksIn_nodup (id : DeclId) : (u.blocksIn o id).Nodup :=
  (u.childLinks.preorder_nodup [id]).filter _

/-! ## Functions and methods -/

theorem isSwept_iff {id : DeclId} :
    u.isSwept o id = true ↔ ∃ d, u.decl? id = some d ∧ o.includes d ∧
      d.kind ∈ [DeclKind.function, .method, .constructor, .destructor, .objCMethod] := by
  unfold isSwept Options.includesIn
  cases hd : u.decl? id with
  | none => simp
  | some d =>
      simp only [Option.any_some, Bool.and_eq_true, Option.some.injEq, exists_eq_left']
      rw [and_comm]
      refine and_congr_right fun _ => ?_
      cases d.kind <;> decide

theorem mem_filter_isSwept_iff {id : DeclId} :
    id ∈ u.walk.filter (u.isSwept o) ↔ u.Sweeps o id := by
  rw [List.mem_filter, mem_walk_iff, isSwept_iff, Sweeps]

/-- In a unit without blocks only functions and methods are gone through. -/
theorem sweep_eq_filter_walk (h : ∀ d ∈ u.decls.toList, d.kind ≠ .block) :
    u.sweep o = u.walk.filter (u.isSwept o) := by
  have hblocks : ∀ id, u.blocksIn o id = [] := by
    intro id
    refine List.filter_eq_nil_iff.mpr fun b _ hb => ?_
    obtain ⟨d, hd, hkind, -⟩ := isBlock_iff.mp hb
    exact h d (Array.mem_toList_iff.mpr (Array.mem_of_getElem? hd)) hkind
  simp only [sweep, hblocks, List.nil_append, List.flatMap_singleton']

theorem Sweeps.not_isBlock {id : DeclId} (hid : u.Sweeps o id) : ¬ u.IsBlock o id := by
  rintro ⟨d, hd, hblock, -⟩
  obtain ⟨-, d', hd', -, hkind⟩ := hid
  obtain rfl := Option.some.inj (hd.symm.trans hd')
  rw [hblock] at hkind
  exact absurd hkind (by decide)

/-- The sweep finds the bodies that are gone through. -/
theorem mem_sweep_iff {id : DeclId} : id ∈ u.sweep o ↔ u.Walked o id := by
  unfold sweep Walked
  simp only [List.mem_flatMap, mem_filter_isSwept_iff, List.mem_append, List.mem_singleton,
    mem_blocksIn_iff]
  constructor
  · rintro ⟨i, hi, ⟨hin, hb⟩ | rfl⟩
    · exact Or.inr ⟨hb, i, hi, hin⟩
    · exact Or.inl hi
  · rintro (hid | ⟨hb, i, hi, hin⟩)
    · exact ⟨id, hid, Or.inr rfl⟩
    · exact ⟨i, hi, Or.inl ⟨hin, hb⟩⟩

/-! ## How often a body is gone through -/

variable (u) in
/-- The declaration has a body. -/
def HasBody (id : DeclId) : Prop :=
  ∃ d body, u.decl? id = some d ∧ d.body = some body

theorem hasBody_iff {id : DeclId} : u.hasBody id = true ↔ u.HasBody id := by
  simp [hasBody, HasBody, Option.isSome_iff_exists, Option.bind_eq_some_iff, exists_comm]

instance (id : DeclId) : Decidable (u.HasBody id) :=
  decidable_of_iff _ hasBody_iff

variable (u o)

/-- The declarations whose bodies are gone through, each as often as that happens. -/
def walkedBodies : List DeclId :=
  (u.sweep o).filter (u.HasBody ·)

/-- No block with a body lies inside two of the functions and methods. -/
def BlocksLieOnce : Prop :=
  ∀ b, u.IsBlock o b → u.HasBody b → ∀ i j, u.Sweeps o i → u.Sweeps o j →
    u.Inside i b → u.Inside j b → i = j

variable {u o}

theorem mem_walkedBodies_iff {id : DeclId} :
    id ∈ u.walkedBodies o ↔ u.HasBody id ∧ u.Walked o id := by
  rw [walkedBodies, List.mem_filter, mem_sweep_iff, decide_eq_true_iff, and_comm]

/-- What is gone through for one function or method has no repetition: it is itself no block. -/
theorem nodup_blocksIn_append {id : DeclId} (hid : u.Sweeps o id) :
    (u.blocksIn o id ++ [id]).Nodup := by
  refine List.nodup_append.mpr ⟨blocksIn_nodup id, by simp, ?_⟩
  rintro b hb i hi rfl
  obtain rfl := List.mem_singleton.mp hi
  exact hid.not_isBlock (mem_blocksIn_iff.mp hb).2

/-- Two functions or methods have a body in common exactly if it is that of a block inside both. -/
theorem disjoint_bodies_iff {i j : DeclId} (hi : u.Sweeps o i) (hj : u.Sweeps o j) (hij : i ≠ j) :
    List.Disjoint ((u.blocksIn o i ++ [i]).filter (u.HasBody ·))
        ((u.blocksIn o j ++ [j]).filter (u.HasBody ·))
      ↔ ∀ b, u.IsBlock o b → u.HasBody b → u.Inside i b → ¬ u.Inside j b := by
  simp only [List.Disjoint, List.mem_filter, List.mem_append, List.mem_singleton,
    mem_blocksIn_iff, decide_eq_true_eq]
  constructor
  · intro hdis b hb hbody hib hjb
    exact hdis ⟨Or.inl ⟨hib, hb⟩, hbody⟩ ⟨Or.inl ⟨hjb, hb⟩, hbody⟩
  · rintro hnone b ⟨⟨hib, hb⟩ | rfl, hbody⟩ ⟨⟨hjb, hb'⟩ | rfl, -⟩
    · exact hnone b hb hbody hib hjb
    · exact hj.not_isBlock hb
    · exact hi.not_isBlock hb'
    · exact hij rfl

theorem nodup_walkedBodies_iff : (u.walkedBodies o).Nodup ↔ u.BlocksLieOnce o := by
  have hswept : (u.walk.filter (u.isSwept o)).Nodup := walk_nodup.filter _
  have hparts : ∀ id ∈ u.walk.filter (u.isSwept o),
      ((u.blocksIn o id ++ [id]).filter (u.HasBody ·)).Nodup := fun id hid =>
    (nodup_blocksIn_append (mem_filter_isSwept_iff.mp hid)).filter _
  rw [walkedBodies, sweep, List.filter_flatMap, List.nodup_flatMap, and_iff_right hparts]
  -- No part repeats anything, so what is left is that the parts of two functions have no body in
  -- common.
  constructor
  · intro hdis b hb hbody i j hi hj hib hjb
    by_contra hij
    have hsymm : Std.Symm (Function.onFun List.Disjoint
        fun id => (u.blocksIn o id ++ [id]).filter (u.HasBody ·)) := ⟨fun _ _ h => h.symm⟩
    have hpair := hdis.forall (mem_filter_isSwept_iff.mpr hi) (mem_filter_isSwept_iff.mpr hj) hij
    exact (disjoint_bodies_iff hi hj hij).mp hpair b hb hbody hib hjb
  · intro honce
    refine hswept.pairwise_of_forall_ne fun i hi j hj hij => ?_
    have hi := mem_filter_isSwept_iff.mp hi
    have hj := mem_filter_isSwept_iff.mp hj
    exact (disjoint_bodies_iff hi hj hij).mpr fun b hb hbody hib hjb =>
      hij (honce b hb hbody i j hi hj hib hjb)

theorem bodiesWalked_foldl (ids : List DeclId) (s : Stats) :
    ((ids.map (u.statsOf o)).foldl (· + ·) s).bodiesWalked
      = s.bodiesWalked + (ids.filter (u.HasBody ·)).length := by
  induction ids generalizing s with
  | nil => rfl
  | cons id ids ih =>
      have hone : (u.statsOf o id).bodiesWalked = if u.HasBody id then 1 else 0 := by
        simp only [← hasBody_iff, statsOf]
        cases u.hasBody id <;> rfl
      have hadd : (s + u.statsOf o id).bodiesWalked
          = s.bodiesWalked + (u.statsOf o id).bodiesWalked := rfl
      rw [List.map_cons, List.foldl_cons, ih, hadd, hone, List.filter_cons]
      by_cases hbody : u.HasBody id
      · simp only [hbody, decide_true, if_true, List.length_cons]
        omega
      · simp only [hbody, decide_false, Bool.false_eq_true, if_false, Nat.add_zero]

/-- The count of bodies of a unit's graph. -/
theorem bodiesWalked_build : (Graph.build o u).stats.bodiesWalked = (u.walkedBodies o).length := by
  rw [Graph.build_stats, sweepStats, Stats.sum, bodiesWalked_foldl, walkedBodies]
  exact Nat.zero_add _

end SourceUnit

namespace Graph

/-- **When no body is gone through twice.** Each body is gone through at most once, and the count of
bodies is that of distinct ones, exactly if no block with a body lies inside two functions or methods
of the unit; the bodies are those of the functions and methods and of the blocks inside them. -/
theorem bodiesWalked_eq_card_iff (o : Options) (u : SourceUnit) :
    (∀ id, id ∈ (u.walkedBodies o).toFinset ↔ u.HasBody id ∧ u.Walked o id)
    ∧ ((∀ id, (u.walkedBodies o).count id ≤ 1) ↔ u.BlocksLieOnce o)
    ∧ ((build o u).stats.bodiesWalked = (u.walkedBodies o).toFinset.card
      ↔ u.BlocksLieOnce o) := by
  have hnodup := SourceUnit.nodup_walkedBodies_iff (u := u) (o := o)
  refine ⟨fun id => ?_, ?_, ?_⟩
  · rw [List.mem_toFinset, SourceUnit.mem_walkedBodies_iff]
  · rw [← List.nodup_iff_count_le_one, hnodup]
  · rw [SourceUnit.bodiesWalked_build, ← hnodup, eq_comm]
    exact Multiset.toFinset_card_eq_card_iff_nodup.trans Multiset.coe_nodup

/-- A function `f` with a local record, in whose method a block calls `f`. -/
def localRecord : SourceUnit where
  name := "local.c"
  decls := #[
    { Decl.ofName .function "f" with id := 0, children := [1] },
    { Decl.ofName .record "R" with id := 1, children := [2] },
    { Decl.ofName .method "m" with id := 2, children := [3] },
    { Decl.ofKind .block with id := 3, body := some (.directCall 0 []) }]
  topLevel := [0]

/-- In a valid unit a block of a local record's method is gone through twice, and its one call makes
two edges. -/
theorem bodiesWalked_localRecord :
    localRecord.error? = none
    ∧ (localRecord.walkedBodies {}).toFinset.card = 1
    ∧ (build {} localRecord).stats.bodiesWalked = 2
    ∧ (localRecord.statements 3).countP Stmt.isCall = 1
    ∧ (build {} localRecord).callPairs.count (some (.decl 3), some (.decl 0)) = 2 := by
  have hwalk : localRecord.walk = [0, 1, 2, 3] := by cbv
  have houter : localRecord.childLinks.preorder [0] = [0, 1, 2, 3] := hwalk
  have hinner : localRecord.childLinks.preorder [2] = [2, 3] := by cbv
  have hswept : ([0, 1, 2, 3] : List DeclId).filter (localRecord.isSwept {}) = [0, 2] := by decide
  have hsweep : localRecord.sweep {} = [3, 0, 3, 2] := by
    simp only [SourceUnit.sweep, SourceUnit.blocksIn, hwalk, hswept, List.flatMap_cons, houter,
      hinner]
    decide
  have hbodies : localRecord.walkedBodies {} = [3, 3] := by
    rw [SourceUnit.walkedBodies, hsweep]
    decide
  have hf : localRecord.resolve (some 0) = .decl 0 := by cbv
  have hb : localRecord.resolve (some 3) = .decl 3 := by cbv
  refine ⟨by decide, ?_, ?_, by decide, ?_⟩
  · rw [hbodies]
    decide
  · rw [SourceUnit.bodiesWalked_build, hbodies]
    rfl
  · have hcalls : ([3, 0, 3, 2] : List DeclId).flatMap (localRecord.callsOf {})
        = [⟨3, 0⟩, ⟨3, 0⟩] := by decide
    rw [callPairs_build, hsweep, hcalls]
    simp [SourceUnit.ends, hf, hb]

end Graph

end CallGraph
