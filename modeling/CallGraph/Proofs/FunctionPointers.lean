import CallGraph.Proofs.Counts
import CallGraph.Proofs.Overrides
import Mathlib.Algebra.BigOperators.Group.Finset.Piecewise
import Mathlib.Data.FinEnum
import Mathlib.Data.Fintype.Prod

/-!
# Following function pointers

If the options say so, a function is taken to call the functions whose addresses are passed to it. The
nodes of those functions are made when the address is come across, in the midst of a body, so that with
and without the option the nodes stand at different places and other nodes may own the keys. But which
bodies are gone through, what their statements run, which addresses they pass and which methods override
which does not depend on the option. So the two graphs can be compared through what each of them is made
of, identity by identity: one has calls for the addresses passed and the other has none.
-/

namespace CallGraph

namespace SourceUnit

variable {u : SourceUnit} {o : Options}

/-- Which calls an argument makes, if they are followed, does not depend on whether they are. -/
theorem passes_follow_iff {b : Bool} {x : Stmt × Stmt} {c : Call} :
    u.Passes { o with functionPointers := b } x c ↔ u.Passes o x c := by
  rw [← passed?_eq_some_iff, ← passed?_eq_some_iff]
  rfl

/-! ## Nodes -/

theorem mem_passings_iff {x : Stmt × Stmt} :
    x ∈ u.passings o ↔ ∃ w, u.Walked o w ∧ x.1 ∈ u.statements w ∧ x.2 ∈ x.1.args := by
  obtain ⟨s, arg⟩ := x
  simp only [passings, sites, List.mem_flatMap, List.mem_map, mem_sweep_iff, Prod.mk.injEq]
  constructor
  · rintro ⟨_, ⟨w, hw, _, hs, rfl⟩, _, harg, rfl, rfl⟩
    exact ⟨w, hw, hs, harg⟩
  · rintro ⟨w, hw, hs, harg⟩
    exact ⟨(w, s), ⟨w, hw, s, hs, rfl⟩, arg, harg, rfl, rfl⟩

/-- Without function pointers, what is met is met with them. -/
theorem Met.follow {d : DeclId} (hd : u.Met { o with functionPointers := false } d) :
    u.Met { o with functionPointers := true } d := by
  cases hd with
  | walked hid => exact Met.walked hid
  | run hw hs hrun hincl => exact Met.run hw hs hrun hincl
  | passed ho => cases ho
  | overridden ho hid hm hincl => exact Met.overridden ho hid hm hincl

/-- With function pointers, the functions whose addresses are passed are met besides. -/
theorem met_follow_iff {d : DeclId} :
    u.Met { o with functionPointers := true } d
      ↔ u.Met { o with functionPointers := false } d
        ∨ ∃ x ∈ u.passings o, ∃ c, u.Passes o x c ∧ c.callee = d := by
  constructor
  · intro hd
    cases hd with
    | walked hid => exact Or.inl (Met.walked hid)
    | run hw hs hrun hincl => exact Or.inl (Met.run hw hs hrun hincl)
    | @passed w s arg c _ hw hs harg hc =>
        exact Or.inr ⟨(s, arg), mem_passings_iff.mpr ⟨w, hw, hs, harg⟩, c, passes_follow_iff.mp hc,
          rfl⟩
    | overridden ho hid hm hincl => exact Or.inl (Met.overridden ho hid hm hincl)
  · rintro (hd | ⟨⟨s, arg⟩, hx, c, hc, rfl⟩)
    · exact hd.follow
    · obtain ⟨w, hw, hs, harg⟩ := mem_passings_iff.mp hx
      exact Met.passed rfl hw hs harg (passes_follow_iff.mpr hc)

/-! ## Calls -/

/-- An argument makes one call at most, so it is between one pair of declarations. -/
theorem sum_passesInto (x : Stmt × Stmt) :
    (∑ p : DeclId × DeclId, if u.PassesInto o x (.decl p.1) (.decl p.2) then 1 else 0)
      = if ∃ c, u.Passes o x c then 1 else 0 := by
  by_cases hx : ∃ c, u.Passes o x c
  · obtain ⟨c, hc⟩ := hx
    obtain ⟨a, ha⟩ := u.exists_resolve_eq c.caller
    obtain ⟨b, hb⟩ := u.exists_resolve_eq c.callee
    have hinto : ∀ p : DeclId × DeclId, u.PassesInto o x (.decl p.1) (.decl p.2) ↔ (a, b) = p := by
      rintro ⟨a', b'⟩
      rw [passesInto_iff, passed?_eq_some_iff.mpr hc]
      simp [ends, ha, hb]
    simp only [hinto, Finset.sum_ite_eq, Finset.mem_univ, if_true]
    exact (if_pos ⟨c, hc⟩).symm
  · rw [if_neg hx]
    refine Finset.sum_eq_zero fun p _ => if_neg ?_
    rintro ⟨c, hc, -⟩
    exact hx ⟨c, hc⟩

/-- The calls that arguments make, pair by pair, are all that they make. -/
theorem sum_countP_passesInto (xs : List (Stmt × Stmt)) :
    (∑ p : DeclId × DeclId, xs.countP (u.PassesInto o · (.decl p.1) (.decl p.2)))
      = xs.countP (fun x => ∃ c, u.Passes o x c) := by
  induction xs with
  | nil => simp
  | cons x xs ih =>
      simp only [List.countP_cons, decide_eq_true_eq, Finset.sum_add_distrib]
      rw [ih, sum_passesInto]

/-! ## Counts -/

/-- Only the count of function pointers depends on whether they are followed. -/
theorem Counted.follow {s s' : Stats} (hs : u.Counted { o with functionPointers := true } s)
    (hs' : u.Counted { o with functionPointers := false } s') :
    s' = { s with pointerCalls := 0 } := by
  have hbodies : s'.bodiesWalked = s.bodiesWalked := hs'.bodiesWalked.trans hs.bodiesWalked.symm
  have hsites : s'.callSites = s.callSites := hs'.callSites.trans hs.callSites.symm
  have hblocks : s'.blockCalls = s.blockCalls := hs'.blockCalls.trans hs.blockCalls.symm
  have hsends : s'.messageCalls = s.messageCalls := hs'.messageCalls.trans hs.messageCalls.symm
  have hpointers : s'.pointerCalls = 0 := hs'.pointerCalls
  cases s'
  simp_all

end SourceUnit

namespace Graph

open SourceUnit

theorem mem_identities_follow_iff {o : Options} {u : SourceUnit} {i : Identity} :
    i ∈ (build { o with functionPointers := true } u).identities
      ↔ i ∈ (build { o with functionPointers := false } u).identities
        ∨ ∃ x ∈ u.passings o, ∃ c, u.Passes o x c ∧ u.resolve (some c.callee) = i := by
  simp only [mem_identities_build, mem_met_iff, met_follow_iff]
  constructor
  · rintro (hroot | ⟨d, hd | ⟨x, hx, c, hc, rfl⟩, hi⟩)
    · exact Or.inl (Or.inl hroot)
    · exact Or.inl (Or.inr ⟨d, hd, hi⟩)
    · exact Or.inr ⟨x, hx, c, hc, hi⟩
  · rintro ((hroot | ⟨d, hd, hi⟩) | ⟨x, hx, c, hc, hi⟩)
    · exact Or.inl hroot
    · exact Or.inr ⟨d, Or.inl hd, hi⟩
    · exact Or.inr ⟨c.callee, Or.inr ⟨x, hx, c, hc, rfl⟩, hi⟩

/-- Between two declarations there are the calls that statements run, whether or not function pointers
are followed, and those that arguments make, if they are. -/
theorem callsBetween_build_follow (o : Options) (u : SourceUnit) (follow : Bool) (a b : DeclId) :
    (build { o with functionPointers := follow } u).callsBetween (.decl a) (.decl b)
      = (u.sites o).countP (fun x => u.resolve (some x.1) = .decl a ∧ u.RunsInto o x.2 (.decl b))
        + if follow then (u.passings o).countP (u.PassesInto o · (.decl a) (.decl b)) else 0 := by
  rw [callsBetween_eq_count (build_valid _ u), callPairs_build, flatMap_callsOf,
    count_flatMap_callsAt]
  refine congrArg₂ (· + ·) rfl (if_congr Iff.rfl (List.countP_congr fun x _ => ?_) rfl)
  rw [decide_eq_true_eq, decide_eq_true_eq]
  exact exists_congr fun c => and_congr_left fun _ => passes_follow_iff

theorem callsBetween_follow (o : Options) (u : SourceUnit) (a b : DeclId) :
    (build { o with functionPointers := true } u).callsBetween (.decl a) (.decl b)
      = (build { o with functionPointers := false } u).callsBetween (.decl a) (.decl b)
        + (u.passings o).countP (u.PassesInto o · (.decl a) (.decl b)) := by
  rw [callsBetween_build_follow, callsBetween_build_follow]
  rfl

theorem pointerCalls_follow (o : Options) (u : SourceUnit) :
    (build { o with functionPointers := true } u).stats.pointerCalls
      = (u.passings o).countP (fun x => ∃ c, u.Passes o x c) := by
  rw [build_stats, (counted_sweepStats u _).pointerCalls, if_pos rfl]
  refine List.countP_congr fun x _ => ?_
  rw [decide_eq_true_eq, decide_eq_true_eq]
  exact exists_congr fun c => passes_follow_iff

/-- Methods are linked alike, whether or not function pointers are followed. -/
theorem linked_follow_iff {o : Options} {u : SourceUnit} {kind : EdgeKind} {i j : Identity}
    (hk : kind ≠ .call) :
    (build { o with functionPointers := true } u).Linked kind i j
      ↔ (build { o with functionPointers := false } u).Linked kind i j := by
  rw [linked_build hk, linked_build hk]
  rfl

/-- **Following function pointers** adds what comes of the addresses passed and changes nothing else.
The nodes are those of the graph without them and those of the functions passed. Between any two
declarations the calls besides are as many as there are arguments that pass the one to the other, and
all of them together are the function pointers counted. Methods override the same methods, and the
other counts are the same. -/
theorem build_follow (o : Options) (u : SourceUnit) :
    let on := build { o with functionPointers := true } u
    let off := build { o with functionPointers := false } u
    (∀ i, i ∈ on.identities ↔ i ∈ off.identities
      ∨ ∃ x ∈ u.passings o, ∃ c, u.Passes o x c ∧ u.resolve (some c.callee) = i)
    ∧ (∀ a b : DeclId, on.callsBetween (.decl a) (.decl b)
      = off.callsBetween (.decl a) (.decl b)
        + (u.passings o).countP (u.PassesInto o · (.decl a) (.decl b)))
    ∧ (∑ p : DeclId × DeclId, (on.callsBetween (.decl p.1) (.decl p.2)
      - off.callsBetween (.decl p.1) (.decl p.2))) = on.stats.pointerCalls
    ∧ (∀ i j, (on.Linked .overrides i j ↔ off.Linked .overrides i j)
      ∧ (on.Linked .overriddenBy i j ↔ off.Linked .overriddenBy i j))
    ∧ off.stats = { on.stats with pointerCalls := 0 } := by
  intro on off
  refine ⟨fun i => mem_identities_follow_iff, callsBetween_follow o u, ?_, fun i j => ⟨?_, ?_⟩, ?_⟩
  · rw [pointerCalls_follow, ← sum_countP_passesInto]
    refine Finset.sum_congr rfl fun p _ => ?_
    rw [callsBetween_follow, Nat.add_sub_cancel_left]
  · exact linked_follow_iff (by simp)
  · exact linked_follow_iff (by simp)
  · rw [build_stats, build_stats]
    exact Counted.follow (counted_sweepStats u _) (counted_sweepStats u _)

end Graph

end CallGraph
