import CallGraph.Proofs.Redeclarations
import CallGraph.Proofs.Session

/-!
# Identities and the nodes that carry them

Declarations that are connected have one identity, that of the declaration that stands for them, except
that methods chosen at run time keep their own. The declaration that stands for others may itself be
such a method, and then its own identity is the same one, so resolving an identity again changes nothing
(`resolve_of_resolve_eq`).

In a valid graph the node of a declaration is the one place that carries its identity, so declarations
share nodes exactly as they share identities (`Graph.Valid.sharesNodes`).
-/

namespace CallGraph

namespace SourceUnit

variable {u : SourceUnit}

theorem resolve_of_dispatched {d : DeclId} (h : u.Dispatched d) :
    u.resolve (some d) = .decl d :=
  resolve_eq_decl_iff.mpr (by simp [h])

theorem resolve_of_not_dispatched {d : DeclId} (h : ¬ u.Dispatched d) :
    u.resolve (some d) = .decl (u.canonical d) :=
  resolve_eq_decl_iff.mpr (by simp [h])

/-- The declaration that stands for others has its own identity, be it chosen at run time or not. -/
theorem resolve_canonical (u : SourceUnit) (d : DeclId) :
    u.resolve (some (u.canonical d)) = .decl (u.canonical d) := by
  by_cases h : u.Dispatched (u.canonical d)
  · exact resolve_of_dispatched h
  · rw [resolve_of_not_dispatched h, u.canonical_canonical]

theorem resolve_of_resolve_eq {d c : DeclId} (h : u.resolve (some d) = .decl c) :
    u.resolve (some c) = .decl c := by
  have hc := resolve_eq_decl_iff.mp h
  split at hc
  · rw [← hc] at h ⊢
    exact h
  · rw [← hc]
    exact u.resolve_canonical d

theorem resolve_eq_of_connected {a b : DeclId} (ha : ¬ u.Dispatched a) (hb : ¬ u.Dispatched b)
    (h : Relation.EqvGen u.Redeclares a b) : u.resolve (some a) = u.resolve (some b) := by
  rw [resolve_of_not_dispatched ha, resolve_of_not_dispatched hb, canonical_eq_of_connected h]

end SourceUnit

namespace Graph

/-- Declarations have a node together exactly if they have their identity together. -/
structure SharesNodes (u : SourceUnit) (g : Graph) : Prop where
  /-- The node of a declaration is the one that carries its identity. -/
  node?_iff : ∀ d n, g.node? u d = some n ↔ g.identity? n = some (u.resolve d)
  shared_iff : ∀ d e, (g.node? u d).isSome = true → (g.node? u e).isSome = true →
    (g.node? u d = g.node? u e ↔ u.resolve d = u.resolve e)

theorem Valid.sharesNodes {g : Graph} (hg : g.Valid) (u : SourceUnit) : g.SharesNodes u where
  node?_iff d n := hg.nodeOf?_iff (u.resolve d) n
  shared_iff d e hd he := by
    obtain ⟨n, hn⟩ := Option.isSome_iff_exists.mp hd
    constructor
    · intro heq
      have hdn := (hg.nodeOf?_iff (u.resolve d) n).mp hn
      have hen := (hg.nodeOf?_iff (u.resolve e) n).mp (heq.symm.trans hn)
      exact Option.some.inj (hdn.symm.trans hen)
    · intro heq
      rw [node?, node?, heq]

/-- **Identities decide which declarations share nodes.** Resolving an identity again changes nothing.
Methods chosen at run time keep their own identity, and other declarations that are connected have the
same one, whatever they are connected through. In the graph of a unit and in all graphs of sessions
declarations share their node exactly if they share their identity. -/
theorem resolve_decides_sharing (u : SourceUnit) :
    (∀ d c, u.resolve (some d) = .decl c → u.resolve (some c) = .decl c)
    ∧ (∀ d c, u.Dispatched d → u.resolve (some d) = .decl c → c = d)
    ∧ (∀ a b, ¬ u.Dispatched a → ¬ u.Dispatched b →
      Relation.EqvGen u.Redeclares a b → u.resolve (some a) = u.resolve (some b))
    ∧ ∀ o, (build o u).SharesNodes u ∧ ∀ ops, ((ofOptions o).session ops).SharesNodes u := by
  refine ⟨fun d c => SourceUnit.resolve_of_resolve_eq, fun d c hd hc => ?_,
    fun a b => SourceUnit.resolve_eq_of_connected, fun o => ⟨?_, fun ops => ?_⟩⟩
  · rw [SourceUnit.resolve_of_dispatched hd] at hc
    exact (Identity.decl.inj hc).symm
  · exact (build_valid o u).sharesNodes u
  · exact ((session_moves (valid_ofOptions o) ops).valid (valid_ofOptions o)).sharesNodes u

/-- Three destructors in a circle, the second of them virtual, and a function whose name leads out of
the unit. -/
def crossed : SourceUnit where
  name := "crossed.cpp"
  decls := #[
    { Decl.ofName .destructor "~T" with id := 0, canonical := some 1 },
    { Decl.ofName .destructor "~T" with id := 1, canonical := some 2, isVirtual := true },
    { Decl.ofName .destructor "~T" with id := 2, canonical := some 0 },
    { Decl.ofName .function "f" with id := 3, canonical := some 7 }]
  topLevel := [0, 1, 2, 3]

/-- The first and the last destructor are connected through the virtual one, which keeps its own
node. -/
theorem resolve_crossed :
    crossed.resolve (some 3) = .decl 7 ∧ crossed.resolve (some 7) = .decl 7
    ∧ crossed.Dispatched 1 ∧ crossed.resolve (some 1) = .decl 1
    ∧ ¬ crossed.Dispatched 0 ∧ ¬ crossed.Dispatched 2
    ∧ Relation.EqvGen crossed.Redeclares 0 2
    ∧ crossed.resolve (some 0) = crossed.resolve (some 2)
    ∧ ((build {} crossed).node? crossed (some 2)).isSome = true
    ∧ ((build {} crossed).node? crossed (some 1)).isSome = true
    ∧ (build {} crossed).node? crossed (some 2) ≠ (build {} crossed).node? crossed (some 1) := by
  obtain ⟨hagain, hkept, hconnected, hgraphs⟩ := resolve_decides_sharing crossed
  have hout : crossed.resolve (some 3) = .decl 7 := by cbv
  have hcircle : Relation.EqvGen crossed.Redeclares 0 2 :=
    .trans _ 1 _ (.rel _ _ ⟨_, rfl, rfl⟩) (.rel _ _ ⟨_, rfl, rfl⟩)
  have hvirtual : crossed.Dispatched 1 := by decide
  have hown : crossed.resolve (some 1) = .decl 1 := by
    obtain ⟨c, hc⟩ := crossed.exists_resolve_eq 1
    rw [hc, hkept 1 c hvirtual hc]
  have hlast : crossed.resolve (some 2) = .decl 0 := by cbv
  have hnode : ∀ d ∈ crossed.topLevel, crossed.isSwept {} d = true →
      ((build {} crossed).node? crossed (some d)).isSome = true := by
    intro d hd hswept
    have hmet := SourceUnit.mem_met_iff.mpr (SourceUnit.met_of_mem_topLevel hd hswept)
    obtain ⟨n, hn⟩ := mem_identities_iff.mp (mem_identities_build.mpr (Or.inr ⟨d, hmet, rfl⟩))
    exact Option.isSome_iff_exists.mpr ⟨n, ((hgraphs {}).1.node?_iff (some d) n).mpr hn⟩
  have htwo := hnode 2 (by decide) (by decide)
  have hone := hnode 1 (by decide) (by decide)
  refine ⟨hout, hagain 3 7 hout, hvirtual, hown, by decide, by decide, hcircle,
    hconnected 0 2 (by decide) (by decide) hcircle, htwo, hone, ?_⟩
  rw [ne_eq, (hgraphs {}).1.shared_iff (some 2) (some 1) htwo hone, hlast, hown]
  decide

end Graph

end CallGraph
