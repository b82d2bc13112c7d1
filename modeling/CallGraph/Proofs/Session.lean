import CallGraph.Proofs.Store

/-!
# Sessions

A session starts with the graph that has only the root and does one operation after the other. Every
operation brings the unit it takes declarations from, so a session may put several units into one
graph, or a unit that has changed since, and nothing is asked of the units: places may lie outside
of them and links may run in circles. An operation that is refused leaves the graph as it is.

The main statement is that all graphs of all sessions are valid.
-/

namespace CallGraph

/-- What can be done to a graph. -/
inductive Operation where
  | insert (u : SourceUnit) (id : Option DeclId)
  | addDecl (u : SourceUnit) (id : DeclId)
  | addBlocks (u : SourceUnit) (id : DeclId)
  | addUnit (u : SourceUnit)
  | linkMethod (u : SourceUnit) (id : DeclId)
  | linkUnit (u : SourceUnit)
  | addCallee (caller callee : Nat)
  | addOverrides (node overridden : Nat)
  | addOverriddenBy (node overrider : Nat)

namespace Graph

/-- Do an operation; only the graph that it gives matters here, not the place or the count that comes
with it. Only edges between given places can be refused. -/
def perform (g : Graph) : Operation → Except GraphError Graph
  | .insert u id => .ok (g.insert u id).1
  | .addDecl u id => .ok (g.addDecl u id).1
  | .addBlocks u id => .ok (g.addBlocks u id).1
  | .addUnit u => .ok (g.addUnit u).1
  | .linkMethod u id => .ok (g.linkMethod u id).1
  | .linkUnit u => .ok (g.linkUnit u).1
  | .addCallee caller callee => g.addCallee caller callee
  | .addOverrides node overridden => g.addOverrides node overridden
  | .addOverriddenBy node overrider => g.addOverriddenBy node overrider

/-- The graph after an operation, the same one if the operation is refused. -/
def after (g : Graph) (op : Operation) : Graph :=
  match g.perform op with
  | .ok g' => g'
  | .error _ => g

/-- The graph after a list of operations. -/
def session (g : Graph) : List Operation → Graph
  | [] => g
  | op :: ops => (g.after op).session ops

/-! ## Which edges are refused -/

theorem checkEnds_eq_ok_iff {g : Graph} {a b : Nat} :
    g.checkEnds a b = .ok () ↔ g.has a = true ∧ g.has b = true := by
  unfold checkEnds
  by_cases ha : g.has a = true
  · by_cases hb : g.has b = true
    · simp [ha, hb]
    · simp [ha, hb]
  · simp [ha]

/-- What comes after the check of both ends is done exactly if both are there. -/
theorem checkEnds_bind_eq_ok_iff {g g' h : Graph} {a b : Nat} :
    (do g.checkEnds a b; return h) = Except.ok g'
      ↔ g.has a = true ∧ g.has b = true ∧ g' = h := by
  cases hends : g.checkEnds a b with
  | error e =>
      have hno : ¬(g.has a = true ∧ g.has b = true) := fun hab => by
        rw [checkEnds_eq_ok_iff.mpr hab] at hends
        cases hends
      constructor
      · intro hok; cases hok
      · rintro ⟨ha, hb, -⟩; exact absurd ⟨ha, hb⟩ hno
  | ok =>
      obtain ⟨ha, hb⟩ := checkEnds_eq_ok_iff.mp hends
      constructor
      · intro hok; cases hok; exact ⟨ha, hb, rfl⟩
      · rintro ⟨-, -, rfl⟩; rfl

theorem addCallee_eq_ok_iff {g g' : Graph} {a b : Nat} :
    g.addCallee a b = .ok g'
      ↔ b ≠ root ∧ g.has a = true ∧ g.has b = true ∧ g' = g.link ⟨a, b, .call⟩ := by
  unfold addCallee
  by_cases hb : b = root
  · rw [if_pos hb]
    constructor
    · intro hok; cases hok
    · intro h; exact absurd hb h.1
  · rw [if_neg hb]
    exact checkEnds_bind_eq_ok_iff.trans (and_iff_right hb).symm

theorem addOverrides_eq_ok_iff {g g' : Graph} {a b : Nat} :
    g.addOverrides a b = .ok g'
      ↔ g.has a = true ∧ g.has b = true ∧ g' = g.linkOnce ⟨a, b, .overrides⟩ :=
  checkEnds_bind_eq_ok_iff

theorem addOverriddenBy_eq_ok_iff {g g' : Graph} {a b : Nat} :
    g.addOverriddenBy a b = .ok g'
      ↔ g.has a = true ∧ g.has b = true ∧ g' = g.linkOnce ⟨a, b, .overriddenBy⟩ :=
  checkEnds_bind_eq_ok_iff

/-! ## One operation, then many -/

/-- Every operation that is done is made of moves. -/
theorem perform_moves {g g' : Graph} {op : Operation} (hg : g.Valid)
    (h : g.perform op = .ok g') : Moves g g' := by
  cases op with
  | insert u id => cases h; exact insert_moves g u id
  | addDecl u id => cases h; exact addDecl_moves u id hg
  | addBlocks u id => cases h; exact addDecls_moves u _ hg
  | addUnit u => cases h; exact addDecls_moves u _ hg
  | linkMethod u id => cases h; exact linkMethod_moves u id hg
  | linkUnit u => cases h; exact linkUnit_moves u hg
  | addCallee a b =>
      obtain ⟨hr, ha, hb, rfl⟩ := addCallee_eq_ok_iff.mp h
      exact Relation.ReflTransGen.single (.call ha hb hr)
  | addOverrides a b =>
      obtain ⟨ha, hb, rfl⟩ := addOverrides_eq_ok_iff.mp h
      exact Relation.ReflTransGen.single (.link ha hb (by simp))
  | addOverriddenBy a b =>
      obtain ⟨ha, hb, rfl⟩ := addOverriddenBy_eq_ok_iff.mp h
      exact Relation.ReflTransGen.single (.link ha hb (by simp))

theorem after_moves {g : Graph} (hg : g.Valid) (op : Operation) : Moves g (g.after op) := by
  unfold after
  split
  · rename_i h
    exact perform_moves hg h
  · exact Relation.ReflTransGen.refl

theorem session_moves {g : Graph} (hg : g.Valid) (ops : List Operation) :
    Moves g (g.session ops) := by
  induction ops generalizing g with
  | nil => exact Relation.ReflTransGen.refl
  | cons op ops ih =>
      have hstep := after_moves hg op
      exact hstep.trans (ih (hstep.valid hg))

/-- **Every graph of a session is valid.** -/
theorem session_valid (o : Options) (ops : List Operation) :
    ((ofOptions o).session ops).Valid :=
  (session_moves (valid_ofOptions o) ops).valid (valid_ofOptions o)

end Graph

end CallGraph
