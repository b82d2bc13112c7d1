/-!
# Traversals

Going through a finite directed graph in depth, visiting every vertex once. A traversal is the list
of what happens: a vertex is entered, then what its links lead to is visited from left to right
unless it has been entered before, then the vertex is left. The vertices in the order of entering
are its preorder, in the order of leaving its postorder.

Links may lead anywhere, also back and out of the graph; the traversal ends because every vertex that
has links at all is listed as a source, and each is entered once.
-/

namespace CallGraph

/-- The links of a graph: where they lead from each vertex, in order, and a list of all vertices that
have any. -/
structure Links (α : Type) where
  targets : α → List α
  sources : List α
  mem_sources : ∀ a, targets a ≠ [] → a ∈ sources

namespace Traversal

/-- A step of a traversal, to be done or done. -/
inductive Step (α : Type) where
  | enter (a : α)
  | leave (a : α)
  deriving Repr, DecidableEq

variable {α : Type}

namespace Step

def weight : Step α → Nat
  | .enter _ => 2
  | .leave _ => 1

def entered? : Step α → Option α
  | .enter a => some a
  | .leave _ => none

def left? : Step α → Option α
  | .enter _ => none
  | .leave a => some a

end Step

/-- What is left to do in a list of steps, apart from what entering a vertex adds. -/
def work : List (Step α) → Nat
  | [] => 0
  | s :: rest => s.weight + work rest

/-- The number of sources that have not been entered. -/
def unseen [DecidableEq α] (links : Links α) (seen : List α) : Nat :=
  links.sources.countP fun a => !seen.contains a

theorem unseen_cons_le [DecidableEq α] (links : Links α) (seen : List α) (a : α) :
    unseen links (a :: seen) ≤ unseen links seen := by
  apply List.countP_mono_left
  simp +contextual

theorem countP_lt_of_mem {p q : α → Bool} {l : List α} (h : ∀ x ∈ l, p x = true → q x = true)
    {a : α} (ha : a ∈ l) (hq : q a = true) (hp : p a = false) : l.countP p < l.countP q := by
  obtain ⟨s, t, rfl⟩ := List.append_of_mem ha
  have hs : s.countP p ≤ s.countP q := List.countP_mono_left fun x hx => h x (by simp [hx])
  have ht : t.countP p ≤ t.countP q := List.countP_mono_left fun x hx => h x (by simp [hx])
  simp [hq, hp]
  omega

theorem unseen_cons_lt [DecidableEq α] (links : Links α) {seen : List α} {a : α}
    (ha : a ∉ seen) (ht : links.targets a ≠ []) :
    unseen links (a :: seen) < unseen links seen := by
  refine countP_lt_of_mem (fun x _ hx => ?_) (links.mem_sources a ht) ?_ ?_
  · simp at hx ⊢
    exact hx.2
  · simpa using ha
  · simp

/-- Visit these vertices from left to right. -/
def enterAll (as : List α) : List (Step α) :=
  as.map .enter

/-- The steps that are done, given the steps that are to be done and the vertices entered so far. -/
def run [DecidableEq α] (links : Links α) (seen : List α) : List (Step α) → List (Step α)
  | [] => []
  | .leave a :: rest => .leave a :: run links seen rest
  | .enter a :: rest =>
    if a ∈ seen then run links seen rest
    else .enter a ::
      run links (a :: seen) (enterAll (links.targets a) ++ .leave a :: rest)
termination_by todo => (unseen links seen, work todo)
decreasing_by
  · exact Prod.Lex.right _ (by simp [work, Step.weight])
  · exact Prod.Lex.right _ (by simp [work, Step.weight])
  · rename_i ha
    by_cases ht : links.targets a = []
    · rcases Nat.lt_or_eq_of_le (unseen_cons_le links seen a) with h | h
      · exact Prod.Lex.left _ _ h
      · rw [h]
        exact Prod.Lex.right _ (by simp [work, Step.weight, enterAll, ht])
    · exact Prod.Lex.left _ _ (unseen_cons_lt links ha ht)

end Traversal

namespace Links

variable {α : Type} [DecidableEq α]

/-- The traversal that visits these vertices from left to right. -/
def traversal (links : Links α) (roots : List α) : List (Traversal.Step α) :=
  Traversal.run links [] (Traversal.enterAll roots)

def preorder (links : Links α) (roots : List α) : List α :=
  (links.traversal roots).filterMap Traversal.Step.entered?

def postorder (links : Links α) (roots : List α) : List α :=
  (links.traversal roots).filterMap Traversal.Step.left?

end Links

end CallGraph
