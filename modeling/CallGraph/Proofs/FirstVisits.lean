import CallGraph.Proofs.Chains
import CallGraph.Proofs.Postorder
import CallGraph.Proofs.Sweep

/-!
# The walk of a unit as a recursion and as a loop

The order in which declarations lie in each other has a plain description (`Links.firstVisits`): visit
what is at the top from left to right, and at a declaration that has not been visited, go through what
lies inside it before anything else. It calls itself for what lies inside, and what that call has visited
counts as seen when the rest is visited.

A loop with a stack comes to the same (`StackWalk`). It takes one vertex at a time and puts all targets
of a new one on top, so a vertex can be on the stack several times, and it is marked only when it is
taken; later entries of it are thrown away. The stack can grow with every step, but no vertex is put on
it more often than links lead to it from visited vertices, so the number of steps is known in advance.

Both are compared with `Traversal.run`. What that has to enter is the stack of the loop
(`StackWalk.steps_run`), and what is done for one list of vertices after the other is the recursion
(`entered_run_enterAll`).
-/

namespace CallGraph

/-! ## The recursion -/

namespace Traversal

variable {α : Type} [DecidableEq α] {links : Links α}

theorem unseen_le_of_subset {seen seen' : List α} (h : seen ⊆ seen') :
    unseen links seen' ≤ unseen links seen := by
  refine List.countP_mono_left fun a _ ha => ?_
  simp only [List.contains_eq_mem, Bool.not_eq_true', decide_eq_false_iff_not] at ha ⊢
  exact fun hseen => ha (h hseen)

end Traversal

namespace Links

variable {α : Type} [DecidableEq α]

/-- What is visited for the first time when these vertices are visited from left to right: a vertex that
has not been seen, then what is visited from its targets, then what is visited from the others. -/
def firstVisits (links : Links α) (seen : List α) : List α → List α
  | [] => []
  | a :: as =>
    if a ∈ seen then links.firstVisits seen as
    else
      let below := links.firstVisits (a :: seen) (links.targets a)
      a :: (below ++ links.firstVisits (below.reverse ++ a :: seen) as)
termination_by as => (Traversal.unseen links seen, as.length)
decreasing_by
  · exact Prod.Lex.right _ (Nat.lt_succ_self _)
  · rename_i ha
    by_cases ht : links.targets a = []
    · rcases Nat.lt_or_eq_of_le (Traversal.unseen_cons_le links seen a) with h | h
      · exact Prod.Lex.left _ _ h
      · rw [h, ht]
        exact Prod.Lex.right _ (Nat.succ_pos _)
    · exact Prod.Lex.left _ _ (Traversal.unseen_cons_lt links ha ht)
  · have hle : Traversal.unseen links (below.reverse ++ a :: seen) ≤ Traversal.unseen links seen :=
      Traversal.unseen_le_of_subset fun x hx =>
        List.mem_append_right _ (List.mem_cons_of_mem a hx)
    rcases Nat.lt_or_eq_of_le hle with h | h
    · exact Prod.Lex.left _ _ h
    · rw [h]
      exact Prod.Lex.right _ (Nat.lt_succ_self _)

end Links

namespace Traversal

variable {α : Type} [DecidableEq α] {links : Links α}

omit [DecidableEq α] in
@[simp] theorem entered_append (steps steps' : List (Step α)) :
    entered (steps ++ steps') = entered steps ++ entered steps' :=
  List.filterMap_append

/-- A run that is to enter some vertices enters what the recursion visits. -/
theorem entered_run_enterAll (seen as : List α) :
    entered (run links seen (enterAll as)) = links.firstVisits seen as := by
  fun_induction Links.firstVisits links seen as with
  | case1 seen => rw [enterAll, List.map_nil, run, entered_nil]
  | case2 seen a as ha ih => rw [enterAll_cons, run, if_pos ha, ih]
  | case3 seen a as ha below ihbelow ih =>
      rw [enterAll_cons, run, if_neg ha, entered_cons_enter, run_append, entered_append, ihbelow, run,
        entered_cons_leave, ih]

end Traversal

theorem Links.preorder_eq_firstVisits {α : Type} [DecidableEq α] (links : Links α)
    (roots : List α) : links.preorder roots = links.firstVisits [] roots :=
  Traversal.entered_run_enterAll [] roots

/-! ## The loop -/

/-- The state of a walk: what is still to be taken, the next one first, and what has been visited, in
order. -/
structure StackWalk (α : Type) where
  stack : List α
  visited : List α

namespace StackWalk

variable {α : Type} [DecidableEq α] {links : Links α}

/-- What happens to the vertex on top. If it has been visited, it is thrown away; otherwise it is
visited, and its targets take its place. -/
def next? (links : Links α) (w : StackWalk α) : Option (StackWalk α) :=
  match w.stack with
  | [] => none
  | a :: rest =>
    if a ∈ w.visited then some ⟨rest, w.visited⟩
    else some ⟨links.targets a ++ rest, w.visited ++ [a]⟩

/-- The state after a number of steps; there is none if the stack is empty before. -/
def steps (links : Links α) : Nat → StackWalk α → Option (StackWalk α)
  | 0, w => some w
  | n + 1, w => (w.next? links).bind (steps links n)

theorem next?_of_mem {a : α} {rest visited : List α} (ha : a ∈ visited) :
    next? links ⟨a :: rest, visited⟩ = some ⟨rest, visited⟩ := by
  simp [next?, ha]

theorem next?_of_not_mem {a : α} {rest visited : List α} (ha : a ∉ visited) :
    next? links ⟨a :: rest, visited⟩ = some ⟨links.targets a ++ rest, visited ++ [a]⟩ := by
  simp [next?, ha]

open Traversal

/-- The loop, started with what a run is to enter, takes that and the targets of what the run enters, one
at each step, and has then visited what the run enters. -/
theorem steps_run (links : Links α) (seen : List α) (todo : List (Step α)) :
    ∀ visited, (∀ x, x ∈ visited ↔ x ∈ seen) →
      steps links ((entered todo).length + ((entered (run links seen todo)).flatMap links.targets).length)
        ⟨entered todo, visited⟩ = some ⟨[], visited ++ entered (run links seen todo)⟩ := by
  fun_induction run links seen todo with
  | case1 seen =>
      intro visited _
      rw [entered_nil, List.append_nil]
      rfl
  | case2 seen a todo ih => exact ih
  | case3 seen a todo ha ih =>
      intro visited hseen
      rw [entered_cons_enter, List.length_cons, Nat.add_right_comm, steps,
        next?_of_mem ((hseen a).mpr ha)]
      exact ih visited hseen
  | case4 seen a todo ha ih =>
      intro visited hseen
      have hnew : a ∉ visited := fun hvisited => ha ((hseen a).mp hvisited)
      have hafter := ih (visited ++ [a]) fun x => by
        rw [List.mem_append, List.mem_singleton, List.mem_cons, hseen x, or_comm]
      rw [entered_enterAll_append, entered_cons_leave, List.length_append, ← List.append_cons] at hafter
      rw [entered_cons_enter, entered_cons_enter, List.length_cons, List.flatMap_cons,
        List.length_append, Nat.add_right_comm, steps, next?_of_not_mem hnew]
      -- The targets are counted with the stack in the one place and with what is visited in the other.
      refine Eq.trans (congrArg (fun n => steps links n _) ?_) hafter
      omega

end StackWalk

theorem Links.steps_preorder {α : Type} [DecidableEq α] (links : Links α) (roots : List α) :
    StackWalk.steps links (roots.length + ((links.preorder roots).flatMap links.targets).length)
      ⟨roots, []⟩ = some ⟨[], links.preorder roots⟩ := by
  have hroots : Traversal.entered (Traversal.enterAll roots) = roots := by
    simpa using Traversal.entered_enterAll_append roots []
  have hsteps := StackWalk.steps_run links [] (Traversal.enterAll roots) [] fun x => Iff.rfl
  rw [hroots] at hsteps
  exact hsteps

/-! ## The walk of a unit -/

/-- **The walk of a unit is the preorder of what lies inside what**, however declarations hold each other.
The loop that starts with the top level on its stack has the walk when the stack is empty, after one step
for each entry of the top level and each declaration that a visited one holds. The walk is what the
recursion visits first. So it repeats nothing, and it has exactly the declarations at the top and those
inside them, at any depth. -/
theorem SourceUnit.walk_eq_firstVisits (u : SourceUnit) :
    StackWalk.steps u.childLinks
        (u.topLevel.length + (u.walk.flatMap u.childLinks.targets).length) ⟨u.topLevel, []⟩
      = some ⟨[], u.walk⟩
    ∧ u.walk = u.childLinks.firstVisits [] u.topLevel
    ∧ u.walk.Nodup
    ∧ ∀ id, id ∈ u.walk ↔ u.Visited id :=
  ⟨u.childLinks.steps_preorder u.topLevel, u.childLinks.preorder_eq_firstVisits u.topLevel, walk_nodup,
    fun _ => mem_walk_iff⟩

end CallGraph
