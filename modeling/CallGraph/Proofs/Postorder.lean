import CallGraph.Proofs.Traversal
import Mathlib.Data.List.Perm.Basic

/-!
# The order in which vertices are left

A traversal leaves what it enters (`left_perm`), and for a link from one vertex to another the second
is left before the first, unless it leads back to it (`postorder_of_link`).

For that the steps of `Traversal.run` are followed with what is left to do. The list of it holds the
leaving of all vertices that are open, and whatever stands before the leaving of a vertex was put
there on its behalf, so it is reached from it (`Nested`). When a vertex is entered, the target of
one of its links is entered after it and left first, has been left already, or is open and so reaches
it.

The same order is found by a search that keeps a stack of vertices and two marks (`Search`). A vertex
is on that stack as often as it was pushed before it was discovered, also after it is finished; the
second mark is there for such entries. `Mirrors` says how the stack follows the list of steps to be
done, and `postorder_search` that the search ends and has then finished the vertices in postorder.
-/

namespace CallGraph

namespace Traversal

variable {α : Type} [DecidableEq α] {links : Links α}

/-- The vertices that are left in a list of steps, in order. -/
def left (steps : List (Step α)) : List α :=
  steps.filterMap Step.left?

section Lists

omit [DecidableEq α]

@[simp] theorem left_nil : left ([] : List (Step α)) = [] := rfl

@[simp] theorem left_cons_leave (a : α) (steps : List (Step α)) :
    left (.leave a :: steps) = a :: left steps := rfl

@[simp] theorem left_cons_enter (a : α) (steps : List (Step α)) :
    left (.enter a :: steps) = left steps := rfl

@[simp] theorem left_append (steps steps' : List (Step α)) :
    left (steps ++ steps') = left steps ++ left steps' :=
  List.filterMap_append

theorem enterAll_cons (a : α) (as : List α) : enterAll (a :: as) = .enter a :: enterAll as := rfl

@[simp] theorem left_enterAll (as : List α) : left (enterAll as) = [] := by
  simp [left, enterAll, Step.left?]

@[simp] theorem entered_cons_leave (a : α) (steps : List (Step α)) :
    entered (.leave a :: steps) = entered steps := rfl

@[simp] theorem entered_cons_enter (a : α) (steps : List (Step α)) :
    entered (.enter a :: steps) = a :: entered steps := rfl

end Lists

/-! ## Steps that are done one list after the other -/

/-- What is to be done after something else starts with more vertices seen. -/
theorem run_append (seen : List α) (todo rest : List (Step α)) :
    run links seen (todo ++ rest)
      = run links seen todo
        ++ run links ((entered (run links seen todo)).reverse ++ seen) rest := by
  fun_induction run links seen todo with
  | case1 seen => rfl
  | case2 seen a todo ih => rw [List.cons_append, run, ih]; rfl
  | case3 seen a todo hseen ih => rw [List.cons_append, run, if_pos hseen, ih]
  | case4 seen a todo hseen ih =>
      have hrest : enterAll (links.targets a) ++ .leave a :: (todo ++ rest)
          = (enterAll (links.targets a) ++ .leave a :: todo) ++ rest := by simp
      rw [List.cons_append, run, if_neg hseen, hrest, ih]
      simp

theorem left_perm (seen : List α) (todo : List (Step α)) :
    (left (run links seen todo)).Perm (entered (run links seen todo) ++ left todo) := by
  fun_induction run links seen todo with
  | case1 seen => exact List.Perm.refl _
  | case2 seen a todo ih =>
      simp only [left_cons_leave, entered_cons_leave]
      exact (ih.cons a).trans List.perm_middle.symm
  | case3 seen a todo hseen ih => exact ih
  | case4 seen a todo hseen ih =>
      simp only [left_append, left_enterAll, left_cons_leave, List.nil_append] at ih
      simp only [left_cons_enter, entered_cons_enter, List.cons_append]
      exact ih.trans List.perm_middle

theorem mem_left_of_entered {seen : List α} {todo : List (Step α)} {x : α}
    (hx : x ∈ entered (run links seen todo)) : x ∈ left (run links seen todo) :=
  (left_perm seen todo).mem_iff.mpr (List.mem_append_left _ hx)

/-! ## What is left first -/

/-- Whatever is to be entered before a vertex is left is reached from that vertex. -/
def Nested (links : Links α) : List (Step α) → Prop
  | [] => True
  | .leave _ :: todo => Nested links todo
  | .enter x :: todo => (∀ w ∈ left todo, links.Reaches w x) ∧ Nested links todo

omit [DecidableEq α] in
theorem nested_enterAll_append {xs : List α} {todo : List (Step α)}
    (hxs : ∀ x ∈ xs, ∀ w ∈ left todo, links.Reaches w x) (htodo : Nested links todo) :
    Nested links (enterAll xs ++ todo) := by
  induction xs with
  | nil => exact htodo
  | cons x xs ih =>
      rw [enterAll_cons, List.cons_append]
      refine ⟨fun w hw => ?_, ih fun y hy => hxs y (List.mem_cons_of_mem _ hy)⟩
      rw [left_append, left_enterAll, List.nil_append] at hw
      exact hxs x (List.mem_cons_self ..) w hw

omit [DecidableEq α] in
theorem Nested.enter {a : α} {todo : List (Step α)} (h : Nested links (.enter a :: todo)) :
    Nested links (enterAll (links.targets a) ++ .leave a :: todo) := by
  obtain ⟨hopen, htodo⟩ := h
  refine nested_enterAll_append (fun y hy w hw => ?_) htodo
  rcases List.mem_cons.mp hw with rfl | hw
  · exact Relation.ReflTransGen.single hy
  · exact (hopen w hw).tail hy

/-- For a link from a vertex that is entered, its target is left first, was left before the run, or
leads back. -/
theorem left_before_of_link (seen : List α) (todo : List (Step α)) (hnested : Nested links todo) :
    ∀ x ∈ entered (run links seen todo), ∀ y, links.Link x y →
      (y ∈ seen ∧ y ∉ left todo) ∨ links.Reaches y x
        ∨ [y, x].Sublist (left (run links seen todo)) := by
  fun_induction run links seen todo with
  | case1 seen => intro x hx; cases hx
  | case2 seen a todo ih =>
      intro x hx y hxy
      rcases ih hnested x hx y hxy with ⟨hy, hopen⟩ | hback | hleft
      · by_cases hya : y = a
        · subst hya
          exact Or.inr (Or.inr ((List.singleton_sublist.mpr (mem_left_of_entered hx)).cons_cons y))
        · exact Or.inl ⟨hy, by simp [hya, hopen]⟩
      · exact Or.inr (Or.inl hback)
      · exact Or.inr (Or.inr (hleft.cons a))
  | case3 seen a todo hseen ih => exact ih hnested.2
  | case4 seen a todo hseen ih =>
      intro x hx y hxy
      rcases List.mem_cons.mp hx with rfl | hx
      · -- The targets of `x` are dealt with before `x` is left.
        rcases mem_run_of_todo (x :: seen) (enterAll (links.targets x)) y
            (enter_mem_enterAll.mpr hxy) with hy | hy
        · rcases List.mem_cons.mp hy with rfl | hy
          · exact Or.inr (Or.inl Relation.ReflTransGen.refl)
          · by_cases hopen : y ∈ left todo
            · exact Or.inr (Or.inl (hnested.1 y hopen))
            · exact Or.inl ⟨hy, hopen⟩
        · refine Or.inr (Or.inr ?_)
          rw [left_cons_enter, run_append, run, left_append, left_cons_leave]
          exact (List.singleton_sublist.mpr (mem_left_of_entered hy)).append
            (List.singleton_sublist.mpr (List.mem_cons_self ..))
      · rcases ih hnested.enter x hx y hxy with ⟨hy, hopen⟩ | hback | hleft
        · have hne : y ∉ left todo ∧ y ≠ a := by simp at hopen; exact ⟨hopen.2, hopen.1⟩
          exact Or.inl ⟨(List.mem_cons.mp hy).resolve_left hne.2, hne.1⟩
        · exact Or.inr (Or.inl hback)
        · exact Or.inr (Or.inr hleft)

/-- A traversal depends on where links lead, not on the list of their sources. -/
theorem run_congr {links' : Links α} (htargets : links.targets = links'.targets) (seen : List α)
    (todo : List (Step α)) : run links seen todo = run links' seen todo := by
  fun_induction run links seen todo with
  | case1 seen => rw [run]
  | case2 seen a todo ih => rw [run, ih]
  | case3 seen a todo hseen ih => rw [run, if_pos hseen, ih]
  | case4 seen a todo hseen ih => rw [run, if_neg hseen, ← htargets, ih]

end Traversal

/-! ## Whole traversals -/

namespace Links

variable {α : Type} [DecidableEq α] (links : Links α)

theorem postorder_perm (roots : List α) : (links.postorder roots).Perm (links.preorder roots) := by
  have hperm : (links.postorder roots).Perm
      (links.preorder roots ++ Traversal.left (Traversal.enterAll roots)) :=
    Traversal.left_perm [] (Traversal.enterAll roots)
  rwa [Traversal.left_enterAll, List.append_nil] at hperm

theorem preorder_congr {links links' : Links α} (htargets : links.targets = links'.targets)
    (roots : List α) : links.preorder roots = links'.preorder roots := by
  unfold preorder traversal
  rw [Traversal.run_congr htargets]

theorem postorder_congr {links links' : Links α} (htargets : links.targets = links'.targets)
    (roots : List α) : links.postorder roots = links'.postorder roots := by
  unfold postorder traversal
  rw [Traversal.run_congr htargets]

/-- **What a link leads to is left first**, unless it leads back. -/
theorem postorder_of_link {roots : List α} {x y : α} (hx : x ∈ links.preorder roots)
    (hxy : links.Link x y) :
    links.Reaches y x ∨ [y, x].Sublist (links.postorder roots) := by
  have hnested : Traversal.Nested links (Traversal.enterAll roots ++ []) :=
    Traversal.nested_enterAll_append (by simp) trivial
  rw [List.append_nil] at hnested
  rcases Traversal.left_before_of_link [] _ hnested x hx y hxy with ⟨hy, -⟩ | hlaw
  · cases hy
  · exact hlaw

/-- A root is left after all that it leads to. -/
theorem postorder_singleton (r : α) :
    ∃ before, links.postorder [r] = before ++ [r] := by
  refine ⟨Traversal.left (Traversal.run links [r] (Traversal.enterAll (links.targets r))), ?_⟩
  show Traversal.left (Traversal.run links [] [.enter r]) = _
  rw [Traversal.run, if_neg List.not_mem_nil, Traversal.left_cons_enter, Traversal.run_append,
    Traversal.run, Traversal.run, Traversal.left_append]
  rfl

end Links

/-! ## A search with two marks -/

/-- The state of a search: the stack with its top first, the vertices discovered, and those
finished in the order in which that happened. -/
structure Search (α : Type) where
  stack : List α
  discovered : List α
  finished : List α

namespace Search

variable {α : Type} [DecidableEq α] {links : Links α}

/-- What the search does with the vertex on top. One that is new is marked as discovered and stays,
with those of its targets that are not discovered on top of it, the first one uppermost. Any other is
taken away, and marked as finished if it is not. -/
def next? (links : Links α) (s : Search α) : Option (Search α) :=
  match s.stack with
  | [] => none
  | a :: rest =>
    if a ∈ s.discovered then
      some ⟨rest, s.discovered, if a ∈ s.finished then s.finished else s.finished ++ [a]⟩
    else
      some ⟨(links.targets a).filter (· ∉ a :: s.discovered) ++ a :: rest, a :: s.discovered,
        s.finished⟩

def Next (links : Links α) (s t : Search α) : Prop :=
  s.next? links = some t

def Leads (links : Links α) : Search α → Search α → Prop :=
  Relation.ReflTransGen (Next links)

theorem next_discover {a : α} {rest discovered finished : List α} (ha : a ∉ discovered) :
    Next links ⟨a :: rest, discovered, finished⟩
      ⟨(links.targets a).filter (· ∉ a :: discovered) ++ a :: rest, a :: discovered, finished⟩ := by
  simp [Next, next?, ha]

theorem next_finish {a : α} {rest discovered finished : List α} (ha : a ∈ discovered)
    (hnew : a ∉ finished) :
    Next links ⟨a :: rest, discovered, finished⟩ ⟨rest, discovered, finished ++ [a]⟩ := by
  simp [Next, next?, ha, hnew]

theorem next_drop {a : α} {rest discovered finished : List α} (ha : a ∈ discovered)
    (hold : a ∈ finished) :
    Next links ⟨a :: rest, discovered, finished⟩ ⟨rest, discovered, finished⟩ := by
  simp [Next, next?, ha, hold]

open Traversal

/-- The stack of a search that has discovered `seen` and still has these steps to do. A vertex to be
entered may be missing if it is discovered; if it is there, it is not open further down. -/
inductive Mirrors (seen : List α) : List (Step α) → List α → Prop where
  | nil : Mirrors seen [] []
  | leave {a : α} {todo : List (Step α)} {stack : List α} (ha : a ∈ seen)
      (htodo : Mirrors seen todo stack) : Mirrors seen (.leave a :: todo) (a :: stack)
  | enter {a : α} {todo : List (Step α)} {stack : List α} (hclosed : a ∉ left todo)
      (htodo : Mirrors seen todo stack) : Mirrors seen (.enter a :: todo) (a :: stack)
  | skip {a : α} {todo : List (Step α)} {stack : List α} (ha : a ∈ seen)
      (htodo : Mirrors seen todo stack) : Mirrors seen (.enter a :: todo) stack

omit [DecidableEq α] in
theorem Mirrors.mono {seen : List α} {todo : List (Step α)} {stack : List α}
    (h : Mirrors seen todo stack) (a : α) : Mirrors (a :: seen) todo stack := by
  induction h with
  | nil => exact .nil
  | leave ha _ ih => exact .leave (List.mem_cons_of_mem _ ha) ih
  | enter hclosed _ ih => exact .enter hclosed ih
  | skip ha _ ih => exact .skip (List.mem_cons_of_mem _ ha) ih

/-- The targets that are pushed are those to be entered, less the ones discovered. -/
theorem mirrors_enterAll {seen : List α} (xs : List α) {todo : List (Step α)} {stack : List α}
    (hopen : ∀ x ∈ left todo, x ∈ seen) (htodo : Mirrors seen todo stack) :
    Mirrors seen (enterAll xs ++ todo) (xs.filter (· ∉ seen) ++ stack) := by
  induction xs with
  | nil => exact htodo
  | cons x xs ih =>
      rw [enterAll_cons, List.cons_append]
      by_cases hx : x ∈ seen
      · rw [List.filter_cons_of_neg (by simpa using hx)]
        exact .skip hx ih
      · rw [List.filter_cons_of_pos (by simpa using hx)]
        refine .enter ?_ ih
        rw [left_append, left_enterAll, List.nil_append]
        exact fun hleft => hx (hopen x hleft)

/-- A search whose stack mirrors the steps to be done finishes what these steps leave. -/
theorem leads_of_mirrors (seen : List α) (todo : List (Step α)) :
    ∀ stack finished, Mirrors seen todo stack →
      (∀ a, a ∈ seen ↔ a ∈ finished ++ left todo) → (finished ++ left todo).Nodup →
      ∃ discovered, Leads links ⟨stack, seen, finished⟩
        ⟨[], discovered, finished ++ left (run links seen todo)⟩ := by
  fun_induction run links seen todo with
  | case1 seen =>
      intro stack finished hstack _ _
      cases hstack
      exact ⟨seen, by rw [left_nil, List.append_nil]; exact Relation.ReflTransGen.refl⟩
  | case2 seen a todo ih =>
      intro stack finished hstack hseen hnodup
      cases hstack with
      | @leave _ _ stack ha htodo =>
          rw [left_cons_leave, List.append_cons] at hseen hnodup
          obtain ⟨discovered, hrest⟩ := ih stack (finished ++ [a]) htodo hseen hnodup
          have hnew : a ∉ finished := fun hold => by
            rw [List.append_assoc, List.nodup_append] at hnodup
            exact hnodup.2.2 a hold a (by simp) rfl
          rw [left_cons_leave, List.append_cons]
          exact ⟨discovered, hrest.head (next_finish ha hnew)⟩
  | case3 seen a todo ha ih =>
      intro stack finished hstack hseen hnodup
      cases hstack with
      | @enter _ _ stack hclosed htodo =>
          -- An entry of a vertex that was discovered after it was pushed: it is finished by now.
          have hold : a ∈ finished :=
            (List.mem_append.mp ((hseen a).mp ha)).resolve_right hclosed
          obtain ⟨discovered, hrest⟩ := ih stack finished htodo hseen hnodup
          exact ⟨discovered, hrest.head (next_drop ha hold)⟩
      | skip _ htodo => exact ih stack finished htodo hseen hnodup
  | case4 seen a todo ha ih =>
      intro stack finished hstack hseen hnodup
      cases hstack with
      | @enter _ _ stack hclosed htodo =>
          rw [left_cons_enter] at hseen hnodup
          have hopen : ∀ x ∈ left (.leave a :: todo), x ∈ a :: seen := by
            intro x hx
            rcases List.mem_cons.mp hx with rfl | hx
            · exact List.mem_cons_self ..
            · exact List.mem_cons_of_mem _ ((hseen x).mpr (List.mem_append_right _ hx))
          have hstack := mirrors_enterAll (links.targets a) hopen
            (Mirrors.leave (List.mem_cons_self ..) (htodo.mono a))
          have hmiddle : (finished ++ a :: left todo).Perm (a :: (finished ++ left todo)) :=
            List.perm_middle
          obtain ⟨discovered, hrest⟩ := ih _ finished hstack
            (by
              intro x
              rw [left_append, left_enterAll, List.nil_append, left_cons_leave, hmiddle.mem_iff,
                List.mem_cons, List.mem_cons, hseen x])
            (by
              rw [left_append, left_enterAll, List.nil_append, left_cons_leave,
                hmiddle.nodup_iff, List.nodup_cons]
              exact ⟨fun h => ha ((hseen a).mpr h), hnodup⟩)
          exact ⟨discovered, hrest.head (next_discover ha)⟩
      | skip hin _ => exact absurd hin ha

end Search

/-- **The postorder is what a search with two marks finishes**, one vertex after the other. -/
theorem Links.postorder_search {α : Type} [DecidableEq α] (links : Links α) (roots : List α) :
    ∃ discovered, Search.Leads links ⟨roots, [], []⟩ ⟨[], discovered, links.postorder roots⟩ := by
  have hstack : Search.Mirrors [] (Traversal.enterAll roots ++ []) (roots.filter (· ∉ []) ++ []) :=
    Search.mirrors_enterAll roots (by simp) Search.Mirrors.nil
  simp only [List.append_nil, List.not_mem_nil, not_false_eq_true, decide_true,
    List.filter_true] at hstack
  have hnone := Traversal.left_enterAll roots
  exact Search.leads_of_mirrors [] _ roots [] hstack (by simp [hnone]) (by simp [hnone])

end CallGraph
