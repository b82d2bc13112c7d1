import CallGraph.Traversal
import Mathlib.Logic.Relation

/-!
# What a traversal visits

A traversal enters exactly the vertices that its roots lead to, each of them once.

The proof runs the steps of `Traversal.run` with the vertices entered so far. Nothing is entered
that was seen before, whatever is to be entered has been seen or is entered later, and what is
entered brings in its targets. So the vertices entered together with those seen are closed under
links, and with nothing seen at the start they hold everything that can be reached. In the other
direction every entered vertex was put on the list by a vertex with a link to it.
-/

namespace CallGraph

namespace Links

variable {α : Type}

/-- A link leads from one vertex to the other. -/
def Link (links : Links α) (a b : α) : Prop :=
  b ∈ links.targets a

/-- Links lead from one vertex to the other, in any number of steps. -/
def Reaches (links : Links α) : α → α → Prop :=
  Relation.ReflTransGen links.Link

end Links

namespace Traversal

variable {α : Type} [DecidableEq α] {links : Links α}

/-- The vertices that are entered in a list of steps, in order. -/
def entered (steps : List (Step α)) : List α :=
  steps.filterMap Step.entered?

omit [DecidableEq α] in
@[simp]
theorem entered_nil : entered ([] : List (Step α)) = [] := rfl

omit [DecidableEq α] in
theorem enter_mem_enterAll {a : α} {as : List α} : Step.enter a ∈ enterAll as ↔ a ∈ as := by
  simp [enterAll]

/-! ## One run, from any list of vertices seen before -/

/-- A run enters no vertex twice and none that was seen before it. -/
theorem run_nodup (seen : List α) (todo : List (Step α)) :
    (entered (run links seen todo)).Nodup
      ∧ ∀ x ∈ entered (run links seen todo), x ∉ seen := by
  fun_induction run links seen todo with
  | case1 => simp
  | case2 seen a rest ih => exact ih
  | case3 seen a rest hseen ih => exact ih
  | case4 seen a rest hseen ih =>
      obtain ⟨hnodup, hfresh⟩ := ih
      refine ⟨List.nodup_cons.mpr ⟨fun ha => ?_, hnodup⟩, ?_⟩
      · exact hfresh a ha (List.mem_cons_self ..)
      · intro x hx
        rcases List.mem_cons.mp hx with rfl | hx
        · exact hseen
        · exact fun hxs => hfresh x hx (List.mem_cons_of_mem _ hxs)

/-- Whatever a run is told to enter has been seen or is entered. -/
theorem mem_run_of_todo (seen : List α) (todo : List (Step α)) :
    ∀ a, Step.enter a ∈ todo → a ∈ seen ∨ a ∈ entered (run links seen todo) := by
  fun_induction run links seen todo with
  | case1 => intro a ha; cases ha
  | case2 seen b rest ih =>
      intro a ha
      exact ih a ((List.mem_cons.mp ha).resolve_left (by simp))
  | case3 seen b rest hseen ih =>
      intro a ha
      rcases List.mem_cons.mp ha with heq | ha
      · obtain rfl := Step.enter.inj heq
        exact Or.inl hseen
      · exact ih a ha
  | case4 seen b rest hseen ih =>
      intro a ha
      rcases List.mem_cons.mp ha with heq | ha
      · obtain rfl := Step.enter.inj heq
        exact Or.inr (List.mem_cons_self ..)
      · have hrest : Step.enter a ∈ enterAll (links.targets b) ++ .leave b :: rest :=
          List.mem_append_right _ (List.mem_cons_of_mem _ ha)
        rcases ih a hrest with hs | hr
        · rcases List.mem_cons.mp hs with rfl | hs
          · exact Or.inr (List.mem_cons_self ..)
          · exact Or.inl hs
        · exact Or.inr (List.mem_cons_of_mem _ hr)

/-- The targets of an entered vertex have been seen or are entered too. -/
theorem targets_mem_run (seen : List α) (todo : List (Step α)) :
    ∀ x ∈ entered (run links seen todo), ∀ y, links.Link x y →
      y ∈ seen ∨ y ∈ entered (run links seen todo) := by
  fun_induction run links seen todo with
  | case1 => intro x hx; cases hx
  | case2 seen b rest ih => exact ih
  | case3 seen b rest hseen ih => exact ih
  | case4 seen b rest hseen ih =>
      intro x hx y hxy
      have hy : y ∈ b :: seen
          ∨ y ∈ entered (run links (b :: seen) (enterAll (links.targets b) ++ .leave b :: rest)) := by
        rcases List.mem_cons.mp hx with rfl | hx
        · exact mem_run_of_todo _ _ y
            (List.mem_append_left _ (enter_mem_enterAll.mpr hxy))
        · exact ih x hx y hxy
      rcases hy with hs | hr
      · rcases List.mem_cons.mp hs with rfl | hs
        · exact Or.inr (List.mem_cons_self ..)
        · exact Or.inl hs
      · exact Or.inr (List.mem_cons_of_mem _ hr)

/-- An entered vertex is reached from one that the run was told to enter. -/
theorem exists_reaches_of_mem_run (seen : List α) (todo : List (Step α)) :
    ∀ x ∈ entered (run links seen todo), ∃ a, Step.enter a ∈ todo ∧ links.Reaches a x := by
  fun_induction run links seen todo with
  | case1 => intro x hx; cases hx
  | case2 seen b rest ih =>
      intro x hx
      obtain ⟨a, ha, hax⟩ := ih x hx
      exact ⟨a, List.mem_cons_of_mem _ ha, hax⟩
  | case3 seen b rest hseen ih =>
      intro x hx
      obtain ⟨a, ha, hax⟩ := ih x hx
      exact ⟨a, List.mem_cons_of_mem _ ha, hax⟩
  | case4 seen b rest hseen ih =>
      intro x hx
      rcases List.mem_cons.mp hx with rfl | hx
      · exact ⟨x, List.mem_cons_self .., Relation.ReflTransGen.refl⟩
      · obtain ⟨a, ha, hax⟩ := ih x hx
        rcases List.mem_append.mp ha with ha | ha
        · exact ⟨b, List.mem_cons_self .., hax.head (enter_mem_enterAll.mp ha)⟩
        · exact ⟨a, List.mem_cons_of_mem _ ((List.mem_cons.mp ha).resolve_left (by simp)), hax⟩

end Traversal

/-! ## Whole traversals -/

namespace Links

variable {α : Type} [DecidableEq α] (links : Links α)

theorem preorder_nodup (roots : List α) : (links.preorder roots).Nodup :=
  (Traversal.run_nodup [] (Traversal.enterAll roots)).1

/-- The preorder holds exactly what the roots lead to. -/
theorem mem_preorder_iff {roots : List α} {x : α} :
    x ∈ links.preorder roots ↔ ∃ r ∈ roots, links.Reaches r x := by
  constructor
  · intro hx
    obtain ⟨r, hr, hrx⟩ := Traversal.exists_reaches_of_mem_run [] _ x hx
    exact ⟨r, Traversal.enter_mem_enterAll.mp hr, hrx⟩
  · rintro ⟨r, hr, hrx⟩
    -- Along the links from `r`: nothing was seen before the run, so each next vertex is entered.
    induction hrx with
    | refl =>
        exact (Traversal.mem_run_of_todo [] _ r
          (Traversal.enter_mem_enterAll.mpr hr)).resolve_left List.not_mem_nil
    | tail _ hyz ih =>
        exact (Traversal.targets_mem_run [] _ _ ih _ hyz).resolve_left List.not_mem_nil

theorem mem_preorder_singleton_iff {a x : α} : x ∈ links.preorder [a] ↔ links.Reaches a x := by
  simp [mem_preorder_iff]

end Links

end CallGraph
