import CallGraph.Proofs.Traversal
import Mathlib.Data.List.Chain
import Mathlib.Data.List.Perm.Subperm

/-!
# Following single links

If at most one link leads from each vertex, a traversal with one root goes straight on: what it enters
is a chain, in which each vertex is linked to the next (`Single.isChain_preorder`). Nothing is entered
twice and only the last vertex can be without a link, so the chain takes no more steps than there are
sources. Its last vertex has no link, or one that leads back into the chain, and then the part from
there on is a circle, from which no link leads out (`Single.exists_circle`).
-/

namespace CallGraph

namespace Links

variable {α : Type}

/-- At most one link leads from each vertex. -/
def Single (links : Links α) : Prop :=
  ∀ a, (links.targets a).length ≤ 1

theorem Single.rightUnique {links : Links α} (h : links.Single) :
    Relator.RightUnique links.Link := by
  intro a b c hb hc
  obtain ⟨x, hx⟩ := List.length_eq_one_iff.mp
    (Nat.le_antisymm (h a) (List.length_pos_of_mem hb))
  rw [Link, hx, List.mem_singleton] at hb hc
  rw [hb, hc]

end Links

namespace Traversal

variable {α : Type} [DecidableEq α] {links : Links α}

omit [DecidableEq α] in
theorem entered_enterAll_append (as : List α) (rest : List (Step α)) :
    entered (enterAll as ++ rest) = as ++ entered rest := by
  simp [entered, enterAll, List.filterMap_map, Function.comp_def, Step.entered?]

omit [DecidableEq α] in
theorem entered_eq_nil_of_enter {a : α} {rest : List (Step α)}
    (hone : (entered (.enter a :: rest)).length ≤ 1) : entered rest = [] :=
  List.length_eq_zero_iff.mp (Nat.le_zero.mp (Nat.le_of_succ_le_succ hone))

/-- With single links, a run that has at most one vertex to enter enters a chain, and the chain starts
at that vertex. -/
theorem run_isChain (hsingle : links.Single) (seen : List α) (todo : List (Step α))
    (hone : (entered todo).length ≤ 1) :
    (entered (run links seen todo)).IsChain links.Link
      ∧ ∀ x ∈ (entered (run links seen todo)).head?, x ∈ entered todo := by
  fun_induction run links seen todo with
  | case1 => exact ⟨List.isChain_nil, by simp⟩
  | case2 seen a rest ih => exact ih hone
  | case3 seen a rest hseen ih =>
      have hrest : entered rest = [] := entered_eq_nil_of_enter hone
      obtain ⟨hchain, hhead⟩ := ih (by simp [hrest])
      exact ⟨hchain, fun x hx => List.mem_cons_of_mem a (hhead x hx)⟩
  | case4 seen a rest hseen ih =>
      have hrest : entered rest = [] := entered_eq_nil_of_enter hone
      have htodo : entered (enterAll (links.targets a) ++ .leave a :: rest) = links.targets a := by
        rw [entered_enterAll_append]
        exact (congrArg _ hrest).trans (List.append_nil _)
      rw [htodo] at ih
      obtain ⟨hchain, hhead⟩ := ih (hsingle a)
      refine ⟨List.IsChain.cons hchain hhead, fun x hx => ?_⟩
      obtain rfl : a = x := Option.some.inj hx
      exact List.mem_cons_self ..

end Traversal

/-! ## The chain from a vertex -/

namespace Links

variable {α : Type} [DecidableEq α] {links : Links α}

theorem preorder_eq_cons (links : Links α) (a : α) : ∃ rest, links.preorder [a] = a :: rest := by
  refine ⟨Traversal.entered (Traversal.run links [a]
    (Traversal.enterAll (links.targets a) ++ [.leave a])), ?_⟩
  rw [preorder, traversal, Traversal.enterAll, List.map_cons, Traversal.run, if_neg List.not_mem_nil]
  rfl

theorem Single.isChain_preorder (h : links.Single) (a : α) :
    (links.preorder [a]).IsChain links.Link :=
  (Traversal.run_isChain h [] (Traversal.enterAll [a]) (Nat.le_refl 1)).1

/-- The chain from a vertex takes no more steps than there are sources, as only its last vertex can be
without a link. -/
theorem Single.exists_preorder_eq (h : links.Single) (a : α) :
    ∃ rest, links.preorder [a] = a :: rest ∧ (a :: rest).IsChain links.Link ∧ (a :: rest).Nodup
      ∧ rest.length ≤ links.sources.length := by
  obtain ⟨rest, hrest⟩ := links.preorder_eq_cons a
  have hchain := hrest ▸ h.isChain_preorder a
  have hnodup := hrest ▸ links.preorder_nodup [a]
  have hsources : (a :: rest).dropLast ⊆ links.sources := by
    intro x hx
    obtain ⟨n, hn, rfl⟩ := List.mem_iff_getElem.mp hx
    have hlink := (List.isChain_iff_getElem.mp hchain) n (by simp at hn ⊢; omega)
    rw [List.getElem_dropLast]
    exact links.mem_sources _ (List.ne_nil_of_mem hlink)
  have hlength := ((hnodup.sublist (List.dropLast_sublist _)).subperm hsources).length_le
  exact ⟨rest, hrest, hchain, hnodup, by simpa using hlength⟩

end Links

/-! ## Circles -/

section

variable {α : Type} {r : α → α → Prop} {c : α} {rest : List α}

/-- Nothing leads out of a chain whose last member leads back to its first. -/
theorem mem_circle_iff (hr : Relator.RightUnique r) (hchain : (c :: rest).IsChain r)
    (hback : r ((c :: rest).getLast (by simp)) c) {x : α} :
    Relation.ReflTransGen r c x ↔ x ∈ c :: rest := by
  constructor
  · intro hreach
    induction hreach with
    | refl => exact List.mem_cons_self ..
    | @tail y z _ hyz ih =>
        obtain ⟨before, after, hsplit⟩ := List.append_of_mem ih
        cases after with
        | nil =>
            -- `y` is the last member, so its one link is the one that leads back.
            have hlast : (c :: rest).getLast (by simp) = y := by simp [hsplit]
            rw [hlast] at hback
            rw [hr hyz hback]
            exact List.mem_cons_self ..
        | cons w after =>
            rw [hsplit] at hchain ⊢
            rw [hr hyz (List.isChain_append_cons_cons.mp hchain).2.1]
            simp
  · intro hx
    exact hchain.induction (Relation.ReflTransGen r c) _ (fun _ _ hyz hy => hy.tail hyz)
      (fun _ => Relation.ReflTransGen.refl) x hx

theorem reaches_head_of_mem_circle (hchain : (c :: rest).IsChain r)
    (hback : r ((c :: rest).getLast (by simp)) c) {x : α} (hx : x ∈ c :: rest) :
    Relation.ReflTransGen r x c :=
  hchain.backwards_induction (Relation.ReflTransGen r · c) _ (fun _ _ hyz hz => hz.head hyz)
    (fun _ => Relation.ReflTransGen.single hback) x hx

end

/-- If the chain from a vertex ends with a link, the link leads back into the chain, and the part from
there on is a circle. -/
theorem Links.Single.exists_circle {α : Type} [DecidableEq α] {links : Links α} (h : links.Single)
    {a last next : α} (hlast : (links.preorder [a]).getLast? = some last)
    (hnext : links.Link last next) :
    ∃ before rest, links.preorder [a] = before ++ next :: rest ∧ next ∉ before
      ∧ (∀ x, links.Reaches next x ↔ x ∈ next :: rest)
      ∧ ∀ x ∈ next :: rest, links.Reaches x next := by
  have hreach : links.Reaches a last :=
    links.mem_preorder_singleton_iff.mp (List.mem_of_getLast? hlast)
  have hmem : next ∈ links.preorder [a] :=
    links.mem_preorder_singleton_iff.mpr (hreach.tail hnext)
  obtain ⟨before, rest, hsplit, hfirst⟩ := List.eq_append_cons_of_mem hmem
  have hchain : (next :: rest).IsChain links.Link := (hsplit ▸ h.isChain_preorder a).right_of_append
  have hback : links.Link ((next :: rest).getLast (by simp)) next := by
    rw [hsplit, List.getLast?_append_cons, List.getLast?_eq_some_getLast (by simp)] at hlast
    rwa [Option.some.inj hlast]
  exact ⟨before, rest, hsplit, hfirst, fun x => mem_circle_iff h.rightUnique hchain hback,
    fun x hx => reaches_head_of_mem_circle hchain hback hx⟩

end CallGraph
