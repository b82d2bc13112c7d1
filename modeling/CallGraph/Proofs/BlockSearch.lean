import CallGraph.Proofs.FirstVisits

/-!
# The search for blocks

The blocks of a declaration are put in by a search that goes into what lies inside it. At a declaration that
it has not seen, the search marks it as seen, puts it in if it is a block that may become a node, and then
calls itself for what lies directly inside, from left to right. Each call gives back what was counted in it
and in the calls that it made. There is one set of marks for all calls, and the graph changes on the way.
`Ends` gives the rules of that search, with the number of calls that it takes.

Declarations may hold each other in any way, so it is not the structure of the unit that makes the search
end, but the marks. What it marks is what the recursion `Links.firstVisits` visits, and since nothing that is
put in changes the options, each declaration that is marked is dealt with as if it were the only one
(`ends_firstVisits`, `foldl_enter`). A declaration that is passed over because another call has seen it has
been searched by that call or is being searched by it, so nothing inside it is missed.
-/

namespace CallGraph

namespace Stats

theorem sum_append (l l' : List Stats) : sum (l ++ l') = sum l + sum l' := by
  rw [sum, List.foldl_append, foldl_add]
  rfl

theorem sum_singleton (s : Stats) : sum [s] = s :=
  zero_add s

end Stats

/-! ## The rules of the search -/

/-- The state of a search: the graph, the declarations marked as seen with the last one first, and the
blocks that were put in, in order. -/
structure BlockSearch where
  graph : Graph
  seen : List DeclId
  added : List DeclId

namespace BlockSearch

def start (g : Graph) : BlockSearch :=
  ⟨g, [], []⟩

/-- What is done at a declaration when it is seen for the first time, before the search goes on inside. -/
def enter (u : SourceUnit) (s : BlockSearch) (d : DeclId) : BlockSearch :=
  if u.isBlock s.graph.options d then ⟨(s.graph.addDecl u d).1, d :: s.seen, s.added ++ [d]⟩
  else { s with seen := d :: s.seen }

/-- What is given back at that moment. -/
def entryStats (u : SourceUnit) (s : BlockSearch) (d : DeclId) : Stats :=
  if u.isBlock s.graph.options d then (s.graph.addDecl u d).2 else {}

/-- The search, called for one declaration of a list after the other, leads from one state to another. It
takes this number of calls, and they give back these counts. -/
inductive Ends (u : SourceUnit) : BlockSearch → List DeclId → BlockSearch → Nat → Stats → Prop where
  | done {s : BlockSearch} : Ends u s [] s 0 {}
  /-- A declaration that is marked is passed over. -/
  | seen {s t : BlockSearch} {d : DeclId} {ds : List DeclId} {n : Nat} {r : Stats} (hseen : d ∈ s.seen)
      (hrest : Ends u s ds t n r) : Ends u s (d :: ds) t (n + 1) r
  /-- At a place outside the unit there is nothing but the mark. -/
  | missing {s t : BlockSearch} {d : DeclId} {ds : List DeclId} {n : Nat} {r : Stats} (hnew : d ∉ s.seen)
      (hd : u.decl? d = none) (hrest : Ends u { s with seen := d :: s.seen } ds t n r) :
      Ends u s (d :: ds) t (n + 1) r
  | enter {s t t' : BlockSearch} {d : DeclId} {decl : Decl} {ds : List DeclId} {n m : Nat} {r r' : Stats}
      (hnew : d ∉ s.seen) (hd : u.decl? d = some decl)
      (hinside : Ends u (s.enter u d) decl.children t n r) (hrest : Ends u t ds t' m r') :
      Ends u s (d :: ds) t' (n + m + 1) (s.entryStats u d + r + r')

/-- The rules leave no choice. -/
theorem Ends.unique {u : SourceUnit} {s t t' : BlockSearch} {ds : List DeclId} {n n' : Nat}
    {r r' : Stats} (h : Ends u s ds t n r) (h' : Ends u s ds t' n' r') : t' = t ∧ n' = n ∧ r' = r := by
  induction h generalizing t' n' r' with
  | done =>
      cases h'
      exact ⟨rfl, rfl, rfl⟩
  | seen hseen _ ih =>
      cases h' with
      | seen _ hrest =>
          obtain ⟨rfl, rfl, rfl⟩ := ih hrest
          exact ⟨rfl, rfl, rfl⟩
      | missing hnew _ _ => exact absurd hseen hnew
      | enter hnew _ _ _ => exact absurd hseen hnew
  | missing hnew hd _ ih =>
      cases h' with
      | seen hseen _ => exact absurd hseen hnew
      | missing _ _ hrest =>
          obtain ⟨rfl, rfl, rfl⟩ := ih hrest
          exact ⟨rfl, rfl, rfl⟩
      | enter _ hd' _ _ =>
          rw [hd] at hd'
          cases hd'
  | enter hnew hd _ _ ihinside ihrest =>
      cases h' with
      | seen hseen _ => exact absurd hseen hnew
      | missing _ hd' _ =>
          rw [hd] at hd'
          cases hd'
      | enter _ hd' hinside hrest =>
          rw [hd] at hd'
          obtain rfl := Option.some.inj hd'
          obtain ⟨rfl, rfl, rfl⟩ := ihinside hinside
          obtain ⟨rfl, rfl, rfl⟩ := ihrest hrest
          exact ⟨rfl, rfl, rfl⟩

/-! ## One declaration -/

theorem enter_seen (u : SourceUnit) (s : BlockSearch) (d : DeclId) :
    (s.enter u d).seen = d :: s.seen := by
  unfold enter
  split <;> rfl

theorem enter_options (u : SourceUnit) (s : BlockSearch) (d : DeclId) :
    (s.enter u d).graph.options = s.graph.options := by
  unfold enter
  split
  · exact s.graph.addDecl_options u d
  · rfl

/-- Where the unit has no declaration, there is nothing inside it either. So the two rules for a
declaration that is new come to one. -/
theorem Ends.visit {u : SourceUnit} {s t t' : BlockSearch} {d : DeclId} {ds : List DeclId} {n m : Nat}
    {r r' : Stats} (hnew : d ∉ s.seen) (hinside : Ends u (s.enter u d) (u.childLinks.targets d) t n r)
    (hrest : Ends u t ds t' m r') :
    Ends u s (d :: ds) t' (n + m + 1) (s.entryStats u d + r + r') := by
  cases hd : u.decl? d with
  | none =>
      have htargets : u.childLinks.targets d = [] := by
        simp [SourceUnit.childLinks, SourceUnit.links, hd]
      have henter : s.enter u d = { s with seen := d :: s.seen } := by
        simp [BlockSearch.enter, SourceUnit.isBlock, hd]
      have hcount : s.entryStats u d = {} := by
        simp [entryStats, SourceUnit.isBlock, hd]
      rw [htargets, henter] at hinside
      cases hinside
      rw [hcount, Nat.zero_add, Stats.zero_add, Stats.zero_add]
      exact .missing hnew hd hrest
  | some decl =>
      have htargets : u.childLinks.targets d = decl.children := by
        simp [SourceUnit.childLinks, SourceUnit.links, hd]
      rw [htargets] at hinside
      exact .enter hnew hd hinside hrest

/-! ## The whole search -/

/-- One call for each of these declarations, and one for each that lies directly inside one that is
entered. -/
def callCount (u : SourceUnit) (ds entered : List DeclId) : Nat :=
  ds.length + (entered.flatMap u.childLinks.targets).length

theorem callCount_cons (u : SourceUnit) (d : DeclId) (ds below rest : List DeclId) :
    callCount u (d :: ds) (d :: (below ++ rest))
      = callCount u (u.childLinks.targets d) below + callCount u ds rest + 1 := by
  simp only [callCount, List.flatMap_cons, List.flatMap_append, List.length_append, List.length_cons]
  omega

/-- What is counted in the blocks among some declarations. -/
def blockSum (u : SourceUnit) (o : Options) (ds : List DeclId) : Stats :=
  .sum ((ds.filter (u.isBlock o)).map (u.statsOf o))

theorem blockSum_cons (u : SourceUnit) (s : BlockSearch) (d : DeclId) (below rest : List DeclId) :
    blockSum u s.graph.options (d :: (below ++ rest))
      = s.entryStats u d + blockSum u s.graph.options below + blockSum u s.graph.options rest := by
  have hsplit : d :: (below ++ rest) = [d] ++ below ++ rest := rfl
  have hone : blockSum u s.graph.options [d] = s.entryStats u d := by
    unfold blockSum entryStats
    by_cases hblock : u.isBlock s.graph.options d = true
    · rw [List.filter_cons_of_pos hblock, if_pos hblock]
      exact Stats.sum_singleton _
    · rw [List.filter_cons_of_neg hblock, if_neg hblock]
      rfl
  rw [← hone, hsplit]
  simp only [blockSum, List.filter_append, List.map_append, Stats.sum_append]

theorem foldl_enter_seen (u : SourceUnit) (ds : List DeclId) (s : BlockSearch) :
    (ds.foldl (enter u) s).seen = ds.reverse ++ s.seen := by
  induction ds generalizing s with
  | nil => rfl
  | cons d ds ih =>
      rw [List.foldl_cons, ih, enter_seen, List.reverse_cons, List.append_assoc, List.singleton_append]

theorem foldl_enter_options (u : SourceUnit) (ds : List DeclId) (s : BlockSearch) :
    (ds.foldl (enter u) s).graph.options = s.graph.options := by
  induction ds generalizing s with
  | nil => rfl
  | cons d ds ih => rw [List.foldl_cons, ih, enter_options]

/-- The search ends, and all that it does is to enter what the recursion visits, in that order. -/
theorem ends_firstVisits (u : SourceUnit) (o : Options) (seen ds : List DeclId) :
    ∀ s : BlockSearch, s.seen = seen → s.graph.options = o →
      Ends u s ds ((u.childLinks.firstVisits seen ds).foldl (enter u) s)
        (callCount u ds (u.childLinks.firstVisits seen ds))
        (blockSum u o (u.childLinks.firstVisits seen ds)) := by
  fun_induction Links.firstVisits u.childLinks seen ds with
  | case1 seen =>
      intro s _ _
      exact .done
  | case2 seen d ds hd ih =>
      intro s hs ho
      rw [callCount, List.length_cons, Nat.add_right_comm]
      exact .seen (hs ▸ hd) (ih s hs ho)
  | case3 seen d ds hd below ihbelow ih =>
      intro s hs ho
      have hinside := ihbelow (s.enter u d) (by rw [enter_seen, hs]) (by rw [enter_options, ho])
      -- The marks that the calls for what lies inside have left are there for the rest of the list.
      have hrest := ih (below.foldl (enter u) (s.enter u d))
        (by rw [foldl_enter_seen, enter_seen, hs]) (by rw [foldl_enter_options, enter_options, ho])
      rw [List.foldl_cons, List.foldl_append, callCount_cons, ← ho, blockSum_cons]
      rw [← ho] at hinside hrest
      exact .visit (hs ▸ hd) hinside hrest

/-- What has been done when some declarations have been entered: of these, the blocks that may become nodes
have been put in, one after the other. -/
theorem foldl_enter (u : SourceUnit) (ds : List DeclId) (s : BlockSearch) :
    let blocks := ds.filter (u.isBlock s.graph.options)
    ds.foldl (enter u) s
      = ⟨(s.graph.addDecls u blocks).1, ds.reverse ++ s.seen, s.added ++ blocks⟩ := by
  simp only [Graph.addDecls_fst]
  induction ds generalizing s with
  | nil => simp
  | cons d ds ih =>
      rw [List.foldl_cons, ih]
      by_cases hblock : u.isBlock s.graph.options d = true
      · have henter : s.enter u d = ⟨(s.graph.addDecl u d).1, d :: s.seen, s.added ++ [d]⟩ :=
          if_pos hblock
        rw [henter, Graph.addDecl_options, List.filter_cons_of_pos hblock]
        simp
      · have henter : s.enter u d = { s with seen := d :: s.seen } := if_neg hblock
        rw [henter, List.filter_cons_of_neg hblock]
        simp

end BlockSearch

/-! ## The blocks of a declaration -/

namespace Graph

/-- **The search for blocks puts in exactly the blocks inside a declaration**, for every unit, however its
declarations hold each other, every graph and every place. The search ends, in one way only: after one call
for the declaration and one for each declaration directly inside one that was entered, it has put in the
blocks, one after the other, and it gives back the sum of what was counted in each of them. The blocks are
those that may become nodes, at any depth inside the declaration or the declaration itself; none is put in
twice, and they come in the order in which the recursion visits what lies inside. -/
theorem addBlocks_search (u : SourceUnit) (g : Graph) (d : DeclId) :
    let entered := u.childLinks.firstVisits [] [d]
    let blocks := u.blocksIn g.options d
    (∀ t n r, BlockSearch.Ends u (.start g) [d] t n r
      ↔ t = ⟨(g.addBlocks u d).1, entered.reverse, blocks⟩
        ∧ n = 1 + (entered.flatMap u.childLinks.targets).length
        ∧ r = (g.addBlocks u d).2)
    ∧ (g.addBlocks u d).1 = blocks.foldl (fun g b => (g.addDecl u b).1) g
    ∧ (g.addBlocks u d).2 = .sum (blocks.map (u.statsOf g.options))
    ∧ (∀ b, b ∈ blocks ↔ u.Inside d b ∧ u.IsBlock g.options b)
    ∧ blocks.Nodup
    ∧ blocks.Sublist entered := by
  intro entered blocks
  have hblocks : blocks = entered.filter (u.isBlock g.options) :=
    congrArg (List.filter (u.isBlock g.options)) (u.childLinks.preorder_eq_firstVisits [d])
  have hends := BlockSearch.ends_firstVisits u g.options [] [d] (.start g) rfl rfl
  have hstate : entered.foldl (BlockSearch.enter u) (.start g)
      = ⟨(g.addBlocks u d).1, entered.reverse, blocks⟩ := by
    rw [BlockSearch.foldl_enter]
    simp only [BlockSearch.start, ← hblocks, List.append_nil, List.nil_append]
    rfl
  have hstats : (g.addBlocks u d).2 = BlockSearch.blockSum u g.options entered := by
    rw [BlockSearch.blockSum, ← hblocks]
    exact addDecls_snd g u blocks
  refine ⟨fun t n r => ?_, addDecls_fst g u blocks, addDecls_snd g u blocks, fun b => SourceUnit.mem_blocksIn_iff, SourceUnit.blocksIn_nodup d, ?_⟩
  · rw [← hstate, hstats]
    constructor
    · intro h
      exact hends.unique h
    · rintro ⟨rfl, rfl, rfl⟩
      exact hends
  · rw [hblocks]
    exact List.filter_sublist

end Graph

end CallGraph
