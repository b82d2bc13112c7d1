import CallGraph.Proofs.Chains
import CallGraph.Proofs.References

/-!
# The declaration that stands for others

A declaration names at most one that stands for it, so names are followed along a chain. It ends at a
declaration that names no other, or runs into a circle, and then the smallest place of the circle is
taken.

Both ends have one property in common (`IsRepresentative`): whatever the names lead to from there leads
back, and to nothing smaller. No chain leads to two declarations with this property, because one of
them would be reached from the other, and back. So `canonical` is determined by it
(`canonical_eq_iff`), wherever the chain is entered, and two declarations that are linked in any way
have the same end.
-/

namespace CallGraph

namespace SourceUnit

/-- One declaration names the other, or itself, as the one that stands for it. -/
def Redeclares (u : SourceUnit) (a b : DeclId) : Prop :=
  ∃ d, u.decl? a = some d ∧ d.canonical = some b

/-- The declaration names no other: it is not there, names none, or names itself. -/
def StandsAlone (u : SourceUnit) (c : DeclId) : Prop :=
  ∀ d, u.decl? c = some d → d.canonical = none ∨ d.canonical = some c

/-- The declaration lies on a circle and is the smallest there: all that it leads to leads back. -/
structure IsLeastOfCircle (u : SourceUnit) (c : DeclId) : Prop where
  circle : Relation.TransGen u.Redeclares c c
  least : ∀ x, Relation.ReflTransGen u.Redeclares c x →
    Relation.ReflTransGen u.Redeclares x c ∧ c ≤ x

variable {u : SourceUnit}

/-! ## Links -/

theorem redeclared?_eq_some_iff {a b : DeclId} :
    u.redeclared? a = some b ↔ u.Redeclares a b ∧ b ≠ a := by
  simp only [redeclared?, Option.bind_eq_some_iff, Option.filter_eq_some_iff, decide_eq_true_eq]
  constructor
  · rintro ⟨d, hd, hb, hne⟩
    exact ⟨⟨d, hd, hb⟩, hne⟩
  · rintro ⟨⟨d, hd, hb⟩, hne⟩
    exact ⟨d, hd, hb, hne⟩

theorem redeclared?_eq_none_iff {c : DeclId} : u.redeclared? c = none ↔ u.StandsAlone c := by
  simp only [redeclared?, Option.bind_eq_none_iff, StandsAlone]
  refine forall₂_congr fun d _ => ?_
  cases d.canonical with
  | none => simp
  | some b => simp [Option.filter_some]

theorem link_redeclared_iff {a b : DeclId} :
    u.redeclarationLinks.Link a b ↔ u.redeclared? a = some b :=
  Option.mem_toList

theorem single_redeclarationLinks (u : SourceUnit) : u.redeclarationLinks.Single := by
  intro a
  show (u.redeclared? a).toList.length ≤ 1
  cases u.redeclared? a <;> simp

/-- A declaration that names itself leads nowhere else, so such names may be left out. -/
theorem reaches_redeclared_iff {a b : DeclId} :
    u.redeclarationLinks.Reaches a b ↔ Relation.ReflTransGen u.Redeclares a b := by
  constructor
  · exact Relation.ReflTransGen.mono (fun x y hxy =>
      (redeclared?_eq_some_iff.mp (link_redeclared_iff.mp hxy)).1) a b
  · intro hreach
    induction hreach with
    | refl => exact Relation.ReflTransGen.refl
    | @tail x y _ hxy ih =>
        by_cases hne : y = x
        · rwa [hne]
        · exact ih.tail (link_redeclared_iff.mpr (redeclared?_eq_some_iff.mpr ⟨hxy, hne⟩))

/-! ## Representatives -/

variable (u) in
/-- Whatever the declaration leads to leads back, and is not smaller. -/
def IsRepresentative (c : DeclId) : Prop :=
  ∀ x, u.redeclarationLinks.Reaches c x → u.redeclarationLinks.Reaches x c ∧ c ≤ x

/-- A chain leads to one representative at most. -/
theorem IsRepresentative.unique {a c c' : DeclId} (hc : u.IsRepresentative c)
    (hc' : u.IsRepresentative c') (hac : u.redeclarationLinks.Reaches a c)
    (hac' : u.redeclarationLinks.Reaches a c') : c = c' := by
  -- Of two vertices on a chain one is reached from the other; here each is then reached from each.
  rcases hac.total_of_right_unique u.single_redeclarationLinks.rightUnique hac' with hreach | hreach
  · obtain ⟨hback, hle⟩ := hc c' hreach
    exact UInt32.le_antisymm hle (hc' c hback).2
  · obtain ⟨hback, hle⟩ := hc' c hreach
    exact UInt32.le_antisymm (hc c' hback).2 hle

theorem IsRepresentative.standsAlone_or_isLeastOfCircle {c : DeclId} (hc : u.IsRepresentative c) :
    u.StandsAlone c ∨ u.IsLeastOfCircle c := by
  cases hnext : u.redeclared? c with
  | none => exact Or.inl (redeclared?_eq_none_iff.mp hnext)
  | some b =>
      have hlink := (redeclared?_eq_some_iff.mp hnext).1
      have hback := (hc b (Relation.ReflTransGen.single (link_redeclared_iff.mpr hnext))).1
      refine Or.inr ⟨Relation.TransGen.head' hlink (reaches_redeclared_iff.mp hback), fun x hx => ?_⟩
      rw [← reaches_redeclared_iff] at hx ⊢
      exact hc x hx

/-- The smallest declaration of a circle represents it. -/
theorem isRepresentative_of_circle {c : DeclId} {rest : List DeclId}
    (hcircle : ∀ x, u.redeclarationLinks.Reaches c x ↔ x ∈ c :: rest)
    (hback : ∀ x ∈ c :: rest, u.redeclarationLinks.Reaches x c) :
    u.IsRepresentative ((c :: rest).foldl min c) := by
  have hmem : (c :: rest).foldl min c ∈ c :: rest := by
    simpa using foldl_min_mem c (c :: rest)
  have hleast : ∀ x ∈ c :: rest, (c :: rest).foldl min c ≤ x := fun x hx =>
    List.min_le_of_mem (l := c :: c :: rest) (List.mem_cons_of_mem c hx)
  have hreach := (hcircle _).mpr hmem
  intro x hx
  have hxmem : x ∈ c :: rest := (hcircle x).mp (hreach.trans hx)
  exact ⟨(hback x hxmem).trans hreach, hleast x hxmem⟩

theorem isRepresentative_canonical (u : SourceUnit) (a : DeclId) :
    u.IsRepresentative (u.canonical a) := by
  have hchain : (u.redeclarations a).getLast? = some ((u.redeclarations a).getLastD a) := by
    obtain ⟨rest, hrest⟩ := u.redeclarationLinks.preorder_eq_cons a
    rw [redeclarations, hrest, List.getLastD_eq_getLast?, List.getLast?_eq_some_getLast (by simp)]
    rfl
  simp only [canonical]
  split
  · next hnone =>
      intro x hx
      rcases hx.cases_head with rfl | ⟨y, hy, -⟩
      · exact ⟨Relation.ReflTransGen.refl, UInt32.le_refl _⟩
      · rw [link_redeclared_iff, hnone] at hy
        cases hy
  · next next hnext =>
      obtain ⟨before, rest, hsplit, hfirst, hcircle, hback⟩ :=
        u.single_redeclarationLinks.exists_circle hchain (link_redeclared_iff.mpr hnext)
      have hdrop : (u.redeclarations a).dropWhile (· ≠ next) = next :: rest := by
        rw [redeclarations, hsplit, List.dropWhile_append_of_pos, List.dropWhile_cons_of_neg]
        · simp
        · intro x hx
          exact decide_eq_true fun heq => hfirst (heq ▸ hx)
      rw [hdrop]
      exact isRepresentative_of_circle hcircle hback

/-- The declaration that stands for another is the representative that its chain leads to. -/
theorem canonical_eq_iff {a c : DeclId} :
    u.canonical a = c ↔ u.redeclarationLinks.Reaches a c ∧ u.IsRepresentative c := by
  constructor
  · rintro rfl
    exact ⟨u.reaches_canonical a, u.isRepresentative_canonical a⟩
  · rintro ⟨hreach, hc⟩
    exact (u.isRepresentative_canonical a).unique hc (u.reaches_canonical a) hreach

/-! ## Connected declarations -/

theorem canonical_eq_of_redeclares {a b : DeclId} (h : u.Redeclares a b) :
    u.canonical a = u.canonical b := by
  have hab : u.redeclarationLinks.Reaches a b :=
    reaches_redeclared_iff.mpr (Relation.ReflTransGen.single h)
  exact canonical_eq_iff.mpr ⟨hab.trans (u.reaches_canonical b), u.isRepresentative_canonical b⟩

theorem canonical_eq_of_connected {a b : DeclId} (h : Relation.EqvGen u.Redeclares a b) :
    u.canonical a = u.canonical b := by
  induction h with
  | rel a b hab => exact canonical_eq_of_redeclares hab
  | refl a => rfl
  | symm a b _ ih => exact ih.symm
  | trans a b c _ _ hab hbc => exact hab.trans hbc

theorem connected_canonical (u : SourceUnit) (a : DeclId) :
    Relation.EqvGen u.Redeclares a (u.canonical a) :=
  Relation.EqvGen.reflTransGen_le_eqvGen _ _ _ (reaches_redeclared_iff.mp (u.reaches_canonical a))

theorem canonical_canonical (u : SourceUnit) (a : DeclId) :
    u.canonical (u.canonical a) = u.canonical a :=
  (canonical_eq_of_connected (u.connected_canonical a)).symm

theorem canonical_eq_iff_connected {a b : DeclId} :
    u.canonical a = u.canonical b ↔ Relation.EqvGen u.Redeclares a b := by
  refine ⟨fun heq => ?_, canonical_eq_of_connected⟩
  have hb := (u.connected_canonical b).symm
  exact (u.connected_canonical a).trans _ _ _ (heq ▸ hb)

/-- The chain from a declaration takes no more steps than the unit has declarations. -/
theorem exists_redeclarations_eq (u : SourceUnit) (a : DeclId) :
    ∃ rest, u.redeclarations a = a :: rest ∧ (a :: rest).IsChain u.Redeclares ∧ (a :: rest).Nodup
      ∧ rest.length ≤ u.decls.size := by
  obtain ⟨rest, hrest, hchain, hnodup, hlength⟩ := u.single_redeclarationLinks.exists_preorder_eq a
  refine ⟨rest, hrest, hchain.imp fun x y hxy => ?_, hnodup, ?_⟩
  · exact (redeclared?_eq_some_iff.mp (link_redeclared_iff.mp hxy)).1
  · simpa [redeclarationLinks, ids] using hlength

/-- **One declaration stands for all that are linked.** The chain of names from a declaration is
finite, wherever the names lead. It leads to the declaration that stands for the first one, which names
no other or is the smallest of a circle. Two declarations have the same one exactly if names connect
them, taken in either direction; so the one that stands for others stands for itself. -/
theorem canonical_stands_for_connected (u : SourceUnit) :
    (∀ a, ∃ rest, u.redeclarations a = a :: rest ∧ (a :: rest).IsChain u.Redeclares
      ∧ (a :: rest).Nodup ∧ rest.length ≤ u.decls.size)
    ∧ (∀ a, Relation.ReflTransGen u.Redeclares a (u.canonical a)
      ∧ (u.StandsAlone (u.canonical a) ∨ u.IsLeastOfCircle (u.canonical a)))
    ∧ (∀ a b, u.canonical a = u.canonical b ↔ Relation.EqvGen u.Redeclares a b)
    ∧ ∀ a, u.canonical (u.canonical a) = u.canonical a := by
  refine ⟨u.exists_redeclarations_eq, fun a => ⟨?_, ?_⟩, fun a b => canonical_eq_iff_connected,
    u.canonical_canonical⟩
  · exact reaches_redeclared_iff.mp (u.reaches_canonical a)
  · exact (u.isRepresentative_canonical a).standsAlone_or_isLeastOfCircle

end SourceUnit

end CallGraph
