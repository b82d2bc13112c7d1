import CallGraph.Calls
import Mathlib.Data.List.Nodup

/-!
# The statements of a body

A statement inside another one stands at a path: the place of the part to go to, then the place of
the part of that one, and so on. The same statement can stand at several paths, and a body makes its
calls at each of them. `preorder` misses none and repeats none: it lists one statement for each path
that leads to one (`lists_preorder`), and so does `statements` for a declaration's body.

What a call runs can stand under parentheses and implicit casts. `Wraps` says what stands there, and
`stripped` finds it (`stripped_eq_blockLiteral_iff`).
-/

namespace CallGraph

namespace Stmt

/-- The statement at a path. -/
def at? : Stmt → List Nat → Option Stmt
  | s, [] => some s
  | s, i :: path => s.children[i]?.bind fun part => part.at? path

/-- The statement at a path that starts with the place of one of several statements. -/
def atAny? (ss : List Stmt) : List Nat → Option Stmt
  | [] => none
  | i :: path => ss[i]?.bind fun s => s.at? path

/-- The list has one entry for each path that leads to a statement, and that statement is the
entry. -/
def Lists (find? : List Nat → Option Stmt) (ss : List Stmt) : Prop :=
  ∃ paths : List (List Nat), paths.Nodup ∧ (∀ path, path ∈ paths ↔ (find? path).isSome)
    ∧ paths.filterMap find? = ss

/-- The path from the row of statements with one more in front. -/
def shift : List Nat → List Nat
  | [] => []
  | i :: path => (i + 1) :: path

theorem shift_injective : Function.Injective shift := by
  intro p q h
  cases p <;> cases q <;> simp_all [shift]

theorem atAny?_shift (s : Stmt) (ss : List Stmt) (path : List Nat) :
    atAny? (s :: ss) (shift path) = atAny? ss path := by
  cases path <;> simp [shift, atAny?]

theorem lists_nil : Lists (atAny? []) [] :=
  ⟨[], by simp, fun path => by cases path <;> simp [atAny?], rfl⟩

theorem mem_map_shift {path : List Nat} {paths : List (List Nat)} :
    shift path ∈ paths.map shift ↔ path ∈ paths :=
  List.mem_map_of_injective shift_injective

theorem lists_cons {s : Stmt} {ss l ls : List Stmt} (hs : Lists s.at? l)
    (hss : Lists (atAny? ss) ls) : Lists (atAny? (s :: ss)) (l ++ ls) := by
  obtain ⟨ps, hps, hmemp, rfl⟩ := hs
  obtain ⟨qs, hqs, hmemq, rfl⟩ := hss
  -- A path goes into the first statement if it starts with 0, else into one of the others.
  have hfirst : ∀ path, 0 :: path ∉ qs.map shift := by
    intro path h
    obtain ⟨q, -, hq⟩ := List.mem_map.mp h
    cases q <;> simp [shift] at hq
  have hother : ∀ path, shift path ∉ ps.map (0 :: ·) := by
    intro path h
    obtain ⟨p, -, hp⟩ := List.mem_map.mp h
    cases path <;> simp [shift] at hp
  have hshift : ∀ path, shift path ∈ ps.map (0 :: ·) ++ qs.map shift
      ↔ (atAny? (s :: ss) (shift path)).isSome := by
    intro path
    rw [List.mem_append, mem_map_shift, hmemq, atAny?_shift]
    exact or_iff_right (hother path)
  refine ⟨ps.map (0 :: ·) ++ qs.map shift, ?_, fun path => ?_, ?_⟩
  · refine List.nodup_append.mpr ⟨hps.map List.cons_injective, hqs.map shift_injective, ?_⟩
    rintro _ hp _ hq rfl
    obtain ⟨p, -, rfl⟩ := List.mem_map.mp hp
    exact hfirst p hq
  · rcases path with - | ⟨- | i, path⟩
    · exact hshift []
    · rw [List.mem_append, or_iff_left (hfirst path),
        List.mem_map_of_injective List.cons_injective]
      exact hmemp path
    · exact hshift (i :: path)
  · rw [List.filterMap_append, List.filterMap_map, List.filterMap_map]
    congr 1
    exact congrArg (List.filterMap · qs) (funext (atAny?_shift s ss))

theorem lists_self {s : Stmt} {ls : List Stmt} (hs : Lists (atAny? s.children) ls) :
    Lists s.at? (s :: ls) := by
  obtain ⟨qs, hqs, hmemq, rfl⟩ := hs
  have hnil : [] ∉ qs := fun h => by simpa [atAny?] using (hmemq []).mp h
  refine ⟨[] :: qs, List.nodup_cons.mpr ⟨hnil, hqs⟩, fun path => ?_, ?_⟩
  · cases path with
    | nil => simp [at?]
    | cons i path => simpa [at?, atAny?] using hmemq (i :: path)
  · have hself : s.at? [] = some s := rfl
    rw [List.filterMap_cons_some hself]
    refine congrArg (s :: ·) (List.filterMap_congr fun path hpath => ?_)
    cases path with
    | nil => exact absurd hpath hnil
    | cons i path => rfl

theorem lists_flatMap {ss : List Stmt} (hss : ∀ s ∈ ss, Lists s.at? s.preorder) :
    Lists (atAny? ss) (ss.flatMap preorder) := by
  induction ss with
  | nil => exact lists_nil
  | cons s ss ih =>
      have hs := hss s (List.mem_cons_self ..)
      exact lists_cons hs (ih fun t ht => hss t (List.mem_cons_of_mem _ ht))

theorem sizeOf_lt_of_mem_children {s part : Stmt} (hpart : part ∈ s.children) :
    sizeOf part < sizeOf s := by
  cases s with
  | call callee target args =>
      rcases List.mem_cons.mp hpart with rfl | harg
      · simp only [call.sizeOf_spec]
        omega
      · have hlt := List.sizeOf_lt_of_mem harg
        simp only [call.sizeOf_spec]
        omega
  | messageSend interface selector toInstance receiver args =>
      rcases List.mem_append.mp hpart with hrecv | harg
      · obtain rfl := Option.mem_toList.mp hrecv
        simp only [messageSend.sizeOf_spec, Option.some.sizeOf_spec]
        omega
      · have hlt := List.sizeOf_lt_of_mem harg
        simp only [messageSend.sizeOf_spec]
        omega
  | other parts =>
      have hlt : sizeOf part < sizeOf parts := List.sizeOf_lt_of_mem hpart
      simp only [other.sizeOf_spec]
      omega
  | addrOf part | paren part | implicitCast part =>
      obtain rfl := List.mem_singleton.mp hpart
      simp
  | blockLiteral decl | declRef decl => cases hpart

/-- A property of statements holds if it goes over from the parts of a statement to the statement. -/
theorem inductionOn {P : Stmt → Prop} (h : ∀ s, (∀ part ∈ s.children, P part) → P s) (s : Stmt) :
    P s :=
  h s fun part _ => inductionOn h part
termination_by sizeOf s
decreasing_by exact sizeOf_lt_of_mem_children ‹_›

/-- **The preorder lists every statement**, once for each path to it. -/
theorem lists_preorder (s : Stmt) : Lists s.at? s.preorder := by
  rw [preorder_eq_cons]
  exact lists_self (lists_flatMap fun part _ => lists_preorder part)
termination_by sizeOf s
decreasing_by exact sizeOf_lt_of_mem_children ‹_›

/-! ## Parentheses and implicit casts -/

/-- The one statement is the other with parentheses and implicit casts around it, any number of
them. -/
inductive Wraps : Stmt → Stmt → Prop where
  | self (s : Stmt) : Wraps s s
  | paren {s t : Stmt} (h : Wraps s t) : Wraps (.paren s) t
  | implicitCast {s t : Stmt} (h : Wraps s t) : Wraps (.implicitCast s) t

theorem wraps_stripped (s : Stmt) : s.Wraps s.stripped := by
  fun_induction stripped s with
  | case1 inner ih => exact .paren ih
  | case2 inner ih => exact .implicitCast ih
  | case3 s => exact .self s

theorem Wraps.stripped_eq {s t : Stmt} (h : s.Wraps t) : s.stripped = t.stripped := by
  induction h with
  | self => rfl
  | paren _ ih => exact ih
  | implicitCast _ ih => exact ih

/-- A block literal is found exactly if it stands there: there is nothing around it to take off. -/
theorem stripped_eq_blockLiteral_iff {s : Stmt} {b : DeclId} :
    s.stripped = .blockLiteral b ↔ s.Wraps (.blockLiteral b) := by
  constructor
  · intro h
    exact h ▸ s.wraps_stripped
  · intro h
    exact h.stripped_eq

end Stmt

namespace SourceUnit

/-- The statement at a path in the body of a declaration. -/
def at? (u : SourceUnit) (w : DeclId) (path : List Nat) : Option Stmt :=
  ((u.decl? w).bind Decl.body).bind fun body => body.at? path

theorem lists_statements (u : SourceUnit) (w : DeclId) :
    Stmt.Lists (u.at? w) (u.statements w) := by
  unfold SourceUnit.at? statements
  cases (u.decl? w).bind Decl.body with
  | none => exact ⟨[], by simp, by simp, rfl⟩
  | some body => exact body.lists_preorder

theorem mem_statements_iff {u : SourceUnit} {w : DeclId} {s : Stmt} :
    s ∈ u.statements w ↔ ∃ path, u.at? w path = some s := by
  obtain ⟨paths, -, hpaths, hlist⟩ := u.lists_statements w
  rw [← hlist, List.mem_filterMap]
  constructor
  · rintro ⟨path, -, hs⟩
    exact ⟨path, hs⟩
  · rintro ⟨path, hs⟩
    exact ⟨path, (hpaths path).mpr (Option.isSome_of_mem hs), hs⟩

end SourceUnit

end CallGraph
