import CallGraph.Stmt

/-!
# Method tables

The methods of an interface by selector. The entries stand in ascending order of their selectors and
no selector stands twice, so two tables with the same entries are equal.
-/

namespace CallGraph

structure MethodTable where
  entries : List (String × DeclId)
  ascending : entries.Pairwise fun a b => a.1 < b.1
  deriving Repr, DecidableEq

namespace MethodTable

def empty : MethodTable :=
  ⟨[], .nil⟩

instance : Inhabited MethodTable := ⟨empty⟩

def get? (t : MethodTable) (selector : String) : Option DeclId :=
  t.entries.lookup selector

/-- The methods in the order of their selectors. -/
def values (t : MethodTable) : List DeclId :=
  t.entries.map Prod.snd

/-- Put an entry into its place; an entry with the same selector is replaced. -/
def insertEntry (e : String × DeclId) : List (String × DeclId) → List (String × DeclId)
  | [] => [e]
  | a :: rest =>
    if e.1 < a.1 then e :: a :: rest
    else if e.1 = a.1 then e :: rest
    else a :: insertEntry e rest

theorem mem_insertEntry {e x : String × DeclId} {l : List (String × DeclId)}
    (h : x ∈ insertEntry e l) : x = e ∨ x ∈ l := by
  fun_induction insertEntry e l <;> simp_all <;> grind

theorem lt_of_not_lt {a b : String} (h : ¬a < b) (hne : a ≠ b) : b < a :=
  String.not_le.1 fun hle => hne (String.le_antisymm hle (String.not_lt.1 h))

theorem ascending_insertEntry (e : String × DeclId) {l : List (String × DeclId)}
    (h : l.Pairwise fun a b => a.1 < b.1) :
    (insertEntry e l).Pairwise fun a b => a.1 < b.1 := by
  fun_induction insertEntry e l with
  | case1 => simp
  | case2 a rest hlt =>
    refine List.pairwise_cons.2 ⟨fun x hx => ?_, h⟩
    rcases List.mem_cons.1 hx with rfl | hx
    · exact hlt
    · exact String.lt_trans hlt ((List.pairwise_cons.1 h).1 x hx)
  | case3 a rest _ heq =>
    exact List.pairwise_cons.2
      ⟨fun x hx => heq ▸ (List.pairwise_cons.1 h).1 x hx, (List.pairwise_cons.1 h).2⟩
  | case4 a rest hlt hne ih =>
    refine List.pairwise_cons.2 ⟨fun x hx => ?_, ih (List.pairwise_cons.1 h).2⟩
    rcases mem_insertEntry hx with rfl | hx
    · exact lt_of_not_lt hlt hne
    · exact (List.pairwise_cons.1 h).1 x hx

def insert (t : MethodTable) (selector : String) (method : DeclId) : MethodTable :=
  ⟨insertEntry (selector, method) t.entries, ascending_insertEntry _ t.ascending⟩

/-- The table of a list in which a later entry replaces an earlier one. -/
def ofList (entries : List (String × DeclId)) : MethodTable :=
  entries.foldl (fun t e => t.insert e.1 e.2) empty

end MethodTable

end CallGraph
