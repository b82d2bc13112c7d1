import CallGraph.Proofs.References

/-!
# What is wrong with a unit that is refused

The check of a unit goes through lists that are made for it: `references` for what a declaration names,
and `preorder` for the statements of a body. Here both are said without lists. A declaration names
another in one of its fields (`Decl.Names`), or a statement of its body does (`Stmt.Mentions`), and a
statement lies in the body if it is a part of a part, and so on (`Stmt.Within`), with one case for each
place where a statement has parts (`Stmt.PartOf`). The lists leave nothing out and add nothing
(`Stmt.mem_preorder_iff`, `Decl.names_iff`).

So the check accepts a unit exactly if declarations stand at their places and everything that is named is
there, and what it says of any other unit is the case (`SourceUnit.Reports`).
-/

namespace CallGraph

/-! ## What statements name -/

namespace Stmt

/-- One statement is a part of the other. -/
inductive PartOf : Stmt → Stmt → Prop where
  | target (callee : Option DeclId) (s : Stmt) (args : List Stmt) : PartOf s (.call callee s args)
  | argument (callee : Option DeclId) (target : Stmt) {s : Stmt} {args : List Stmt} (h : s ∈ args) :
      PartOf s (.call callee target args)
  | receiver (interface : Option DeclId) (selector : String) (toInstance : Bool) (s : Stmt)
      (args : List Stmt) : PartOf s (.messageSend interface selector toInstance (some s) args)
  | sent (interface : Option DeclId) (selector : String) (toInstance : Bool) (receiver : Option Stmt)
      {s : Stmt} {args : List Stmt} (h : s ∈ args) :
      PartOf s (.messageSend interface selector toInstance receiver args)
  | operand (s : Stmt) : PartOf s (.addrOf s)
  | paren (s : Stmt) : PartOf s (.paren s)
  | implicitCast (s : Stmt) : PartOf s (.implicitCast s)
  | other {s : Stmt} {children : List Stmt} (h : s ∈ children) : PartOf s (.other children)

/-- One statement is the other or lies inside it, at any depth. -/
def Within : Stmt → Stmt → Prop :=
  Relation.ReflTransGen PartOf

/-- The statement itself names the declaration. -/
inductive Mentions : Stmt → DeclId → Prop where
  | callee (id : DeclId) (target : Stmt) (args : List Stmt) :
      Mentions (.call (some id) target args) id
  | interface (id : DeclId) (selector : String) (toInstance : Bool) (receiver : Option Stmt)
      (args : List Stmt) : Mentions (.messageSend (some id) selector toInstance receiver args) id
  | block (id : DeclId) : Mentions (.blockLiteral id) id
  | decl (id : DeclId) : Mentions (.declRef id) id

theorem mem_children_iff {s t : Stmt} : s ∈ t.children ↔ s.PartOf t := by
  constructor
  · intro hs
    cases t with
    | call callee target args =>
        rcases List.mem_cons.mp hs with rfl | hs
        · exact .target callee s args
        · exact .argument callee target hs
    | messageSend interface selector toInstance receiver args =>
        rcases List.mem_append.mp hs with hs | hs
        · obtain rfl := Option.mem_toList.mp hs
          exact .receiver interface selector toInstance s args
        · exact .sent interface selector toInstance receiver hs
    | addrOf operand =>
        obtain rfl := List.mem_singleton.mp hs
        exact .operand s
    | paren inner =>
        obtain rfl := List.mem_singleton.mp hs
        exact .paren s
    | implicitCast inner =>
        obtain rfl := List.mem_singleton.mp hs
        exact .implicitCast s
    | other children => exact .other hs
    | blockLiteral decl | declRef decl => cases hs
  · intro h
    cases h <;> simp [children, *]

theorem mem_preorder_iff {s t : Stmt} : s ∈ t.preorder ↔ s.Within t := by
  induction t using inductionOn with
  | h t ih =>
  rw [preorder_eq_cons, List.mem_cons, List.mem_flatMap, Within, Relation.ReflTransGen.cases_tail_iff,
    eq_comm]
  refine or_congr_right (exists_congr fun part => ?_)
  rw [and_comm, mem_children_iff]
  exact and_congr_left fun hpart => ih part (mem_children_iff.mpr hpart)

theorem reference?_eq_some_iff {s : Stmt} {id : DeclId} : s.reference? = some id ↔ s.Mentions id := by
  constructor
  · intro hs
    cases s with
    | call callee target args =>
        obtain rfl : callee = some id := hs
        exact .callee id target args
    | messageSend interface selector toInstance receiver args =>
        obtain rfl : interface = some id := hs
        exact .interface id selector toInstance receiver args
    | blockLiteral decl =>
        obtain rfl := Option.some.inj hs
        exact .block decl
    | declRef decl =>
        obtain rfl := Option.some.inj hs
        exact .decl decl
    | addrOf part | paren part | implicitCast part | other parts => cases hs
  · intro h
    cases h <;> rfl

end Stmt

/-! ## What declarations name -/

/-- The declaration names another, in the field that goes by this word or in its body. -/
inductive Decl.Names (d : Decl) : String → DeclId → Prop where
  | canonical {id : DeclId} (h : d.canonical = some id) : Names d "canonical" id
  | overridden {id : DeclId} (h : id ∈ d.overridden) : Names d "override" id
  | child {id : DeclId} (h : id ∈ d.children) : Names d "child" id
  | superclass {id : DeclId} (h : d.superclass = some id) : Names d "superclass" id
  | instanceMethod {selector : String} {id : DeclId} (h : (selector, id) ∈ d.instanceMethods.entries) :
      Names d "method table" id
  | classMethod {selector : String} {id : DeclId} (h : (selector, id) ∈ d.classMethods.entries) :
      Names d "method table" id
  | body {body s : Stmt} {id : DeclId} (hbody : d.body = some body) (hs : s.Within body)
      (h : s.Mentions id) : Names d "body" id

theorem MethodTable.mem_values_iff {t : MethodTable} {id : DeclId} :
    id ∈ t.values ↔ ∃ selector, (selector, id) ∈ t.entries := by
  simp [values]

theorem Stmt.mem_references_iff {body : Option Stmt} {id : DeclId} :
    (id ∈ body.toList.flatMap fun s => s.preorder.filterMap Stmt.reference?)
      ↔ ∃ b s : Stmt, body = some b ∧ s.Within b ∧ s.Mentions id := by
  simp only [List.mem_flatMap, Option.mem_toList, List.mem_filterMap, Stmt.mem_preorder_iff,
    Stmt.reference?_eq_some_iff, ← exists_and_left]

/-- The list of references has what the declaration names, in the role that goes by the word. -/
theorem Decl.names_iff {d : Decl} {word : String} {id : DeclId} :
    d.Names word id ↔ ∃ role, role.name = word ∧ (role, id) ∈ d.references := by
  simp only [references, List.mem_append, List.mem_map, Prod.mk.injEq, ↓existsAndEq, and_true,
    Option.mem_toList, Stmt.mem_references_iff, MethodTable.mem_values_iff]
  constructor
  · intro h
    cases h with
    | canonical h => exact ⟨.canonical, rfl, by simp [h]⟩
    | overridden h => exact ⟨.override, rfl, by simp [h]⟩
    | child h => exact ⟨.child, rfl, by simp [h]⟩
    | superclass h => exact ⟨.superclass, rfl, by simp [h]⟩
    | instanceMethod h => exact ⟨.methodTable, rfl, Or.inl (Or.inr ⟨Or.inl ⟨_, h⟩, rfl⟩)⟩
    | classMethod h => exact ⟨.methodTable, rfl, Or.inl (Or.inr ⟨Or.inr ⟨_, h⟩, rfl⟩)⟩
    | body hbody hs h => exact ⟨.body, rfl, Or.inr ⟨⟨_, _, hbody, hs, h⟩, rfl⟩⟩
  · rintro ⟨role, rfl, (((((⟨h, rfl⟩ | ⟨h, rfl⟩) | ⟨h, rfl⟩) | ⟨h, rfl⟩) |
      ⟨⟨selector, h⟩ | ⟨selector, h⟩, rfl⟩) | ⟨⟨body, s, hbody, hs, h⟩, rfl⟩)⟩
    · exact .canonical h
    · exact .overridden h
    · exact .child h
    · exact .superclass h
    · exact .instanceMethod h
    · exact .classMethod h
    · exact .body hbody hs h

/-! ## What is reported -/

namespace SourceUnit

/-- The message is about something that is wrong with the unit: an entry of the top level that is not
there, a declaration that does not stand at its place, or a declaration that names, in the way that is
told, one that is not there. -/
inductive Reports (u : SourceUnit) : String → Prop where
  | topLevel {id : DeclId} (hid : id ∈ u.topLevel) (hout : u.decls.size ≤ id.toNat) :
      Reports u s!"top-level entry refers to unknown declaration {id}"
  | misplaced {index : Nat} {id : DeclId} {d : Decl} (hd : u.decls[index]? = some d) (hid : d.id = id)
      (hplace : id.toNat ≠ index) :
      Reports u s!"declaration at position {index} carries id {id}; ids must match arena positions"
  | reference {owner id : DeclId} {d : Decl} {word : String} (hd : u.decl? owner = some d)
      (hname : d.Names word id) (hout : u.decls.size ≤ id.toNat) :
      Reports u (word ++ s!" of declaration {owner} refers to unknown declaration {id}")

variable {u : SourceUnit}

theorem not_has_iff {id : DeclId} : (!u.has id) = true ↔ u.decls.size ≤ id.toNat := by
  simp [has]

theorem reports_of_declError? {index : Nat} {d : Decl} {e : UnitError}
    (hd : u.decls[index]? = some d) (h : u.declError? index d = some e) : u.Reports e.message := by
  unfold declError? at h
  split at h
  next hplace =>
    obtain rfl := Option.some.inj h
    exact .misplaced hd rfl hplace
  next hplace =>
    obtain ⟨⟨role, id⟩, hfound, rfl⟩ := Option.map_eq_some_iff.mp h
    have hname := Decl.names_iff.mpr ⟨role, rfl, List.mem_of_find?_eq_some hfound⟩
    have hout := List.find?_some hfound
    -- The declaration claims the place at which it stands, so the message tells where it is.
    have howner : u.decl? d.id = some d := by
      rw [decl?, Decidable.not_not.mp hplace, hd]
    exact .reference howner hname (not_has_iff.mp hout)

theorem reports_of_error? {e : UnitError} (h : u.error? = some e) : u.Reports e.message := by
  unfold error? at h
  split at h
  next id hfound =>
    obtain rfl := Option.some.inj h
    have hout := List.find?_some hfound
    exact .topLevel (List.mem_of_find?_eq_some hfound) (not_has_iff.mp hout)
  next =>
    obtain ⟨⟨d, index⟩, hmem, herror⟩ := List.exists_of_findSome?_eq_some h
    rw [List.mk_mem_zipIdx_iff_getElem?, Array.getElem?_toList] at hmem
    exact reports_of_declError? hmem herror

theorem closed_iff : u.Closed
    ↔ (∀ (index : Nat) (d : Decl), u.decls[index]? = some d → d.id.toNat = index)
      ∧ (∀ id ∈ u.topLevel, id.toNat < u.decls.size)
      ∧ ∀ d ∈ u.decls, ∀ word id, d.Names word id → id.toNat < u.decls.size := by
  constructor
  · rintro ⟨htop, hplace, hrefs⟩
    refine ⟨hplace, fun id hid => has_iff_lt.mp (htop id hid), fun d hd word id hname => ?_⟩
    obtain ⟨index, hindex⟩ := Array.getElem?_of_mem hd
    obtain ⟨role, -, hrole⟩ := Decl.names_iff.mp hname
    exact has_iff_lt.mp (hrefs index d hindex (role, id) hrole)
  · rintro ⟨hplace, htop, hnames⟩
    refine ⟨fun id hid => has_iff_lt.mpr (htop id hid), hplace, fun index d hd r hr => ?_⟩
    have hname := Decl.names_iff.mpr ⟨r.1, rfl, hr⟩
    exact has_iff_lt.mpr (hnames d (Array.mem_of_getElem? hd) r.1.name r.2 hname)

/-- **A unit is accepted exactly if it is closed, and refused for what is wrong with it.** The check finds
nothing exactly if every declaration stands at the place that it claims and all that is named, at the
top, in the fields of declarations and at any depth of their bodies, is in the unit. Otherwise its
message tells of a declaration at a place that it does not claim, or of an entry that is not in the unit
and that the top level or the declaration that is told names in the way that is told. -/
theorem error?_tells_fault (u : SourceUnit) :
    (u.error? = none
      ↔ (∀ (index : Nat) (d : Decl), u.decls[index]? = some d → d.id.toNat = index)
        ∧ (∀ id ∈ u.topLevel, id.toNat < u.decls.size)
        ∧ ∀ d ∈ u.decls, ∀ word id, d.Names word id → id.toNat < u.decls.size)
    ∧ ∀ e, u.error? = some e → u.Reports e.message :=
  ⟨error?_eq_none_iff.trans closed_iff, fun _ => reports_of_error?⟩

/-- A method that sends a message to a block that is not there. -/
def looseBlock : SourceUnit where
  name := "loose.m"
  decls := #[
    { Decl.ofName .interface "I" with
      id := 0, children := [1], classMethods := MethodTable.empty.insert "run" 1 },
    { Decl.ofName .objCMethod "run" with
      id := 1, body := some (.paren (.messageSend (some 0) "run" true (some (.blockLiteral 2)) [])) }]
  topLevel := [0]

theorem error?_looseBlock :
    looseBlock.error? = some (.unknownReference .body 1 2)
    ∧ looseBlock.Reports "body of declaration 1 refers to unknown declaration 2" := by
  have herror : looseBlock.error? = some (.unknownReference .body 1 2) := by decide
  have hmessage : (UnitError.unknownReference .body 1 2).message
      = "body of declaration 1 refers to unknown declaration 2" := by decide
  exact ⟨herror, hmessage ▸ (error?_tells_fault looseBlock).2 _ herror⟩

end SourceUnit

end CallGraph
