import CallGraph.Proofs.StatementSpellings

/-!
# Spellings of units

A unit and a declaration are each written as a record, and a table of methods as an object whose members
may change places. The body of a declaration and the declarations of a unit may be spelled in any way, and
so the choice that there is for statements goes on up to the unit (`SourceUnit.Spells`).

Putting in a field sets it and nothing else, so all that has to be known of a field is how its values are
read.
-/

namespace CallGraph

open Json (Cell Spelling Record Slot Members Items exists_put)

/-! ## What may be written -/

/-- The value has the entries of the table, in any order. -/
def MethodTable.Spells (t : MethodTable) (v : Json) : Prop :=
  ∃ es : List (String × DeclId), es.Perm t.entries
    ∧ v = .object (es.map fun e => (e.1, Stmt.idToJson (some e.2)))

namespace Decl

/-- The fields of a declaration. Only the kind is never left out. -/
def cells (d : Decl) : List Cell :=
  let text (s : Option String) : Json := (s.map Json.str).getD .null
  let ids (l : List DeclId) : Json := .array (l.map fun id => Stmt.idToJson (some id))
  [⟨"id", (· = Stmt.idToJson (some d.id)), d.id = 0⟩,
    ⟨"kind", (· = .str d.kind.name), False⟩,
    ⟨"name", (· = text d.name), d.name = none⟩,
    ⟨"qualified_name", (· = text d.qualifiedName), d.qualifiedName = none⟩,
    ⟨"canonical", (· = Stmt.idToJson d.canonical), d.canonical = none⟩,
    ⟨"dependent_context", (· = .bool d.isDependent), d.isDependent = false⟩,
    ⟨"is_virtual", (· = .bool d.isVirtual), d.isVirtual = false⟩,
    ⟨"overridden_methods", (· = ids d.overridden), d.overridden = []⟩,
    ⟨"extern_c", (· = .bool d.isExternC), d.isExternC = false⟩,
    ⟨"is_main", (· = .bool d.isMain), d.isMain = false⟩,
    ⟨"param_types", (· = .array (d.paramTypes.map Json.str)), d.paramTypes = []⟩,
    ⟨"children", (· = ids d.children), d.children = []⟩,
    ⟨"body", Stmt.SpellsOption d.body, d.body = none⟩,
    ⟨"superclass", (· = Stmt.idToJson d.superclass), d.superclass = none⟩,
    ⟨"instance_methods", d.instanceMethods.Spells, d.instanceMethods = .empty⟩,
    ⟨"class_methods", d.classMethods.Spells, d.classMethods = .empty⟩]

/-- The value spells the declaration. -/
def Spells (d : Decl) : Json → Prop :=
  Spelling d.cells

end Decl

namespace SourceUnit

/-- The fields of a unit. Only the name may be left out. -/
def cells (u : SourceUnit) : List Cell :=
  [⟨"name", (· = .str u.name), u.name = ""⟩,
    ⟨"decls", fun v => ∃ vs, v = .array vs ∧ List.Forall₂ Decl.Spells u.decls.toList vs, False⟩,
    ⟨"top_level", (· = .array (u.topLevel.map fun id => Stmt.idToJson (some id))), False⟩]

/-- The value spells the unit. -/
def Spells (u : SourceUnit) : Json → Prop :=
  Spelling u.cells

end SourceUnit

/-! ## Method tables -/

namespace MethodTable

theorem perm_insertEntry {e : String × DeclId} {l : List (String × DeclId)}
    (h : ∀ x ∈ l, x.1 ≠ e.1) : (insertEntry e l).Perm (e :: l) := by
  fun_induction insertEntry e l with
  | case1 => exact .refl _
  | case2 a rest hlt => exact .refl _
  | case3 a rest _ heq => exact absurd heq.symm (h a (List.mem_cons_self ..))
  | case4 a rest _ _ ih =>
      have hrest := ih fun x hx => h x (List.mem_cons_of_mem a hx)
      exact (hrest.cons a).trans (.swap e a rest)

theorem perm_foldl_insert {es : List (String × DeclId)} {t : MethodTable}
    (h : ((t.entries ++ es).map Prod.fst).Nodup) :
    (es.foldl (fun t e => t.insert e.1 e.2) t).entries.Perm (t.entries ++ es) := by
  induction es generalizing t with
  | nil =>
      rw [List.append_nil]
      exact .refl _
  | cons e es ih =>
      have hnew : ∀ x ∈ t.entries, x.1 ≠ e.1 := by
        rw [List.map_append, List.map_cons, List.nodup_append] at h
        exact fun x hx => h.2.2 x.1 (List.mem_map_of_mem hx) e.1 (List.mem_cons_self ..)
      have hinsert : ((t.insert e.1 e.2).entries ++ es).Perm (t.entries ++ e :: es) :=
        ((perm_insertEntry hnew).append_right es).trans List.perm_middle.symm
      exact (ih ((hinsert.map Prod.fst).nodup_iff.mpr h)).trans hinsert

/-- The order in which entries are put in does not matter if no selector repeats. -/
theorem ofList_of_perm {es : List (String × DeclId)} {t : MethodTable} (h : es.Perm t.entries) :
    ofList es = t := by
  have hkeys : (t.entries.map Prod.fst).Nodup :=
    List.pairwise_map.mpr (t.ascending.imp fun hlt => String.ne_of_lt hlt)
  have hperm : (ofList es).entries.Perm t.entries :=
    (perm_foldl_insert (t := empty) ((h.map Prod.fst).nodup_iff.mpr hkeys)).trans h
  have hentries : (ofList es).entries = t.entries :=
    hperm.eq_of_pairwise (fun a b _ _ hab hba => absurd hab (String.lt_asymm hba))
      (ofList es).ascending t.ascending
  generalize ofList es = t' at hentries
  cases t
  cases t'
  simpa using hentries

theorem ofJson_of_spells {t : MethodTable} {v : Json} (h : t.Spells v) : ofJson v = .ok t := by
  obtain ⟨es, hperm, rfl⟩ := h
  have hdecode : (Json.object (es.map fun e => (e.1, Stmt.idToJson (some e.2)))).asTable Json.asId
      = .ok es := by
    rw [Json.object, Json.asTable, List.map_map]
    exact Members.decode_ofList Json.roundTrips_id.decode_write es
  rw [ofJson, hdecode]
  exact congrArg Except.ok (ofList_of_perm hperm)

end MethodTable

/-! ## Declarations and units -/

namespace Decl

/-- What it means, for each field, to have it from `d`. -/
def agreements (d : Decl) : List (Decl → Prop) :=
  [(d.id = ·.id), (d.kind = ·.kind), (d.name = ·.name), (d.qualifiedName = ·.qualifiedName),
    (d.canonical = ·.canonical), (d.isDependent = ·.isDependent), (d.isVirtual = ·.isVirtual),
    (d.overridden = ·.overridden), (d.isExternC = ·.isExternC), (d.isMain = ·.isMain),
    (d.paramTypes = ·.paramTypes), (d.children = ·.children), (d.body = ·.body),
    (d.superclass = ·.superclass), (d.instanceMethods = ·.instanceMethods),
    (d.classMethods = ·.classMethods)]

def slots (ahead : Bool) (d : Decl) : List (Slot Decl) :=
  (form ahead).slots d.cells d.agreements

theorem eq_of_holds {ahead : Bool} {d a : Decl} (h : ∀ s ∈ d.slots ahead, s.Holds a) : a = d := by
  simp only [slots, Record.slots, form, cells, agreements, List.zip_cons_cons, List.zip_nil_right,
    List.map_cons, List.map_nil, List.forall_mem_cons, List.not_mem_nil, false_implies, implies_true,
    and_true] at h
  cases a
  cases d
  simp_all

theorem fits (ahead : Bool) (d : Decl) : (form ahead).Fits (d.slots ahead) where
  fields := rfl
  names := form_names ahead
  name := by
    simp [slots, Record.slots, form, cells, agreements, Json.Field.optional, Json.Field.required]
  put := by
    simp only [slots, Record.slots, form, cells, agreements, Json.Field.optional, Json.Field.required,
      List.zip_cons_cons, List.zip_nil_right, List.map_cons, List.map_nil, List.forall_mem_cons,
      List.not_mem_nil, false_implies, implies_true, and_true]
    refine ⟨?_, ?_, ?_, ?_, ?_, ?_, ?_, ?_, ?_, ?_, ?_, ?_, ?_, ?_, ?_, ?_⟩
    all_goals
      intro v a hv
      refine exists_put ?_ ⟨rfl, by simp⟩
    · exact Json.roundTrips_id.decode_of_eq hv
    · exact DeclKind.roundTrips.decode_of_eq hv
    · exact roundTrips_name.decode_of_eq hv
    · exact roundTrips_name.decode_of_eq hv
    · exact Stmt.roundTrips_idToJson.decode_of_eq hv
    · exact Json.roundTrips_flag.decode_of_eq hv
    · exact Json.roundTrips_flag.decode_of_eq hv
    · exact Json.roundTrips_id.list.decode_of_eq hv
    · exact Json.roundTrips_flag.decode_of_eq hv
    · exact Json.roundTrips_flag.decode_of_eq hv
    · exact Json.roundTrips_text.list.decode_of_eq hv
    · exact Json.roundTrips_id.list.decode_of_eq hv
    · exact (Stmt.reads_option (fun s _ => s.decodes) ahead _ v rfl hv).2
    · exact Stmt.roundTrips_idToJson.decode_of_eq hv
    · exact MethodTable.ofJson_of_spells hv
    · exact MethodTable.ofJson_of_spells hv
  default := by
    simp [slots, Record.slots, form, cells, agreements, ofKind]
  required := by
    simp [slots, Record.slots, form, cells, agreements, Json.Field.optional, Json.Field.required]

theorem ofJson_of_spells (ahead : Bool) {d : Decl} {v : Json} (h : d.Spells v) :
    ofJson ahead v = .ok d :=
  Record.decode_of_spelling (d.fits ahead) (fun _ => eq_of_holds) h

end Decl

namespace SourceUnit

/-- What it means, for each field, to have it from `u`. -/
def agreements (u : SourceUnit) : List (SourceUnit → Prop) :=
  [(u.name = ·.name), (u.decls = ·.decls), (u.topLevel = ·.topLevel)]

def slots (ahead : Bool) (u : SourceUnit) : List (Slot SourceUnit) :=
  (form ahead).slots u.cells u.agreements

theorem eq_of_holds {ahead : Bool} {u a : SourceUnit} (h : ∀ s ∈ u.slots ahead, s.Holds a) : a = u := by
  simp only [slots, Record.slots, form, cells, agreements, List.zip_cons_cons, List.zip_nil_right,
    List.map_cons, List.map_nil, List.forall_mem_cons, List.not_mem_nil, false_implies, implies_true,
    and_true] at h
  cases a
  cases u
  simp_all

theorem asList_of_spells (ahead : Bool) {ds : List Decl} {vs : List Json}
    (h : List.Forall₂ Decl.Spells ds vs) : (Json.array vs).asList (Decl.ofJson ahead) = .ok ds := by
  rw [Json.array, Json.asList]
  induction h with
  | nil => rfl
  | cons hd _ ih =>
      rw [Items.ofList, Items.decode, Decl.ofJson_of_spells ahead hd, ih]
      rfl

theorem fits (ahead : Bool) (u : SourceUnit) : (form ahead).Fits (u.slots ahead) where
  fields := rfl
  names := form_names ahead
  name := by
    simp [slots, Record.slots, form, cells, agreements, Json.Field.optional, Json.Field.required]
  put := by
    simp only [slots, Record.slots, form, cells, agreements, Json.Field.optional, Json.Field.required,
      List.zip_cons_cons, List.zip_nil_right, List.map_cons, List.map_nil, List.forall_mem_cons,
      List.not_mem_nil, false_implies, implies_true, and_true]
    refine ⟨?_, ?_, ?_⟩
    · intro v a hv
      exact exists_put (Json.roundTrips_text.decode_of_eq hv) ⟨rfl, by simp⟩
    · rintro v a ⟨vs, rfl, hvs⟩
      exact exists_put (asList_of_spells ahead hvs) ⟨Array.toArray_toList.symm, by simp⟩
    · intro v a hv
      exact exists_put (Json.roundTrips_id.list.decode_of_eq hv) ⟨rfl, by simp⟩
  default := by
    simp [slots, Record.slots, form, cells, agreements, empty]
  required := by
    simp [slots, Record.slots, form, cells, agreements, Json.Field.optional, Json.Field.required]

theorem ofJson_of_spells (ahead : Bool) {u : SourceUnit} {v : Json} (h : u.Spells v) :
    ofJson ahead v = .ok u :=
  Record.decode_of_spelling (u.fits ahead) (fun _ => eq_of_holds) h

end SourceUnit

/-! ## The full form is a spelling -/

theorem MethodTable.spells_toJson (t : MethodTable) : t.Spells t.toJson :=
  ⟨t.entries, .refl _, rfl⟩

theorem Decl.spells_toJson (d : Decl) : d.Spells d.toJson := by
  have hbody : Stmt.SpellsOption d.body ((d.body.map Stmt.toJson).getD .null) := by
    have hoption := Stmt.spellsOption_toJson fun s (_ : s ∈ d.body.toList) => s.spells_toJson
    cases hd : d.body <;> rwa [hd, Stmt.optionToJson] at hoption
  refine .object (.whole ?_)
  simp [cells, DeclKind.toJson, hbody, MethodTable.spells_toJson]

theorem SourceUnit.spells_toJson (u : SourceUnit) : u.Spells u.toJson := by
  have hdecls : List.Forall₂ Decl.Spells u.decls.toList (u.decls.toList.map Decl.toJson) :=
    List.forall₂_map_right_iff.mpr (List.forall₂_same.mpr fun d _ => d.spells_toJson)
  exact .object (.whole (.cons ⟨rfl, rfl⟩ (.cons ⟨rfl, _, rfl, hdecls⟩ (.cons ⟨rfl, rfl⟩ .nil))))

namespace SourceUnit

/-- **All spellings of a unit are read alike.** The full form of a unit is one of them. In every other,
at any depth, members may have changed places or been added under other names, defaults may have been
dropped, and what has fields may be a list of them. Each is read as the unit, also when it lies inside a
value that is read ahead, and so is every text of it. -/
theorem spellings_decode_alike (u : SourceUnit) :
    u.Spells u.toJson
    ∧ ∀ v, u.Spells v → (∀ ahead, ofJson ahead v = .ok u)
      ∧ ∀ text, Json.Document.ofString text = ⟨v, false⟩ → read text = .ok u := by
  refine ⟨u.spells_toJson, fun v hv => ⟨fun ahead => ofJson_of_spells ahead hv, fun text htext => ?_⟩⟩
  rw [read, Json.decodeText, htext]
  simp only [ofJson_of_spells false hv]
  rfl

/-- A function, and a block that refers to it. -/
def referring : SourceUnit where
  name := ""
  decls := #[
    { Decl.ofName .function "f" with id := 0 },
    { Decl.ofKind .block with id := 1, body := some (.other [.declRef 0]) }]
  topLevel := [0, 1]

/-- The body of the block, with its tag behind the fields and a remark between. -/
def referringBody : Json :=
  .object
    [("children", .array [.array [.str "decl_ref", .num (.natural 0)]]),
      ("remark", .null),
      ("kind", .str "other")]

/-- The unit without its name, with declarations as lists that end where defaults begin. -/
def referringJson : Json :=
  .object
    [("top_level", .array [.num (.natural 0), .num (.natural 1)]),
      ("remark", .str "no name"),
      ("decls", .array
        [.array [.num (.natural 0), .str "function", .str "f"],
          .array [.num (.natural 1), .str "block", .null, .null, .null, .bool false, .bool false,
            .array [], .bool false, .bool false, .array [], .array [], referringBody]])]

theorem spells_referringBody : (Stmt.other [.declRef 0]).Spells referringBody := by
  have hpart : (Stmt.declRef 0).Spells (.array [.str "decl_ref", .num (.natural 0)]) := by
    rw [Stmt.Spells, Stmt.cells]
    exact .array (List.append_nil _).symm (.cons rfl (.cons rfl .nil)) (List.forall_mem_nil _)
  have hparts : Stmt.SpellsAll [.declRef 0] [.array [.str "decl_ref", .num (.natural 0)]] := by
    rw [Stmt.SpellsAll]
    exact ⟨_, [], rfl, hpart, by rw [Stmt.SpellsAll]⟩
  have hnames : ∀ c ∈ Stmt.Tag.other.cell :: (Stmt.other [.declRef 0]).cells, c.name ≠ "remark" := by
    rw [Stmt.cells]
    simp [Stmt.Tag.cell]
  have hwhole : Json.Listing (Stmt.Tag.other.cell :: (Stmt.other [.declRef 0]).cells)
      [("kind", .str "other"), ("children", .array [.array [.str "decl_ref", .num (.natural 0)]])] := by
    rw [Stmt.cells]
    exact .whole (.cons ⟨rfl, rfl⟩ (.cons ⟨rfl, _, rfl, hparts⟩ .nil))
  exact .object (.permute (.add hnames rfl hwhole) (List.perm_append_singleton _ [_, _]))

theorem spells_referringJson : referring.Spells referringJson := by
  have hbody : Stmt.SpellsOption (some (.other [.declRef 0])) referringBody := by
    rw [Stmt.SpellsOption]
    exact spells_referringBody
  -- The lists end behind the name of the function and behind the body of the block.
  have hdecls : List.Forall₂ Decl.Spells referring.decls.toList
      [.array [.num (.natural 0), .str "function", .str "f"],
        .array [.num (.natural 1), .str "block", .null, .null, .null, .bool false, .bool false,
          .array [], .bool false, .bool false, .array [], .array [], referringBody]] := by
    refine .cons (.array (List.take_append_drop 3 _).symm ?_ ?_)
      (.cons (.array (List.take_append_drop 13 _).symm ?_ ?_) .nil)
    · exact .cons rfl (.cons rfl (.cons rfl .nil))
    · simp [Decl.cells, Decl.ofName, Decl.ofKind]
    · exact .cons rfl (.cons rfl (.cons rfl (.cons rfl (.cons rfl (.cons rfl (.cons rfl (.cons rfl
        (.cons rfl (.cons rfl (.cons rfl (.cons rfl (.cons hbody .nil))))))))))))
    · simp [Decl.cells, Decl.ofKind]
  have hwhole : Json.Listing referring.cells
      [("name", .str ""), ("decls", _), ("top_level", .array [.num (.natural 0), .num (.natural 1)])] :=
    .whole (.cons ⟨rfl, rfl⟩ (.cons ⟨rfl, _, rfl, hdecls⟩ (.cons ⟨rfl, rfl⟩ .nil)))
  have hnameless := Json.Listing.drop (List.mem_cons_self ..) (rfl : referring.name = "") hwhole
  have hnames : ∀ c ∈ referring.cells, c.name ≠ "remark" := by
    simp [cells]
  exact .object (.permute (.add hnames rfl hnameless) (List.perm_append_singleton _ [_, _]))

theorem referring_decodes :
    referring.Spells referringJson ∧ ofJson false referringJson = .ok referring :=
  ⟨spells_referringJson, ((spellings_decode_alike referring).2 _ spells_referringJson).1 false⟩

end SourceUnit

end CallGraph
