import CallGraph.Proofs.RecordSpellings

/-!
# Spellings of statements

A statement is written as a record with its tag as one more cell in front. Where a field holds statements,
what may stand for it is again a spelling, so that there is a choice at every depth (`Stmt.Spells`).

A statement is read in two goes: first for the tag, which may stand anywhere, then for the fields of that
tag. The second go is that of a record (`Stmt.Tag.form`), for which the tag is a member like any other
that names no field.
-/

namespace CallGraph

open Json (Cell Spelling Clean Readable Record Slot Members Items bind_eq_ok exists_put membersOf
  membersOf_cons)

/-! ## What may be written -/

namespace Stmt

def tag : Stmt → Tag
  | .call .. => .call
  | .messageSend .. => .messageSend
  | .blockLiteral _ => .blockLiteral
  | .addrOf _ => .addrOf
  | .declRef _ => .declRef
  | .paren _ => .paren
  | .implicitCast _ => .implicitCast
  | .other _ => .other

/-- A tag is never left out. -/
def Tag.cell (t : Tag) : Cell :=
  ⟨"kind", (· = .str t.name), False⟩

mutual

/-- The fields of a statement. -/
def cells : Stmt → List Cell
  | .call callee target args =>
    [⟨"callee", (· = idToJson callee), callee = none⟩,
      ⟨"target", Spelling (target.tag.cell :: target.cells), False⟩,
      ⟨"args", fun v => ∃ vs, v = .array vs ∧ SpellsAll args vs, args = []⟩]
  | .messageSend interface selector toInstance receiver args =>
    [⟨"receiver_interface", (· = idToJson interface), interface = none⟩,
      ⟨"selector", (· = .str selector), False⟩,
      ⟨"instance", (· = .bool toInstance), toInstance = true⟩,
      ⟨"receiver", SpellsOption receiver, receiver = none⟩,
      ⟨"args", fun v => ∃ vs, v = .array vs ∧ SpellsAll args vs, args = []⟩]
  | .blockLiteral decl => [⟨"decl", (· = idToJson (some decl)), False⟩]
  | .addrOf operand => [⟨"operand", Spelling (operand.tag.cell :: operand.cells), False⟩]
  | .declRef decl => [⟨"decl", (· = idToJson (some decl)), False⟩]
  | .paren inner => [⟨"inner", Spelling (inner.tag.cell :: inner.cells), False⟩]
  | .implicitCast inner => [⟨"inner", Spelling (inner.tag.cell :: inner.cells), False⟩]
  | .other children =>
    [⟨"children", fun v => ∃ vs, v = .array vs ∧ SpellsAll children vs, children = []⟩]

/-- The values spell the statements, one each. -/
def SpellsAll : List Stmt → List Json → Prop
  | [], vs => vs = []
  | s :: ss, vs => ∃ v rest, vs = v :: rest ∧ Spelling (s.tag.cell :: s.cells) v ∧ SpellsAll ss rest

/-- The value spells the statement, if there is one. -/
def SpellsOption : Option Stmt → Json → Prop
  | none, v => v = .null
  | some s, v => Spelling (s.tag.cell :: s.cells) v

end

/-- The value spells the statement. -/
def Spells (s : Stmt) : Json → Prop :=
  Spelling (s.tag.cell :: s.cells)

/-! ## The fields as a record -/

/-- A field of statements, as a field of drafts. -/
def field (f : String × FieldKind) : Json.Field Draft :=
  ⟨f.1, f.2.isRequired, fun v d => d.put f.1 f.2 v (fun _ => ofJson true v) (fun _ => ofList v)⟩

/-- The fields of a tag as a record. -/
def Tag.form (t : Tag) : Record Draft :=
  ⟨t.title, {}, t.fields.map field⟩

theorem Tag.find?_form (t : Tag) (k : String) :
    (t.form.fields.find? fun f => f.name == k) = (t.fields.lookup k).map fun kind => field (k, kind) := by
  simp only [form]
  induction t.fields with
  | nil => rfl
  | cons f fs ih =>
      obtain ⟨name, kind⟩ := f
      by_cases hname : name = k
      · subst hname
        simp [field]
      · have hother : (k == name) = false := by simpa using Ne.symm hname
        rw [List.map_cons, List.find?_cons_of_neg (by simpa [field] using hname), ih, List.lookup_cons,
          hother]

theorem Tag.lookup_kind (t : Tag) : t.fields.lookup "kind" = none := by
  cases t <;> decide

theorem given_of_put {name : String} {kind : FieldKind} {v : Json} {d d' : Draft}
    (h : (field (name, kind)).put v d = .ok d') : d'.given = name :: d.given := by
  cases kind
  all_goals
    obtain ⟨x, -, hx⟩ := bind_eq_ok h
    obtain rfl := Except.ok.inj hx
    rfl

theorem ofObject_of_form {t : Tag} {given : List String} {d b : Draft}
    (hgiven : ∀ k, k ∈ d.given ↔ k ∈ given) (h : t.form.ofMembers given d .done = .ok b) :
    d.ofObject t = .ok (b.build t) := by
  rw [Record.ofMembers] at h
  cases hmissing : t.form.fields.find? fun f => f.isRequired && !given.contains f.name with
  | some f =>
      rw [hmissing] at h
      cases h
  | none =>
      rw [hmissing] at h
      obtain rfl := Except.ok.inj h
      have hnone : (t.fields.find? fun f => f.2.isRequired && !d.given.contains f.1) = none := by
        refine List.find?_eq_none.mpr fun f hf hreq => ?_
        refine List.find?_eq_none.mp hmissing (field f) (List.mem_map_of_mem hf) ?_
        simpa [field, hgiven] using hreq
      rw [Draft.ofObject, hnone]

theorem ofMembers_skip {t : Tag} {k : String} (hk : t.fields.lookup k = none) (d : Draft) (v : Json)
    (rest : Members) : ofMembers t d (.member (.ok k) v rest) = ofMembers t d rest := by
  rw [ofMembers, hk]
  exact ite_self _

theorem ofMembers_put {t : Tag} {k : String} {kind : FieldKind} (hk : t.fields.lookup k = some kind)
    {d : Draft} (hnew : k ∉ d.given) (v : Json) (rest : Members) :
    ofMembers t d (.member (.ok k) v rest)
      = (field (k, kind)).put v d >>= fun d' => ofMembers t d' rest := by
  have hkind : (k == "kind") = false := by
    refine beq_eq_false_iff_ne.mpr fun hsame => ?_
    rw [hsame, t.lookup_kind] at hk
    cases hk
  simp only [ofMembers, hkind, hk, List.contains_eq_mem, hnew, decide_false, Bool.false_eq_true, if_false]
  rfl

/-- An object is read in the same way as the record. -/
theorem ofMembers_of_form (t : Tag) (ms : List (String × Json)) {given : List String} {d b : Draft}
    (hgiven : ∀ k, k ∈ d.given ↔ k ∈ given) (h : t.form.ofMembers given d (membersOf ms) = .ok b) :
    (ofMembers t d (membersOf ms) >>= fun d => d.ofObject t) = .ok (b.build t) := by
  induction ms generalizing given d with
  | nil => exact ofObject_of_form hgiven h
  | cons m ms ih =>
      obtain ⟨k, v⟩ := m
      rw [membersOf_cons, Record.ofMembers, Tag.find?_form] at h
      rw [membersOf_cons]
      cases hk : t.fields.lookup k with
      | none =>
          rw [hk, Option.map_none] at h
          cases hskip : v.skipFault? with
          | some f =>
              rw [hskip] at h
              cases h
          | none =>
              rw [hskip] at h
              rw [ofMembers_skip hk]
              exact ih hgiven h
      | some kind =>
          simp only [hk, Option.map_some, List.contains_eq_mem] at h
          by_cases hmem : k ∈ given
          · rw [if_pos (decide_eq_true hmem)] at h
            cases h
          · rw [if_neg (by simpa using hmem)] at h
            obtain ⟨d', hput, hrest⟩ := bind_eq_ok h
            rw [ofMembers_put hk (mt (hgiven k).mp hmem), hput]
            refine ih (fun k' => ?_) hrest
            rw [given_of_put hput, List.mem_cons, List.mem_cons, hgiven k']

/-- So is a list. -/
theorem ofItems_of_form (t : Tag) (vs : List Json) {fs : List (String × FieldKind)} {d b : Draft}
    (h : t.form.ofItems (fs.map field) d (Items.ofList .done vs) = .ok b) :
    ofItems t fs d (Items.ofList .done vs) = .ok (b.build t) := by
  induction vs generalizing fs d with
  | nil =>
      have hsame : (fs.map field).findIdx? (fun f => f.isRequired)
          = fs.findIdx? fun f => f.2.isRequired := List.findIdx?_map
      simp only [Items.ofList, Record.ofItems, hsame] at h
      simp only [Items.ofList, ofItems]
      cases hmissing : fs.findIdx? fun f => f.2.isRequired with
      | some i =>
          rw [hmissing] at h
          cases h
      | none =>
          rw [hmissing] at h
          rw [Except.ok.inj h]
  | cons v vs ih =>
      rw [Items.ofList] at h ⊢
      cases fs with
      | nil => cases h
      | cons f fs =>
          obtain ⟨d', hput, hrest⟩ := bind_eq_ok h
          replace hput : d.put f.1 f.2 v (fun _ => ofJson true v) (fun _ => ofList v) = .ok d' := hput
          simp only [ofItems, hput]
          exact ih hrest

/-! ### The fields of a statement -/

/-- What a draft of the statement comes to. -/
def draft : Stmt → Draft
  | .call callee target args => { id := callee, stmt := some target, stmts := args }
  | .messageSend interface selector toInstance receiver args =>
    { id := interface, text := selector, flag := toInstance, stmt := receiver, stmts := args }
  | .blockLiteral decl => { id := some decl }
  | .addrOf operand => { stmt := some operand }
  | .declRef decl => { id := some decl }
  | .paren inner => { stmt := some inner }
  | .implicitCast inner => { stmt := some inner }
  | .other children => { stmts := children }

/-- Two drafts have the same field of this kind. -/
def FieldKind.Agrees (t d : Draft) : FieldKind → Prop
  | .id | .optionalId => t.id = d.id
  | .text => t.text = d.text
  | .flag => t.flag = d.flag
  | .stmt | .optionalStmt => t.stmt = d.stmt
  | .stmts => t.stmts = d.stmts

/-- What the value is read as, for a field of this kind, is what the draft has. -/
def FieldKind.Reads (t : Draft) (v : Json) : FieldKind → Prop
  | .id => ∃ id, v.asId = .ok id ∧ t.id = some id
  | .optionalId => v.asOptional Json.asId = .ok t.id
  | .text => v.asText = .ok t.text
  | .flag => v.asFlag = .ok t.flag
  | .stmt => ∃ s, ofJson true v = .ok s ∧ t.stmt = some s
  | .optionalStmt => v.asOptional (fun _ => ofJson true v) = .ok t.stmt
  | .stmts => ofList v = .ok t.stmts

/-- A field takes what its value is read as, and leaves the other kinds alone. -/
theorem exists_put_of_reads {t : Draft} {kind : FieldKind} {v : Json} (h : kind.Reads t v)
    (name : String) (d : Draft) :
    ∃ d', (field (name, kind)).put v d = .ok d' ∧ kind.Agrees t d'
      ∧ ∀ kind' : FieldKind, kind'.Agrees t d → kind'.Agrees t d' := by
  cases kind with
  | id | stmt =>
      obtain ⟨x, hv, hx⟩ := h
      refine exists_put hv ⟨hx, fun kind' hkind' => ?_⟩
      cases kind' <;> simp_all [FieldKind.Agrees]
  | optionalId | text | flag | optionalStmt | stmts =>
      refine exists_put h ⟨rfl, fun kind' hkind' => ?_⟩
      cases kind' <;> simp_all [FieldKind.Agrees]

/-- The fields of a statement with their cells. -/
def slots (s : Stmt) : List (Slot Draft) :=
  (s.tag.fields.zip s.cells).map fun x => ⟨field x.1, x.2, x.1.2.Agrees s.draft⟩

theorem slots_cells (s : Stmt) : s.slots.map Slot.cell = s.cells := by
  cases s <;> rw [slots, cells] <;> rfl

theorem Tag.form_names (t : Tag) : (t.form.fields.map Json.Field.name).Nodup := by
  cases t <;> decide

theorem names_nodup (s : Stmt) : ((s.tag.cell :: s.cells).map Cell.name).Nodup := by
  cases s <;> rw [cells] <;> simp [Tag.cell]

theorem build_of_holds {s : Stmt} {d : Draft} (h : ∀ x ∈ s.slots, x.Holds d) : d.build s.tag = s := by
  cases s
  all_goals
    rw [slots, cells] at h
    simp only [tag, Tag.fields, List.zip_cons_cons, List.zip_nil_right, List.map_cons, List.map_nil,
      List.forall_mem_cons, List.not_mem_nil, false_implies, implies_true, and_true, FieldKind.Agrees,
      draft] at h
    simp [tag, Draft.build, ← h]

/-- The cells are written by values that are read as the statement's fields. -/
def FieldsRead (s : Stmt) : Prop :=
  ∀ x ∈ s.tag.fields.zip s.cells, ∀ v, x.2.Writes v → v.fault? = none ∧ x.1.2.Reads s.draft v

theorem FieldsRead.readable {s : Stmt} (h : s.FieldsRead) : Readable (s.tag.cell :: s.cells) := by
  refine List.forall_mem_cons.mpr ⟨fun v hv => ?_, fun c hc v hv => ?_⟩
  · rw [show v = .str s.tag.name from hv]
    rfl
  · rw [← s.slots_cells, slots, List.map_map] at hc
    obtain ⟨x, hx, rfl⟩ := List.mem_map.mp hc
    exact (h x hx v hv).1

theorem FieldsRead.fits {s : Stmt} (h : s.FieldsRead) : s.tag.form.Fits s.slots where
  fields := by
    cases s <;> rw [slots, cells] <;> rfl
  names := s.tag.form_names
  name := by
    cases s <;> rw [slots, cells] <;> simp [tag, Tag.fields, field]
  put := by
    intro x hx v d hv
    obtain ⟨⟨⟨name, kind⟩, cell⟩, hmem, rfl⟩ := List.mem_map.mp hx
    obtain ⟨d', hput, hown, hothers⟩ := exists_put_of_reads (h _ hmem v hv).2 name d
    refine ⟨d', hput, hown, fun x' hx' hholds => ?_⟩
    obtain ⟨y, -, rfl⟩ := List.mem_map.mp hx'
    exact hothers y.1.2 hholds
  default := by
    cases s <;> rw [slots, cells] <;> simp [tag, Tag.fields, FieldKind.Agrees, draft, Tag.form]
  required := by
    cases s <;> rw [slots, cells] <;> simp [tag, Tag.fields, field, FieldKind.isRequired]

/-! ### The tag -/

theorem Tag.ofMembers_found (ahead : Bool) (t : Tag) {ms : List (String × Json)}
    (hfault : ∀ m ∈ ms, m.2.fault? = none) (hkind : "kind" ∉ ms.map Prod.fst) :
    Tag.ofMembers ahead (some t) (membersOf ms) = .ok t := by
  induction ms with
  | nil => rfl
  | cons m ms ih =>
      obtain ⟨hm, hms⟩ := List.forall_mem_cons.mp hfault
      rw [List.map_cons, List.mem_cons, not_or] at hkind
      obtain ⟨hne, hrest⟩ := hkind
      have hother : (m.1 == "kind") = false := beq_eq_false_iff_ne.mpr (Ne.symm hne)
      simp only [membersOf_cons, Tag.ofMembers, hother, hm]
      exact ih hms hrest

/-- The tag is found wherever it stands. -/
theorem Tag.ofMembers_eq_ok (ahead : Bool) {t : Tag} {ms : List (String × Json)}
    (hfault : ∀ m ∈ ms, m.2.fault? = none) (htag : ∀ m ∈ ms, m.1 = "kind" → m.2 = .str t.name)
    (hmem : "kind" ∈ ms.map Prod.fst) (honce : (ms.map Prod.fst).count "kind" ≤ 1) :
    Tag.ofMembers ahead none (membersOf ms) = .ok t := by
  induction ms with
  | nil => cases hmem
  | cons m ms ih =>
      obtain ⟨hm, hms⟩ := List.forall_mem_cons.mp hfault
      obtain ⟨hown, htag⟩ := List.forall_mem_cons.mp htag
      rw [List.map_cons] at hmem honce
      simp only [membersOf_cons, Tag.ofMembers]
      by_cases hkind : m.1 = "kind"
      · rw [hkind, List.count_cons_self] at honce
        have hrest : "kind" ∉ ms.map Prod.fst := List.count_eq_zero.mp (by omega)
        have hread : Tag.ofJson ahead (.str t.name) = .ok t := by
          rw [Tag.ofJson, Tag.ofName?_name]
        rw [if_pos (beq_iff_eq.mpr hkind), hown hkind, hread]
        exact Tag.ofMembers_found ahead t hms hrest
      · rw [if_neg (by simpa using hkind), hm]
        rw [List.count_cons_of_ne hkind] at honce
        exact ih hms htag ((List.mem_cons.mp hmem).resolve_left (Ne.symm hkind)) honce

/-! ### All spellings of a statement -/

theorem ofJson_object (ahead : Bool) {s : Stmt} (hfields : s.FieldsRead) {ms : List (String × Json)}
    (h : Json.Listing (s.tag.cell :: s.cells) ms) : ofJson ahead (.object ms) = .ok s := by
  have hclean := h.clean s.names_nodup
  have hfault : ∀ m ∈ ms, m.2.fault? = none := fun m hm => hclean.fault? hfields.readable hm
  have htag : Tag.ofMembers ahead none (membersOf ms) = .ok s.tag := by
    refine Tag.ofMembers_eq_ok ahead hfault (fun m hm hkind => ?_) ?_ ?_
    · exact hclean.writes m hm s.tag.cell (List.mem_cons_self ..) hkind.symm
    · by_contra habsent
      exact h.isDefault s.names_nodup (List.mem_cons_self ..) habsent
    · exact hclean.once s.tag.cell (List.mem_cons_self ..)
  -- For the fields the tag is one of the members that name none of them.
  have hothers : Clean (s.slots.map Slot.cell) ms := by
    rw [s.slots_cells]
    exact ⟨fun m hm c hc => hclean.writes m hm c (List.mem_cons_of_mem _ hc),
      fun c hc => hclean.once c (List.mem_cons_of_mem _ hc), fun m hm _ => hfault m hm⟩
  have hpending : Json.Pending s.slots [] s.tag.form.blank ms :=
    .start hfields.fits hothers fun c hc =>
      h.isDefault s.names_nodup (List.mem_cons_of_mem _ (s.slots_cells ▸ hc))
  obtain ⟨b, hb, hholds⟩ := Record.ofMembers_of_pending hfields.fits hpending
  have hgiven : ∀ k, k ∈ s.tag.form.blank.given ↔ k ∈ ([] : List String) := fun k => Iff.rfl
  have hread := ofMembers_of_form s.tag ms hgiven hb
  rw [build_of_holds hholds] at hread
  rw [Json.object_eq, ofJson, htag]
  exact hread

theorem ofJson_array (ahead : Bool) {s : Stmt} (hfields : s.FieldsRead) {front back : List Cell}
    {vs : List Json} (hcells : s.tag.cell :: s.cells = front ++ back)
    (hvs : List.Forall₂ Cell.Writes front vs) (hback : ∀ c ∈ back, c.IsDefault) :
    ofJson ahead (.array vs) = .ok s := by
  have hfront : Readable front := fun c hc =>
    hfields.readable c (hcells ▸ List.mem_append_left _ hc)
  have hfault := Json.fault?_of_writes hfront hvs
  cases hvs with
  | nil =>
      -- A list without entries would leave out the tag.
      have hmem : s.tag.cell ∈ back := by
        rw [List.nil_append] at hcells
        exact hcells ▸ List.mem_cons_self ..
      exact (hback s.tag.cell hmem).elim
  | @cons c v front vs hv hvs =>
      obtain ⟨rfl, hrest⟩ := List.cons.inj hcells
      have hentries : (Items.ofList .done vs).fault? = none :=
        Json.fault?_array (List.forall_mem_cons.mp hfault).2
      obtain ⟨b, hb, hholds⟩ := Record.ofItems_of_spelling hfields.fits
        (s.slots_cells.trans hrest) hvs hback
      have hread := ofItems_of_form s.tag vs hb
      rw [build_of_holds hholds] at hread
      obtain rfl : v = .str s.tag.name := hv
      have htag : Tag.ofJson ahead (.str s.tag.name) = .ok s.tag := by
        rw [Tag.ofJson, Tag.ofName?_name]
      simp only [Json.array, Items.ofList, ofJson, htag, hentries, bind, Except.bind]
      exact hread

theorem ofJson_of_fieldsRead (ahead : Bool) {s : Stmt} (hfields : s.FieldsRead) {v : Json}
    (h : s.Spells v) : ofJson ahead v = .ok s := by
  cases h with
  | object h => exact ofJson_object ahead hfields h
  | array hcells hvs hback => exact ofJson_array ahead hfields hcells hvs hback

/-- Whatever spells the statement is read as the statement. -/
def Decodes (s : Stmt) : Prop :=
  ∀ v, s.Spells v → v.fault? = none ∧ ∀ ahead, ofJson ahead v = .ok s

theorem reads_all {ss : List Stmt} (h : ∀ s ∈ ss, s.Decodes) (v : Json)
    (hv : ∃ vs, v = .array vs ∧ SpellsAll ss vs) : v.fault? = none ∧ ofList v = .ok ss := by
  obtain ⟨vs, rfl, hvs⟩ := hv
  rw [Json.array, ofList, Json.fault?]
  induction ss generalizing vs with
  | nil =>
      rw [SpellsAll] at hvs
      subst hvs
      exact ⟨rfl, rfl⟩
  | cons s ss ih =>
      rw [SpellsAll] at hvs
      obtain ⟨v, rest, rfl, hv, hrest⟩ := hvs
      obtain ⟨hs, hss⟩ := List.forall_mem_cons.mp h
      obtain ⟨hfault, hread⟩ := hs v hv
      obtain ⟨hfaults, hreads⟩ := ih hss rest hrest
      rw [Items.ofList, Items.fault?, hfault, ofAll, hread, hreads]
      exact ⟨hfaults, rfl⟩

theorem reads_option {part : Option Stmt} (h : ∀ s ∈ part.toList, s.Decodes) (ahead : Bool)
    (decode : Json → Json.Result Stmt) (v : Json) (hdecode : decode v = ofJson ahead v)
    (hv : SpellsOption part v) : v.fault? = none ∧ v.asOptional decode = .ok part := by
  cases part with
  | none =>
      rw [SpellsOption] at hv
      subst hv
      exact ⟨rfl, rfl⟩
  | some s =>
      rw [SpellsOption] at hv
      obtain ⟨hfault, hread⟩ := h s (List.mem_singleton_self s) v hv
      rw [Json.asOptional_of_ne_null hv.ne_null, hdecode, hread]
      exact ⟨hfault, rfl⟩

theorem reads_id (id : DeclId) (v : Json) (hv : v = idToJson (some id)) :
    v.fault? = none ∧ ∃ id', v.asId = .ok id' ∧ some id = some id' := by
  subst hv
  exact ⟨rfl, id, Json.roundTrips_id.decode_write id, rfl⟩

theorem reads_optionalId (id : Option DeclId) (v : Json) (hv : v = idToJson id) :
    v.fault? = none ∧ v.asOptional Json.asId = .ok id := by
  subst hv
  exact ⟨Json.fault?_eq_none _ (roundTrips_idToJson.plain id), roundTrips_idToJson.decode_write id⟩

theorem Decodes.reads {s : Stmt} (h : s.Decodes) (v : Json) (hv : s.Spells v) :
    v.fault? = none ∧ ∃ s', ofJson true v = .ok s' ∧ some s = some s' :=
  ⟨(h v hv).1, s, (h v hv).2 true, rfl⟩

/-- The fields of a statement are read as they are spelled if its parts are. -/
theorem fieldsRead {s : Stmt} (h : ∀ part ∈ s.children, part.Decodes) : s.FieldsRead := by
  cases s with
  | call callee target args =>
      obtain ⟨htarget, hargs⟩ := List.forall_mem_cons.mp h
      rw [FieldsRead, cells]
      simp only [tag, Tag.fields, List.zip_cons_cons, List.zip_nil_right, List.forall_mem_cons]
      exact ⟨reads_optionalId callee, htarget.reads, reads_all hargs, List.forall_mem_nil _⟩
  | messageSend interface selector toInstance receiver args =>
      obtain ⟨hreceiver, hargs⟩ := List.forall_mem_append.mp h
      rw [FieldsRead, cells]
      simp only [tag, Tag.fields, List.zip_cons_cons, List.zip_nil_right, List.forall_mem_cons]
      refine ⟨reads_optionalId interface, ?_, ?_, fun v => reads_option hreceiver true _ v rfl,
        reads_all hargs, List.forall_mem_nil _⟩
      · rintro v rfl
        exact ⟨rfl, rfl⟩
      · rintro v rfl
        exact ⟨rfl, rfl⟩
  | blockLiteral decl | declRef decl =>
      rw [FieldsRead, cells]
      exact List.forall_mem_singleton.mpr (reads_id decl)
  | addrOf part | paren part | implicitCast part =>
      rw [FieldsRead, cells]
      exact List.forall_mem_singleton.mpr (h part (List.mem_singleton_self part)).reads
  | other parts =>
      rw [FieldsRead, cells]
      exact List.forall_mem_singleton.mpr (reads_all h)

theorem decodes (s : Stmt) : s.Decodes := by
  induction s using inductionOn with
  | h s ih =>
  have hfields := fieldsRead ih
  intro v hv
  exact ⟨hv.fault? s.names_nodup hfields.readable, fun ahead => ofJson_of_fieldsRead ahead hfields hv⟩

/-! ## The full form is a spelling -/

theorem spellsAll_toJson {ss : List Stmt} (h : ∀ s ∈ ss, s.Spells s.toJson) :
    ∃ vs, Json.array (allToJson ss) = .array vs ∧ SpellsAll ss vs := by
  refine ⟨_, rfl, ?_⟩
  induction ss with
  | nil => rw [SpellsAll, allToJson]
  | cons s ss ih =>
      obtain ⟨hs, hss⟩ := List.forall_mem_cons.mp h
      rw [SpellsAll, allToJson]
      exact ⟨_, _, rfl, hs, ih hss⟩

theorem spellsOption_toJson {part : Option Stmt} (h : ∀ s ∈ part.toList, s.Spells s.toJson) :
    SpellsOption part (optionToJson part) := by
  cases part with
  | none => rw [SpellsOption, optionToJson]
  | some s =>
      rw [SpellsOption, optionToJson]
      exact h s (List.mem_singleton_self s)

theorem spells_toJson (s : Stmt) : s.Spells s.toJson := by
  induction s using inductionOn with
  | h s ih =>
  cases s with
  | call callee target args =>
      obtain ⟨htarget, hargs⟩ := List.forall_mem_cons.mp ih
      rw [Spells, toJson, cells, tagged]
      exact .object (.whole (.cons ⟨rfl, rfl⟩ (.cons ⟨rfl, rfl⟩ (.cons ⟨rfl, htarget⟩
        (.cons ⟨rfl, spellsAll_toJson hargs⟩ .nil)))))
  | messageSend interface selector toInstance receiver args =>
      obtain ⟨hreceiver, hargs⟩ := List.forall_mem_append.mp ih
      rw [Spells, toJson, cells, tagged]
      exact .object (.whole (.cons ⟨rfl, rfl⟩ (.cons ⟨rfl, rfl⟩ (.cons ⟨rfl, rfl⟩ (.cons ⟨rfl, rfl⟩
        (.cons ⟨rfl, spellsOption_toJson hreceiver⟩ (.cons ⟨rfl, spellsAll_toJson hargs⟩ .nil)))))))
  | blockLiteral decl | declRef decl =>
      rw [Spells, toJson, cells, tagged]
      exact .object (.whole (.cons ⟨rfl, rfl⟩ (.cons ⟨rfl, rfl⟩ .nil)))
  | addrOf part | paren part | implicitCast part =>
      have hpart := ih part (List.mem_singleton_self part)
      rw [Spells, toJson, cells, tagged]
      exact .object (.whole (.cons ⟨rfl, rfl⟩ (.cons ⟨rfl, hpart⟩ .nil)))
  | other parts =>
      rw [Spells, toJson, cells, tagged]
      exact .object (.whole (.cons ⟨rfl, rfl⟩ (.cons ⟨rfl, spellsAll_toJson ih⟩ .nil)))

end Stmt

end CallGraph
