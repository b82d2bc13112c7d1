import CallGraph.Proofs.JsonText
import CallGraph.Proofs.Statements
import CallGraph.SourceUnit.Form

/-!
# Units are read as they are written

A unit that is written as JSON text and read again is the same unit (`readValid_render`). That the text
gives back the JSON value is known (`Json.Document.ofString_render`), so what is left is that the value
gives back the unit, and that the value is one of those that have a text. Both are said at once by
`Json.RoundTrips`, and both go over from the parts to the whole: from scalars to lists and optional
values, from the fields of a record to the record, from the parts of a statement to the statement.

Records are written with all their fields in order. Each field then finds its place, because no two
have the same name, and what has been put in does not depend on the values one starts from, because
every field is put in (`Json.Record.decode_object`).
-/

namespace CallGraph

namespace Json

/-! ## What is written has a text -/

theorem plain_array {vs : List Json} (h : ∀ v ∈ vs, v.Plain) : (array vs).Plain := by
  rw [array, Plain]
  induction vs with
  | nil => trivial
  | cons v vs ih =>
      obtain ⟨hv, hvs⟩ := List.forall_mem_cons.mp h
      exact ⟨hv, ih hvs⟩

theorem plain_object {ms : List (String × Json)} (h : ∀ m ∈ ms, m.2.Plain) : (object ms).Plain := by
  rw [object, Plain]
  induction ms with
  | nil => trivial
  | cons m ms ih =>
      obtain ⟨hm, hms⟩ := List.forall_mem_cons.mp h
      exact ⟨hm, ih hms⟩

mutual

theorem fault?_eq_none : (v : Json) → v.Plain → v.fault? = none
  | .null, _ | .bool _, _ | .num _, _ | .str _, _ => rfl
  | .arr items, h => Items.fault?_eq_none items h
  | .obj members, h => Members.fault?_eq_none members h
  | .missing _, h | .flawed _ _ _, h | .deep _, h => h.elim

theorem Items.fault?_eq_none : (items : Items) → items.Plain → items.fault? = none
  | .done, _ => rfl
  | .stop _, h | .dangling _, h => h.elim
  | .item v rest, h => by
    rw [Items.fault?, Json.fault?_eq_none v h.1]
    exact Items.fault?_eq_none rest h.2

theorem Members.fault?_eq_none : (members : Members) → members.Plain → members.fault? = none
  | .done, _ => rfl
  | .stop _, h | .dangling _, h | .member (.error _) _ _, h => h.elim
  | .member (.ok _) v rest, h => by
    rw [Members.fault?, Json.fault?_eq_none v h.1]
    exact Members.fault?_eq_none rest h.2

end

/-! ## Writing and decoding -/

/-- What is written has a text, and is decoded to what it was. -/
structure RoundTrips {α : Type} (write : α → Json) (decode : Json → Result α) : Prop where
  plain : ∀ a, (write a).Plain
  decode_write : ∀ a, decode (write a) = .ok a

theorem roundTrips_text : RoundTrips str asText :=
  ⟨fun _ => trivial, fun _ => rfl⟩

theorem roundTrips_flag : RoundTrips bool asFlag :=
  ⟨fun _ => trivial, fun _ => rfl⟩

theorem roundTrips_id : RoundTrips (fun id => Stmt.idToJson (some id)) asId where
  plain id := by
    have := id.toNat_lt
    simp only [Stmt.idToJson, Plain, maxWord, UInt64.size]
    omega
  decode_write id := by
    simp [Stmt.idToJson, asId, id.toNat_lt]

variable {α : Type} {write : α → Json} {decode : Json → Result α}

theorem Items.decode_ofList {as : List α} (h : ∀ a ∈ as, decode (write a) = .ok a) :
    (Items.ofList .done (as.map write)).decode decode = .ok as := by
  induction as with
  | nil => rfl
  | cons a as ih =>
      obtain ⟨ha, has⟩ := List.forall_mem_cons.mp h
      simp only [List.map_cons, Items.ofList, Items.decode, ha, ih has]
      rfl

theorem Members.decode_ofList (h : ∀ a, decode (write a) = .ok a) (ms : List (String × α)) :
    (Members.ofList .done (ms.map fun m => (.ok m.1, write m.2))).decode decode = .ok ms := by
  induction ms with
  | nil => rfl
  | cons m ms ih =>
      simp only [List.map_cons, Members.ofList, Members.decode, h, ih]
      rfl

theorem RoundTrips.list (h : RoundTrips write decode) :
    RoundTrips (fun as => array (as.map write)) (asList decode) where
  plain as := plain_array (by simpa using fun a _ => h.plain a)
  decode_write as := Items.decode_ofList fun a _ => h.decode_write a

theorem asOptional_of_ne_null {v : Json} (hv : v ≠ .null) :
    asOptional decode v = (decode v).map some := by
  unfold asOptional
  split
  · exact absurd rfl hv
  · rfl

theorem RoundTrips.optional (h : RoundTrips write decode) (hnull : ∀ a, write a ≠ .null) :
    RoundTrips (fun a => (a.map write).getD .null) (asOptional decode) where
  plain a := by
    cases a with
    | none => trivial
    | some a => exact h.plain a
  decode_write a := by
    cases a with
    | none => rfl
    | some a =>
        exact (asOptional_of_ne_null (hnull a)).trans (by rw [h.decode_write]; rfl)

/-! ## Records -/

namespace Record

variable {r : Record α}

theorem find?_name {fs : List (Field α)} (hnames : (fs.map Field.name).Nodup) {f : Field α}
    (hf : f ∈ fs) : (fs.find? fun g => g.name == f.name) = some f := by
  induction fs with
  | nil => cases hf
  | cons g fs ih =>
      obtain ⟨hg, hfs⟩ := List.nodup_cons.mp hnames
      rcases List.mem_cons.mp hf with rfl | hf
      · simp
      · have hne : g.name ≠ f.name := fun h => hg (h ▸ List.mem_map_of_mem hf)
        rw [List.find?_cons_of_neg (by simpa using hne), ih hfs hf]

/-- The members of an object are put in one after the other, provided that each names a field, none
names one that is given already, and the required fields are given in the end. -/
theorem ofMembers_ofList (hnames : (r.fields.map Field.name).Nodup)
    (entries : List (Field α × Json)) (given : List String) (a : α)
    (hfields : ∀ e ∈ entries, e.1 ∈ r.fields)
    (hfresh : (entries.map (·.1.name)).Nodup) (hgiven : ∀ e ∈ entries, e.1.name ∉ given)
    (hrequired : ∀ f ∈ r.fields, f.isRequired = true →
      f.name ∈ given ∨ f.name ∈ entries.map (·.1.name)) :
    r.ofMembers given a (Members.ofList .done (entries.map fun e => (.ok e.1.name, e.2)))
      = entries.foldlM (fun a e => e.1.put e.2 a) a := by
  induction entries generalizing given a with
  | nil =>
      have hnone : (r.fields.find? fun f => f.isRequired && !given.contains f.name) = none := by
        refine List.find?_eq_none.mpr fun f hf hmissing => ?_
        simp only [Bool.and_eq_true, Bool.not_eq_true', List.contains_eq_mem, decide_eq_false_iff_not]
          at hmissing
        exact (hrequired f hf hmissing.1).elim hmissing.2 nofun
      simp only [List.map_nil, Members.ofList, ofMembers, hnone]
      rfl
  | cons e entries ih =>
      obtain ⟨hfield, hfields⟩ := List.forall_mem_cons.mp hfields
      obtain ⟨hnew, hgiven⟩ := List.forall_mem_cons.mp hgiven
      obtain ⟨honce, hfresh⟩ := List.nodup_cons.mp hfresh
      simp only [List.map_cons, Members.ofList, ofMembers, find?_name hnames hfield,
        List.contains_eq_mem, hnew, decide_false, List.foldlM_cons]
      refine congrArg (e.1.put e.2 a >>= ·) (funext fun b => ih (e.1.name :: given) b hfields hfresh
        (fun x hx hmem => ?_) fun f hf hreq => ?_)
      · rcases List.mem_cons.mp hmem with hsame | hmem
        · exact honce (List.mem_map.mpr ⟨x, hx, hsame⟩)
        · exact hgiven x hx hmem
      · have := hrequired f hf hreq
        simp only [List.map_cons, List.mem_cons] at this ⊢
        tauto

/-- An object with all fields in order. -/
theorem decode_object (hnames : (r.fields.map Field.name).Nodup) {ms : List (String × Json)}
    (hms : ms.map Prod.fst = r.fields.map Field.name) :
    r.decode (object ms)
      = (r.fields.zip (ms.map Prod.snd)).foldlM (fun a e => e.1.put e.2 a) r.blank := by
  have hentries : ms = (r.fields.zip (ms.map Prod.snd)).map fun e => (e.1.name, e.2) := by
    calc ms = (ms.map Prod.fst).zip (ms.map Prod.snd) := List.zip_of_prod rfl rfl
      _ = (r.fields.zip (ms.map Prod.snd)).map (Prod.map Field.name id) := by
        rw [hms, List.zip_map_left]
  have hname : (r.fields.zip (ms.map Prod.snd)).map (·.1.name) = r.fields.map Field.name := by
    conv_rhs => rw [← hms, hentries, List.map_map]
    rfl
  rw [object, decode]
  conv_lhs => rw [hentries, List.map_map]
  refine ofMembers_ofList hnames _ [] r.blank (fun e he => (List.of_mem_zip he).1) (hname ▸ hnames)
    (fun _ _ => nofun) fun f hf _ => Or.inr ?_
  exact hname ▸ List.mem_map_of_mem hf

end Record

end Json

/-! ## Method tables -/

namespace MethodTable

theorem insertEntry_of_lt {e : String × DeclId} {l : List (String × DeclId)}
    (h : ∀ x ∈ l, x.1 < e.1) : insertEntry e l = l ++ [e] := by
  induction l with
  | nil => rfl
  | cons a l ih =>
      obtain ⟨ha, hl⟩ := List.forall_mem_cons.mp h
      rw [insertEntry, if_neg (String.lt_asymm ha), if_neg (String.ne_of_lt ha).symm, ih hl]
      rfl

theorem foldl_insert {l : List (String × DeclId)} {t : MethodTable}
    (h : (t.entries ++ l).Pairwise fun a b => a.1 < b.1) :
    (l.foldl (fun t e => t.insert e.1 e.2) t).entries = t.entries ++ l := by
  induction l generalizing t with
  | nil => simp
  | cons e l ih =>
      have hlast : ∀ x ∈ t.entries, x.1 < e.1 := fun x hx =>
        (List.pairwise_append.mp h).2.2 x hx e (List.mem_cons_self ..)
      have hinsert : (t.insert e.1 e.2).entries = t.entries ++ [e] := insertEntry_of_lt hlast
      rw [List.foldl_cons, ih (by simpa [hinsert] using h), hinsert, List.append_assoc]
      rfl

theorem ofList_entries (t : MethodTable) : ofList t.entries = t := by
  have h : (ofList t.entries).entries = t.entries := foldl_insert t.ascending
  generalize ofList t.entries = t' at h
  cases t
  cases t'
  simpa using h

theorem roundTrips : Json.RoundTrips toJson ofJson where
  plain t := by
    refine Json.plain_object fun m hm => ?_
    obtain ⟨e, -, rfl⟩ := List.mem_map.mp hm
    exact Json.roundTrips_id.plain e.2
  decode_write t := by
    have hdecode : t.toJson.asTable Json.asId = .ok t.entries := by
      rw [toJson, Json.object, Json.asTable, List.map_map]
      exact Json.Members.decode_ofList Json.roundTrips_id.decode_write t.entries
    rw [ofJson, hdecode]
    exact congrArg Except.ok t.ofList_entries

end MethodTable

/-! ## Statements -/

namespace Stmt

theorem allToJson_eq_map (ss : List Stmt) : allToJson ss = ss.map toJson := by
  induction ss with
  | nil => rfl
  | cons s ss ih => rw [allToJson, ih, List.map_cons]

theorem roundTrips_idToJson : Json.RoundTrips idToJson (Json.asOptional Json.asId) where
  plain id := by
    cases id with
    | none => trivial
    | some id => exact Json.roundTrips_id.plain id
  decode_write id := by
    cases id with
    | none => rfl
    | some id => exact congrArg (Except.map some) (Json.roundTrips_id.decode_write id)

theorem plain_tagged {tag : Tag} {fs : List (String × Json)} (h : ∀ f ∈ fs, f.2.Plain) :
    (tagged tag fs).Plain :=
  Json.plain_object (List.forall_mem_cons.mpr ⟨trivial, h⟩)

theorem plain_all {ss : List Stmt} (h : ∀ s ∈ ss, s.toJson.Plain) :
    (Json.array (allToJson ss)).Plain := by
  rw [allToJson_eq_map]
  exact Json.plain_array (by simpa using h)

theorem plain_toJson (s : Stmt) : s.toJson.Plain := by
  induction s using inductionOn with
  | h s ih =>
  cases s with
  | call callee target args =>
      obtain ⟨htarget, hargs⟩ := List.forall_mem_cons.mp ih
      exact plain_tagged (by simp [roundTrips_idToJson.plain, htarget, plain_all hargs])
  | messageSend interface selector toInstance receiver args =>
      obtain ⟨hreceiver, hargs⟩ := List.forall_mem_append.mp ih
      have hopt : (optionToJson receiver).Plain := by
        cases receiver with
        | none => trivial
        | some s => exact hreceiver s (List.mem_singleton_self s)
      exact plain_tagged (by simp [roundTrips_idToJson.plain, Json.roundTrips_text.plain,
        Json.roundTrips_flag.plain, hopt, plain_all hargs])
  | blockLiteral decl | declRef decl => exact plain_tagged (by simp [roundTrips_idToJson.plain])
  | addrOf part | paren part | implicitCast part =>
      exact plain_tagged (by simpa using ih part (List.mem_singleton_self part))
  | other parts => exact plain_tagged (List.forall_mem_singleton.mpr (plain_all ih))

/-- The tag stands in front, so what is left of the object are the fields. -/
theorem ofJson_tagged (ahead : Bool) {tag : Tag} {fs : List (String × Json)}
    (hplain : (tagged tag fs).Plain) (hkind : ∀ f ∈ fs, f.1 ≠ "kind") :
    ofJson ahead (tagged tag fs)
      = (ofMembers tag {} (Json.Members.ofList .done (fs.map fun f => (.ok f.1, f.2)))
          >>= fun draft => draft.ofObject tag) := by
  have hfields : Tag.ofMembers ahead (some tag)
      (Json.Members.ofList .done (fs.map fun f => (.ok f.1, f.2))) = .ok tag := by
    replace hplain := hplain.2
    induction fs with
    | nil => rfl
    | cons f fs ih =>
        obtain ⟨hne, hkind⟩ := List.forall_mem_cons.mp hkind
        obtain ⟨hf, hfs⟩ := hplain
        simp [Json.Members.ofList, Tag.ofMembers, hne, Json.fault?_eq_none _ hf, ih hkind hfs]
  have htag : Tag.ofJson ahead (.str tag.name) = .ok tag := by
    rw [Tag.ofJson, Tag.ofName?_name]
  simp [tagged, Json.object, ofJson, Json.Members.ofList, Tag.ofMembers, htag, hfields, ofMembers,
    bind, Except.bind]

theorem ofList_all {ss : List Stmt} (h : ∀ s ∈ ss, ofJson true s.toJson = .ok s) :
    ofList (.array (allToJson ss)) = .ok ss := by
  rw [Json.array, ofList, allToJson_eq_map]
  induction ss with
  | nil => rfl
  | cons s ss ih =>
      obtain ⟨hs, hss⟩ := List.forall_mem_cons.mp h
      simp only [List.map_cons, Json.Items.ofList, ofAll, hs, ih hss]
      rfl

theorem toJson_ne_null (s : Stmt) : s.toJson ≠ .null := by
  cases s <;> simp [toJson, tagged, Json.object]

theorem asOptional_optionToJson {part : Option Stmt}
    (h : ∀ s ∈ part.toList, ofJson true s.toJson = .ok s) :
    (optionToJson part).asOptional (fun _ => ofJson true (optionToJson part)) = .ok part := by
  cases part with
  | none => rfl
  | some s =>
      rw [optionToJson, Json.asOptional_of_ne_null s.toJson_ne_null,
        h s (List.mem_singleton_self s)]
      rfl

theorem ofJson_toJson (ahead : Bool) (s : Stmt) : ofJson ahead s.toJson = .ok s := by
  induction s using inductionOn generalizing ahead with
  | h s ih =>
  -- The parts lie inside a value that has been read ahead, however the statement itself is read.
  have hpart : ∀ part ∈ s.children, ofJson true part.toJson = .ok part := fun part hmem =>
    ih part hmem true
  have hparts : ∀ ss ⊆ s.children, ofList (.array (allToJson ss)) = .ok ss := fun ss hsub =>
    ofList_all fun part hmem => hpart part (hsub hmem)
  have hreceiver : ∀ part, part.toList ⊆ s.children →
      (optionToJson part).asOptional (fun _ => ofJson true (optionToJson part)) = .ok part :=
    fun part hsub => asOptional_optionToJson fun s hmem => hpart s (hsub hmem)
  have hplain := plain_toJson s
  -- What is left is to go through the fields of each shape.
  cases s
  all_goals
    rw [toJson] at hplain ⊢
    rw [ofJson_tagged ahead hplain (by simp)]
    simp only [children] at hpart hparts hreceiver
    simp [Json.Members.ofList, ofMembers, Tag.fields, List.lookup_cons, Draft.put, Draft.ofObject,
      Draft.build, FieldKind.isRequired, bind, Except.bind, pure, Except.pure, Json.asText,
      Json.asFlag, Json.roundTrips_id.decode_write, roundTrips_idToJson.decode_write, hpart, hparts,
      hreceiver]

theorem roundTrips (ahead : Bool) : Json.RoundTrips toJson (ofJson ahead) :=
  ⟨plain_toJson, ofJson_toJson ahead⟩

end Stmt

/-! ## Declarations and units -/

theorem DeclKind.roundTrips : Json.RoundTrips toJson ofJson where
  plain _ := trivial
  decode_write k := by
    rw [toJson, ofJson, ofNameOrError, ofName?_name]

namespace Decl

theorem form_names (ahead : Bool) : ((form ahead).fields.map Json.Field.name).Nodup := by
  simp [form, Json.Field.optional, Json.Field.required]

theorem roundTrips_name : Json.RoundTrips (fun s => (s.map Json.str).getD .null)
    (Json.asOptional Json.asText) :=
  Json.roundTrips_text.optional fun _ => nofun

theorem roundTrips_body (ahead : Bool) : Json.RoundTrips (fun s => (s.map Stmt.toJson).getD .null)
    (Json.asOptional (Stmt.ofJson ahead)) :=
  (Stmt.roundTrips ahead).optional Stmt.toJson_ne_null

theorem plain_toJson (d : Decl) : d.toJson.Plain := by
  refine Json.plain_object ?_
  simp [Stmt.roundTrips_idToJson.plain, DeclKind.roundTrips.plain, roundTrips_name.plain,
    Json.roundTrips_flag.plain, Json.roundTrips_id.list.plain, Json.roundTrips_text.list.plain,
    (roundTrips_body true).plain, MethodTable.roundTrips.plain]

theorem ofJson_toJson (ahead : Bool) (d : Decl) : ofJson ahead d.toJson = .ok d := by
  rw [ofJson, toJson, (form ahead).decode_object (form_names ahead) rfl]
  simp [form, Json.Field.optional, Json.Field.required, bind, Except.bind, pure, Except.pure,
    Json.roundTrips_id.decode_write, DeclKind.roundTrips.decode_write,
    roundTrips_name.decode_write, Stmt.roundTrips_idToJson.decode_write,
    Json.roundTrips_flag.decode_write, Json.roundTrips_id.list.decode_write,
    Json.roundTrips_text.list.decode_write, (roundTrips_body ahead).decode_write,
    MethodTable.roundTrips.decode_write]

theorem roundTrips (ahead : Bool) : Json.RoundTrips toJson (ofJson ahead) :=
  ⟨plain_toJson, ofJson_toJson ahead⟩

end Decl

namespace SourceUnit

theorem form_names (ahead : Bool) : ((form ahead).fields.map Json.Field.name).Nodup := by
  simp [form, Json.Field.optional, Json.Field.required]

theorem plain_toJson (u : SourceUnit) : u.toJson.Plain := by
  refine Json.plain_object ?_
  simp [Json.roundTrips_text.plain, (Decl.roundTrips true).list.plain,
    Json.roundTrips_id.list.plain]

theorem ofJson_toJson (ahead : Bool) (u : SourceUnit) : ofJson ahead u.toJson = .ok u := by
  rw [ofJson, toJson, (form ahead).decode_object (form_names ahead) rfl]
  simp [form, Json.Field.optional, Json.Field.required, bind, Except.bind, pure, Except.pure,
    Json.roundTrips_text.decode_write, (Decl.roundTrips ahead).list.decode_write,
    Json.roundTrips_id.list.decode_write]

theorem read_render {u : SourceUnit} (hdepth : u.toJson.depth ≤ Json.nestingLimit) :
    read u.toJson.render = .ok u := by
  rw [read, Json.decodeText, Json.Document.ofString_render u.plain_toJson hdepth]
  simp only [ofJson_toJson]
  rfl

theorem readValid_eq_ok_iff {text : String} {u : SourceUnit} :
    readValid text = .ok u ↔ read text = .ok u ∧ u.error? = none := by
  unfold readValid
  cases read text with
  | error e => simp
  | ok u' => grind

theorem error?_of_readValid {text : String} {u : SourceUnit} (h : readValid text = .ok u) :
    u.error? = none :=
  (readValid_eq_ok_iff.mp h).2

/-- **Units are read as they are written.** Whether the unit is valid is found out behind that, and a
unit that has been read once can be written and read again. -/
theorem readValid_render {u : SourceUnit} (hdepth : u.toJson.depth ≤ Json.nestingLimit) :
    read u.toJson.render = .ok u
    ∧ (u.error? = none → readValid u.toJson.render = .ok u)
    ∧ (∀ e, u.error? = some e → readValid u.toJson.render = .error (.invalid e))
    ∧ ∀ text, readValid text = .ok u → readValid u.toJson.render = .ok u := by
  have hread := read_render hdepth
  have hvalid (h : u.error? = none) : readValid u.toJson.render = .ok u := by
    simp [readValid, hread, h]
  refine ⟨hread, hvalid, fun e he => ?_, fun text htext => hvalid (error?_of_readValid htext)⟩
  simp [readValid, hread, he]

/-- An interface and a method of it, under names that a text cannot hold as they are. -/
def quoted : SourceUnit where
  name := "a \"quoted\" \\ name\n\x01é"
  decls := #[
    { Decl.ofName .interface "I" with id := 0, instanceMethods := .ofList [("run:\t", 1)] },
    { Decl.ofName .objCMethod "run:\t" with
      id := 1, body := some (.other [.message 0 "run:\t" true, .paren (.addressOf 1)]) }]
  topLevel := [1, 0]

theorem readValid_render_quoted :
    quoted.toJson.depth = 8 ∧ quoted.error? = none
    ∧ readValid quoted.toJson.render = .ok quoted := by
  have hdepth : quoted.toJson.depth = 8 := by decide
  have herror : quoted.error? = none := by decide
  exact ⟨hdepth, herror, (readValid_render (by rw [hdepth]; decide)).2.1 herror⟩

end SourceUnit

end CallGraph
