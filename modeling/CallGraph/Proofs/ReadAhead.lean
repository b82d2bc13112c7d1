import CallGraph.Proofs.JsonText
import CallGraph.SourceUnit.Form
import Mathlib.Data.List.Forall2

/-!
# Units that have been read ahead

A unit is taken from its text as it is read, or from a value that has been read ahead as a whole. Inside
the latter a statement may give its tag by number, so more is accepted there. What is accepted without
reading ahead is well formed to its end, also where it is only skipped, and has the same meaning when it
has been read ahead (`SourceUnit.refines_ofJson`). This is `Json.Refines`, which goes over from fields
to records and from the parts of lists and optional values to the whole.
-/

namespace CallGraph

namespace Json

mutual

/-- What can be read can be skipped. -/
theorem skipFault?_of_fault? : (v : Json) → v.fault? = none → v.skipFault? = none
  | .null, _ | .bool _, _ | .num _, _ | .str _, _ => rfl
  | .arr items, h => Items.skipFault?_of_fault? items h
  | .obj members, h => Members.skipFault?_of_fault? members h
  | .missing _, h | .flawed _ _ _, h | .deep _, h => nomatch h

theorem Items.skipFault?_of_fault? : (items : Items) → items.fault? = none → items.skipFault? = none
  | .done, _ => rfl
  | .stop _, h | .dangling _, h => nomatch h
  | .item v rest, h => by
    rw [Items.fault?] at h
    split at h
    · cases h
    next hv =>
      rw [Items.skipFault?, Json.skipFault?_of_fault? v hv]
      exact Items.skipFault?_of_fault? rest h

theorem Members.skipFault?_of_fault? :
    (members : Members) → members.fault? = none → members.skipFault? = none
  | .done, _ => rfl
  | .stop _, h | .dangling _, h | .member (.error _) _ _, h => nomatch h
  | .member (.ok _) v rest, h => by
    rw [Members.fault?] at h
    split at h
    · cases h
    next hv =>
      rw [Members.skipFault?, Json.skipFault?_of_fault? v hv]
      exact Members.skipFault?_of_fault? rest h

end

/-! ## One decoder accepts what another accepts -/

/-- What `decode` accepts is well formed, and `decode'` takes it for the same. -/
def Refines {α : Type} (decode decode' : Json → Result α) : Prop :=
  ∀ v a, decode v = .ok a → v.skipFault? = none ∧ decode' v = .ok a

theorem refines_text : Refines asText asText := by
  intro v a h
  refine ⟨?_, h⟩
  cases v <;> first | rfl | cases h

theorem refines_flag : Refines asFlag asFlag := by
  intro v a h
  refine ⟨?_, h⟩
  cases v <;> first | rfl | cases h

theorem refines_id : Refines asId asId := by
  intro v a h
  refine ⟨?_, h⟩
  cases v <;> first | rfl | cases h

/-- From a computation that succeeds in two steps, the first of them. -/
theorem bind_eq_ok {α β : Type} {x : Result α} {f : α → Result β} {b : β} (h : x >>= f = .ok b) :
    ∃ a, x = .ok a ∧ f a = .ok b := by
  cases x with
  | error e => cases h
  | ok a => exact ⟨a, rfl, h⟩

section

variable {α : Type} {decode decode' : Json → Result α}

theorem Refines.optional (h : Refines decode decode') :
    Refines (asOptional decode) (asOptional decode') := by
  intro v a hv
  by_cases hnull : v = .null
  · subst hnull
    exact ⟨rfl, hv⟩
  · have hmap : ∀ decode : Json → Result α, asOptional decode v = (decode v).map some := by
      intro decode
      cases v <;> first | rfl | exact absurd rfl hnull
    rw [hmap] at hv ⊢
    cases hdecode : decode v with
    | error e =>
        rw [hdecode] at hv
        cases hv
    | ok b =>
        obtain ⟨hskip, hdecode'⟩ := h v b hdecode
        rw [hdecode] at hv
        exact ⟨hskip, hdecode' ▸ hv⟩

theorem Items.decode_refines (h : Refines decode decode') :
    (items : Items) → ∀ as, items.decode decode = .ok as →
      items.skipFault? = none ∧ items.decode decode' = .ok as
  | .done, as, hitems => ⟨rfl, hitems⟩
  | .stop _, _, hitems | .dangling _, _, hitems => nomatch hitems
  | .item v rest, as, hitems => by
    obtain ⟨b, hv, hitems⟩ := bind_eq_ok hitems
    obtain ⟨bs, hrest, hitems⟩ := bind_eq_ok hitems
    obtain ⟨hskip, hv'⟩ := h v b hv
    obtain ⟨hskips, hrest'⟩ := decode_refines h rest bs hrest
    refine ⟨by rw [Items.skipFault?, hskip]; exact hskips, ?_⟩
    rw [Items.decode, hv', hrest']
    exact hitems

theorem Refines.list (h : Refines decode decode') : Refines (asList decode) (asList decode') := by
  intro v as hv
  cases v with
  | arr items => exact Items.decode_refines h items as hv
  | _ => cases hv

theorem Members.decode_refines (h : Refines decode decode') :
    (members : Members) → ∀ as, members.decode decode = .ok as →
      members.skipFault? = none ∧ members.decode decode' = .ok as
  | .done, as, hmembers => ⟨rfl, hmembers⟩
  | .stop _, _, hmembers | .dangling _, _, hmembers | .member (.error _) _ _, _, hmembers =>
    nomatch hmembers
  | .member (.ok k) v rest, as, hmembers => by
    obtain ⟨b, hv, hmembers⟩ := bind_eq_ok hmembers
    obtain ⟨bs, hrest, hmembers⟩ := bind_eq_ok hmembers
    obtain ⟨hskip, hv'⟩ := h v b hv
    obtain ⟨hskips, hrest'⟩ := decode_refines h rest bs hrest
    refine ⟨by rw [Members.skipFault?, hskip]; exact hskips, ?_⟩
    rw [Members.decode, hv', hrest']
    exact hmembers

theorem Refines.table (h : Refines decode decode') : Refines (asTable decode) (asTable decode') := by
  intro v as hv
  cases v with
  | obj members => exact Members.decode_refines h members as hv
  | _ => cases hv

end

/-! ## Records -/

/-- The fields are the same but for how their values are decoded. -/
structure Field.Refines {α : Type} (f f' : Field α) : Prop where
  name_eq : f.name = f'.name
  isRequired_eq : f.isRequired = f'.isRequired
  put_refines : ∀ v a b, f.put v a = .ok b → v.skipFault? = none ∧ f'.put v a = .ok b

theorem Refines.put {α β : Type} {decode decode' : Json → Result β} (h : Refines decode decode')
    (set : β → α → α) (v : Json) (a b : α) (hput : (do return set (← decode v) a) = Except.ok b) :
    v.skipFault? = none ∧ (do return set (← decode' v) a) = (Except.ok b : Result α) := by
  obtain ⟨x, hx, hput⟩ := bind_eq_ok hput
  obtain ⟨hskip, hx'⟩ := h v x hx
  rw [hx']
  exact ⟨hskip, hput⟩

theorem Refines.optionalField {α β : Type} {decode decode' : Json → Result β}
    (h : Refines decode decode') (name : String) (set : β → α → α) :
    (Field.optional name decode set).Refines (.optional name decode' set) :=
  ⟨rfl, rfl, h.put set⟩

theorem Refines.requiredField {α β : Type} {decode decode' : Json → Result β}
    (h : Refines decode decode') (name : String) (set : β → α → α) :
    (Field.required name decode set).Refines (.required name decode' set) :=
  ⟨rfl, rfl, h.put set⟩

/-- The records have the same fields but for how their values are decoded. -/
structure Record.Refines {α : Type} (r r' : Record α) : Prop where
  blank_eq : r.blank = r'.blank
  fields : List.Forall₂ Field.Refines r.fields r'.fields

namespace Record

variable {α : Type}

/-- A search that only looks at names and at which fields have to be given finds the same field. -/
theorem find?_refines (p : String → Bool → Bool) {fields fields' : List (Field α)}
    (h : List.Forall₂ Field.Refines fields fields') :
    (fields.find? (fun f => p f.name f.isRequired) = none
      ∧ fields'.find? (fun f => p f.name f.isRequired) = none)
    ∨ ∃ f f', fields.find? (fun f => p f.name f.isRequired) = some f
      ∧ fields'.find? (fun f => p f.name f.isRequired) = some f' ∧ f.Refines f' := by
  induction h with
  | nil => exact Or.inl ⟨rfl, rfl⟩
  | @cons f f' fields fields' hf hfields ih =>
      rw [List.find?_cons, List.find?_cons, ← hf.name_eq, ← hf.isRequired_eq]
      cases p f.name f.isRequired with
      | true => exact Or.inr ⟨f, f', rfl, rfl, hf⟩
      | false => exact ih

theorem findIdx?_refines {fields fields' : List (Field α)}
    (h : List.Forall₂ Field.Refines fields fields')
    (hnone : fields.findIdx? (fun f => f.isRequired) = none) :
    fields'.findIdx? (fun f => f.isRequired) = none := by
  rw [List.findIdx?_eq_none_iff] at hnone ⊢
  induction h with
  | nil => simp
  | cons hf hfields ih =>
      obtain ⟨hfirst, hrest⟩ := List.forall_mem_cons.mp hnone
      exact List.forall_mem_cons.mpr ⟨hf.isRequired_eq ▸ hfirst, ih hrest⟩

theorem ofMembers_refines {r r' : Record α} (h : r.Refines r') :
    (members : Members) → ∀ given a b, r.ofMembers given a members = .ok b →
      members.skipFault? = none ∧ r'.ofMembers given a members = .ok b
  | .done, given, a, b, hmembers => by
    rw [ofMembers] at hmembers ⊢
    rcases find?_refines (fun name isRequired => isRequired && !given.contains name) h.fields with
      ⟨hnone, hnone'⟩ | ⟨f, f', hsome, -, -⟩
    · rw [hnone] at hmembers
      rw [hnone']
      exact ⟨rfl, hmembers⟩
    · rw [hsome] at hmembers
      cases hmembers
  | .stop _, _, _, _, hmembers | .dangling _, _, _, _, hmembers
  | .member (.error _) _ _, _, _, _, hmembers => nomatch hmembers
  | .member (.ok k) v rest, given, a, b, hmembers => by
    rw [ofMembers] at hmembers
    rw [Members.skipFault?, ofMembers]
    rcases find?_refines (fun name _ => name == k) h.fields with
      ⟨hnone, hnone'⟩ | ⟨f, f', hsome, hsome', hf⟩
    · rw [hnone] at hmembers
      rw [hnone']
      cases hskip : v.skipFault? with
      | some f =>
          rw [hskip] at hmembers
          cases hmembers
      | none =>
          rw [hskip] at hmembers
          exact ofMembers_refines h rest given a b hmembers
    · rw [hsome] at hmembers
      rw [hsome']
      dsimp only at hmembers ⊢
      split at hmembers
      · cases hmembers
      next hgiven =>
        obtain ⟨c, hput, hmembers⟩ := bind_eq_ok hmembers
        obtain ⟨hskip, hput'⟩ := hf.put_refines v a c hput
        rw [hskip, if_neg hgiven, hput']
        exact ofMembers_refines h rest (k :: given) c b hmembers

theorem ofItems_refines {r r' : Record α} :
    (items : Items) → ∀ {fields fields'}, List.Forall₂ Field.Refines fields fields' →
      ∀ a b, r.ofItems fields a items = .ok b →
        items.skipFault? = none ∧ r'.ofItems fields' a items = .ok b
  | .done, fields, fields', h, a, b, hitems => by
    rw [ofItems] at hitems ⊢
    split at hitems
    · cases hitems
    next hnone =>
      rw [findIdx?_refines h hnone]
      exact ⟨rfl, hitems⟩
  | .stop f, _, _, _, a, b, hitems => by
    rw [ofItems] at hitems
    cases hitems
  | .dangling f, _, _, _, a, b, hitems => by
    rw [ofItems] at hitems
    cases hitems
  | .item v rest, fields, fields', h, a, b, hitems => by
    cases h with
    | nil =>
        rw [ofItems] at hitems
        cases hitems
    | cons hf hfields =>
        rw [ofItems] at hitems
        obtain ⟨c, hput, hitems⟩ := bind_eq_ok hitems
        obtain ⟨hskip, hput'⟩ := hf.put_refines v a c hput
        obtain ⟨hskips, hrest⟩ := ofItems_refines rest hfields c b hitems
        refine ⟨by rw [Items.skipFault?, hskip]; exact hskips, ?_⟩
        rw [ofItems, hput']
        exact hrest

theorem Refines.decode {r r' : Record α} (h : r.Refines r') : Json.Refines r.decode r'.decode := by
  intro v a hv
  cases v with
  | obj members =>
      rw [Record.decode, h.blank_eq] at hv
      exact ofMembers_refines h members [] _ a hv
  | arr items =>
      rw [Record.decode, h.blank_eq] at hv
      exact ofItems_refines items h.fields _ a hv
  | _ => cases hv

end Record

end Json

/-! ## Statements -/

namespace Stmt

theorem Tag.ofJson_ahead {v : Json} {t : Tag} (h : Tag.ofJson false v = .ok t) :
    v.fault? = none ∧ Tag.ofJson true v = .ok t := by
  unfold Tag.ofJson at h
  split at h
  · exact ⟨rfl, h⟩
  · cases h
  · cases h

theorem Tag.ofMembers_ahead : (members : Json.Members) → ∀ tag t,
    Tag.ofMembers false tag members = .ok t →
      members.fault? = none ∧ Tag.ofMembers true tag members = .ok t
  | .done, tag, t, h => ⟨rfl, h⟩
  | .stop _, _, _, h | .dangling _, _, _, h | .member (.error _) _ _, _, _, h => nomatch h
  | .member (.ok k) v rest, tag, t, h => by
    rw [Tag.ofMembers] at h
    rw [Json.Members.fault?, Tag.ofMembers]
    split at h
    next hk =>
      rw [if_pos hk]
      split at h
      · cases h
      next htag =>
        obtain ⟨t', hv, hrest⟩ := Json.bind_eq_ok h
        obtain ⟨hfault, hv'⟩ := Tag.ofJson_ahead hv
        rw [if_neg htag, hfault, hv']
        exact Tag.ofMembers_ahead rest _ t hrest
    next hk =>
      rw [if_neg hk]
      cases hfault : v.fault? with
      | some f =>
          rw [hfault] at h
          cases h
      | none =>
          rw [hfault] at h
          exact Tag.ofMembers_ahead rest _ t h

theorem refines_ofJson : Json.Refines (ofJson false) (ofJson true) := by
  intro v s h
  unfold ofJson at h ⊢
  split at h
  next members =>
    obtain ⟨tag, htag, hdraft⟩ := Json.bind_eq_ok h
    obtain ⟨hfault, htag'⟩ := Tag.ofMembers_ahead members none tag htag
    rw [htag']
    exact ⟨Json.Members.skipFault?_of_fault? members hfault, hdraft⟩
  next => cases h
  next => cases h
  next => cases h
  next v rest =>
    obtain ⟨tag, htag, hrest⟩ := Json.bind_eq_ok h
    obtain ⟨hfault, htag'⟩ := Tag.ofJson_ahead htag
    rw [htag']
    refine ⟨?_, hrest⟩
    split at hrest
    · cases hrest
    next hrestfault =>
      refine Json.skipFault?_of_fault? (.arr (.item v rest)) ?_
      rw [Json.fault?, Json.Items.fault?, hfault]
      exact hrestfault
  next => cases h

end Stmt

/-! ## Declarations and units -/

theorem DeclKind.refines_ofJson : Json.Refines ofJson ofJson := by
  intro v k h
  refine ⟨?_, h⟩
  unfold ofJson at h
  split at h
  next => rfl
  next s v rest =>
    obtain ⟨k', -, hvalue⟩ := Json.bind_eq_ok h
    split at hvalue
    · rfl
    · cases hvalue
    · cases hvalue
    · cases hvalue
  all_goals cases h

theorem MethodTable.refines_ofJson : Json.Refines ofJson ofJson := by
  intro v t h
  obtain ⟨entries, hentries, -⟩ := Json.bind_eq_ok h
  exact ⟨(Json.refines_id.table v entries hentries).1, h⟩

open Json in
theorem Decl.refines_ofJson : Refines (ofJson false) (ofJson true) := by
  refine Record.Refines.decode ⟨rfl, ?_⟩
  simp only [form, List.forall₂_cons]
  exact ⟨refines_id.optionalField _ _,
    DeclKind.refines_ofJson.requiredField _ _,
    refines_text.optional.optionalField _ _,
    refines_text.optional.optionalField _ _,
    refines_id.optional.optionalField _ _,
    refines_flag.optionalField _ _,
    refines_flag.optionalField _ _,
    refines_id.list.optionalField _ _,
    refines_flag.optionalField _ _,
    refines_flag.optionalField _ _,
    refines_text.list.optionalField _ _,
    refines_id.list.optionalField _ _,
    Stmt.refines_ofJson.optional.optionalField _ _,
    refines_id.optional.optionalField _ _,
    MethodTable.refines_ofJson.optionalField _ _,
    MethodTable.refines_ofJson.optionalField _ _,
    .nil⟩

/-- What is read as a unit is well formed, and is the same unit if it has been read ahead. -/
theorem SourceUnit.refines_ofJson : Json.Refines (ofJson false) (ofJson true) := by
  refine Json.Record.Refines.decode ⟨rfl, ?_⟩
  simp only [form, List.forall₂_cons]
  exact ⟨Json.refines_text.optionalField _ _, Decl.refines_ofJson.list.requiredField _ _,
    Json.refines_id.list.requiredField _ _, .nil⟩

end CallGraph
