import CallGraph.Proofs.NestedText
import CallGraph.Proofs.ReadAhead
import CallGraph.Proofs.RoundTrip
import CallGraph.UnitFile

/-!
# Unit files and single units

A unit file holds a list of units or one unit, and a unit can itself be written as a list, of the values
of its fields. The two are never confused, because the first field of a unit is its name and a name is
no unit (`UnitFile.not_list_and_unit`), so it does not matter which is tried first
(`UnitFile.ofJson_eq_ok_iff`).

The text of a unit is a unit file, and so is the array of such texts (`UnitFile.read_agrees`). A
unit file is read as a whole, though, while the text of a unit is skipped where it has members that
nobody asked for. So the texts have to be such that what can be skipped can be read
(`Json.Document.Alike`): a number too large to hold, half a character or a nesting that is too deep is a
fault in a unit file wherever it stands.
-/

namespace CallGraph

namespace Json

/-- The text stands for the same value whether it is read or skipped: what is well formed can be read. -/
def Document.Alike (d : Document) : Prop :=
  d.value.skipFault? = none → d.value.fault? = none

theorem decodeText_eq_ok_iff {α : Type} {decode : Json → Result α} {text : String} {a : α} :
    decodeText decode text = .ok a
      ↔ decode (Document.ofString text).value = .ok a
        ∧ (Document.ofString text).hasTrailing = false := by
  unfold decodeText
  obtain ⟨value, hasTrailing⟩ := Document.ofString text
  dsimp only
  cases decode value with
  | error e => simp [bind, Except.bind]
  | ok b =>
      cases hasTrailing with
      | false => simp [bind, Except.bind, pure, Except.pure]
      | true => simp [bind, Except.bind, throw, throwThe, MonadExceptOf.throw]

theorem Items.decode_eq_ok_iff {α : Type} {decode : Json → Result α} :
    (items : Items) → ∀ as, items.decode decode = .ok as
      ↔ ∃ vs, items = ofList .done vs ∧ List.Forall₂ (fun v a => decode v = .ok a) vs as
  | .done, as => by
    constructor
    · intro h
      cases h
      exact ⟨[], rfl, .nil⟩
    · rintro ⟨_ | ⟨v, vs⟩, hitems, hvs⟩
      · cases hvs
        rfl
      · cases hitems
  | .stop f, as | .dangling f, as => by
    constructor
    · intro h
      cases h
    · rintro ⟨_ | ⟨v, vs⟩, hitems, -⟩ <;> cases hitems
  | .item v rest, as => by
    constructor
    · intro h
      obtain ⟨b, hv, h⟩ := bind_eq_ok h
      obtain ⟨bs, hrest, h⟩ := bind_eq_ok h
      cases h
      obtain ⟨vs, rfl, hvs⟩ := (decode_eq_ok_iff rest bs).mp hrest
      exact ⟨v :: vs, rfl, .cons hv hvs⟩
    · rintro ⟨_ | ⟨w, vs⟩, hitems, hvs⟩
      · cases hitems
      · cases hitems
        cases hvs with
        | cons hv hvs =>
            rw [Items.decode, hv, (decode_eq_ok_iff _ _).mpr ⟨vs, rfl, hvs⟩]
            rfl

theorem asList_eq_ok_iff {α : Type} {decode : Json → Result α} {v : Json} {as : List α} :
    v.asList decode = .ok as
      ↔ ∃ vs, v = array vs ∧ List.Forall₂ (fun v a => decode v = .ok a) vs as := by
  cases v with
  | arr items =>
      simp only [array, arr.injEq]
      exact Items.decode_eq_ok_iff items as
  | _ =>
      constructor
      · intro h
        cases h
      · rintro ⟨vs, hv, -⟩
        cases hv

end Json

namespace UnitFile

open Json (Document)

/-! ## A list of units or one unit -/

/-- The units of a unit file. -/
inductive Holds : Json → List SourceUnit → Prop where
  | list {vs : List Json} {us : List SourceUnit}
      (h : List.Forall₂ (fun v u => SourceUnit.ofJson true v = .ok u) vs us) :
      Holds (Json.array vs) us
  | one {v : Json} {u : SourceUnit} (h : SourceUnit.ofJson true v = .ok u) : Holds v [u]

/-- As a list a unit starts with its name, and a name is no unit. -/
theorem not_list_and_unit {ahead ahead' : Bool} {v : Json} {us : List SourceUnit} {u : SourceUnit}
    (hlist : v.asList (SourceUnit.ofJson ahead) = .ok us) : SourceUnit.ofJson ahead' v ≠ .ok u := by
  intro hunit
  obtain ⟨vs, rfl, hvs⟩ := Json.asList_eq_ok_iff.mp hlist
  cases hvs with
  -- The empty list lacks the fields that have to be given.
  | nil => cases hunit
  | @cons v u vs us hv hvs =>
      obtain ⟨named, hname, -⟩ := Json.bind_eq_ok hunit
      obtain ⟨name, htext, -⟩ := Json.bind_eq_ok hname
      cases v with
      | str s => cases hv
      | _ => cases htext

/-- Which of the two is tried first makes no difference. -/
theorem ofJson_eq_ok_iff {v : Json} {us : List SourceUnit} :
    ofJson v = .ok us ↔ v.fault? = none ∧ Holds v us := by
  unfold ofJson
  cases hfault : v.fault? with
  | some f => simp
  | none =>
      constructor
      · intro h
        refine ⟨rfl, ?_⟩
        dsimp only at h
        split at h
        next us' hlist =>
          cases h
          obtain ⟨vs, rfl, hvs⟩ := Json.asList_eq_ok_iff.mp hlist
          exact .list hvs
        next =>
          split at h
          next u hunit =>
            cases h
            exact .one hunit
          next => cases h
      · rintro ⟨-, hholds⟩
        dsimp only
        cases hholds with
        | list hvs => rw [Json.asList_eq_ok_iff.mpr ⟨_, rfl, hvs⟩]
        | one hunit =>
            split
            next us hlist => exact absurd hunit (not_list_and_unit hlist)
            next => rw [hunit]

/-! ## Valid units -/

/-- A search through numbered entries finds nothing, or it finds the first that there is. -/
theorem findSome?_zipIdx_cases {α β : Type} (f : α × Nat → Option β) (xs : List α) (k : Nat) :
    ((xs.zipIdx k).findSome? f = none ∧ ∀ i x, xs[i]? = some x → f (x, k + i) = none)
    ∨ ∃ i x b, xs[i]? = some x ∧ f (x, k + i) = some b
      ∧ (∀ j y, j < i → xs[j]? = some y → f (y, k + j) = none)
      ∧ (xs.zipIdx k).findSome? f = some b := by
  induction xs generalizing k with
  | nil => exact Or.inl ⟨rfl, by simp⟩
  | cons x xs ih =>
      rw [List.zipIdx_cons, List.findSome?_cons]
      cases hx : f (x, k) with
      | some b => exact Or.inr ⟨0, x, b, rfl, hx, by simp, rfl⟩
      | none =>
          have hplace : ∀ i, k + (i + 1) = k + 1 + i := fun i => by omega
          rcases ih (k + 1) with ⟨hnone, hall⟩ | ⟨i, y, b, hy, hb, hbefore, hsome⟩
          · refine Or.inl ⟨hnone, fun i y hy => ?_⟩
            cases i with
            | zero =>
                cases hy
                exact hx
            | succ i => exact hplace i ▸ hall i y hy
          · refine Or.inr ⟨i + 1, y, b, hy, hplace i ▸ hb, fun j z hj hz => ?_, hsome⟩
            cases j with
            | zero =>
                cases hz
                exact hx
            | succ j => exact hplace j ▸ hbefore j z (by omega) hz

/-- All units are valid, or the error is about the first that is not. -/
theorem invalid?_cases (us : List SourceUnit) :
    (invalid? us = none ∧ ∀ u ∈ us, u.error? = none)
    ∨ ∃ i u e, us[i]? = some u ∧ u.error? = some e
      ∧ (∀ j u', j < i → us[j]? = some u' → u'.error? = none)
      ∧ invalid? us = some (.invalid i u.name e) := by
  rcases findSome?_zipIdx_cases (fun p => p.1.error?.map (ReadError.invalid p.2 p.1.name)) us 0 with
    ⟨hnone, hall⟩ | ⟨i, u, e, hu, he, hbefore, hsome⟩
  · refine Or.inl ⟨hnone, fun u hu => ?_⟩
    obtain ⟨i, hi⟩ := List.getElem?_of_mem hu
    exact Option.map_eq_none_iff.mp (hall i u hi)
  · obtain ⟨error, herror, rfl⟩ := Option.map_eq_some_iff.mp he
    refine Or.inr ⟨i, u, error, hu, herror, fun j u' hj hu' => ?_, ?_⟩
    · exact Option.map_eq_none_iff.mp (hbefore j u' hj hu')
    · rw [Nat.zero_add] at hsome
      exact hsome

theorem read_of_holds {text : String} {us : List SourceUnit}
    (htrailing : (Document.ofString text).hasTrailing = false)
    (hfault : (Document.ofString text).value.fault? = none)
    (hholds : Holds (Document.ofString text).value us) :
    read text = (invalid? us).elim (.ok us) .error := by
  have hdecode : Json.decodeText ofJson text = .ok us :=
    Json.decodeText_eq_ok_iff.mpr ⟨ofJson_eq_ok_iff.mpr ⟨hfault, hholds⟩, htrailing⟩
  simp only [read, hdecode]
  cases invalid? us <;> rfl

/-! ## The text of a unit as a unit file -/

/-- What is known of a text from which a valid unit is read. -/
theorem of_readValid {text : String} {u : SourceUnit} (h : SourceUnit.readValid text = .ok u) :
    Document.ofString text = ⟨(Document.ofString text).value, false⟩
    ∧ (Document.ofString text).value.skipFault? = none
    ∧ SourceUnit.ofJson true (Document.ofString text).value = .ok u
    ∧ u.error? = none := by
  obtain ⟨hread, herror⟩ := SourceUnit.readValid_eq_ok_iff.mp h
  obtain ⟨hunit, htrailing⟩ := Json.decodeText_eq_ok_iff.mp hread
  obtain ⟨hskip, hunit'⟩ := SourceUnit.refines_ofJson _ u hunit
  refine ⟨?_, hskip, hunit', herror⟩
  rw [← htrailing]

theorem read_of_valid {text : String} {us : List SourceUnit}
    (htrailing : (Document.ofString text).hasTrailing = false)
    (hfault : (Document.ofString text).value.fault? = none)
    (hholds : Holds (Document.ofString text).value us) (hvalid : ∀ u ∈ us, u.error? = none) :
    read text = .ok us := by
  rcases invalid?_cases us with ⟨hnone, -⟩ | ⟨i, u, e, hu, he, -, -⟩
  · rw [read_of_holds htrailing hfault hholds, hnone, Option.elim_none]
  · cases (hvalid u (List.mem_of_getElem? hu)).symm.trans he

/-- What only a reader minds is found in a unit file. -/
theorem read_of_fault {text : String} {f : Json.Fault}
    (hfault : (Document.ofString text).value.fault? = some f) :
    read text = .error (.json (.fault f)) := by
  have hdecode : Json.decodeText ofJson text = .error (.fault f) := by
    rw [Json.decodeText, ofJson, hfault]
    rfl
  rw [read, hdecode]

/-- The text of a valid unit that may stand inside an array. -/
def IsItem (text : String) (u : SourceUnit) : Prop :=
  SourceUnit.readValid text = .ok u ∧ (Document.ofString text).Alike
    ∧ (Document.ofString text).value.depth < Json.nestingLimit

theorem exists_values {texts : List String} {us : List SourceUnit}
    (h : List.Forall₂ IsItem texts us) :
    ∃ vs, List.Forall₂ (fun text v => Document.ofString text = ⟨v, false⟩ ∧ v.fault? = none
        ∧ v.depth < Json.nestingLimit) texts vs
      ∧ List.Forall₂ (fun v u => SourceUnit.ofJson true v = .ok u) vs us
      ∧ (∀ v ∈ vs, v.fault? = none) ∧ ∀ u ∈ us, u.error? = none := by
  induction h with
  | nil => exact ⟨[], .nil, .nil, by simp, by simp⟩
  | @cons text u texts us hitem hitems ih =>
      obtain ⟨htext, halike, hdepth⟩ := hitem
      obtain ⟨hdocument, hskip, hunit, herror⟩ := of_readValid htext
      obtain ⟨vs, hvs, hus, hfaults, herrors⟩ := ih
      have hfault := halike hskip
      exact ⟨_ :: vs, .cons ⟨hdocument, hfault, hdepth⟩ hvs, .cons hunit hus,
        List.forall_mem_cons.mpr ⟨hfault, hfaults⟩, List.forall_mem_cons.mpr ⟨herror, herrors⟩⟩

theorem read_array {texts : List String} {us : List SourceUnit}
    (h : List.Forall₂ IsItem texts us) :
    read ("[" ++ ",".intercalate texts ++ "]") = .ok us := by
  obtain ⟨vs, hvs, hus, hfaults, herrors⟩ := exists_values h
  have hdocument := Document.ofString_array hvs
  have hfault : (Json.array vs).fault? = none := Json.Items.fault?_ofList.mpr ⟨rfl, hfaults⟩
  refine read_of_valid ?_ ?_ ?_ herrors
  · rw [hdocument]
  · rw [hdocument]
    exact hfault
  · rw [hdocument]
    exact .list hus

/-- **Unit files agree with single units.** A text from which a valid unit is read is a unit file with
this unit, unless it holds what can be skipped and not read, and the array of such texts is a unit file
with their units. No value is both a list of units and a unit. If all units of a file can be read and
some are not valid, the error is about the first of them. -/
theorem read_agrees :
    (∀ text u, SourceUnit.readValid text = .ok u →
      ((Document.ofString text).Alike → read text = .ok [u])
      ∧ (¬(Document.ofString text).Alike → ∃ f, read text = .error (.json (.fault f))))
    ∧ (∀ texts us, List.Forall₂ IsItem texts us →
      read ("[" ++ ",".intercalate texts ++ "]") = .ok us)
    ∧ (∀ v ahead ahead' us u, ¬(v.asList (SourceUnit.ofJson ahead) = .ok us
      ∧ SourceUnit.ofJson ahead' v = .ok u))
    ∧ ∀ text us, (Document.ofString text).hasTrailing = false →
      (Document.ofString text).value.fault? = none → Holds (Document.ofString text).value us →
      (∃ u ∈ us, u.error? ≠ none) →
      ∃ i u e, us[i]? = some u ∧ u.error? = some e
        ∧ (∀ j u', j < i → us[j]? = some u' → u'.error? = none)
        ∧ read text = .error (.invalid i u.name e) := by
  refine ⟨?_, ?_, ?_, ?_⟩
  · intro text u htext
    obtain ⟨hdocument, hskip, hunit, herror⟩ := of_readValid htext
    constructor
    · intro halike
      exact read_of_valid (by rw [hdocument]) (halike hskip) (.one hunit) (by simpa using herror)
    · intro hnot
      cases hfault : (Document.ofString text).value.fault? with
      | none => exact absurd (fun _ => hfault) hnot
      | some f => exact ⟨f, read_of_fault hfault⟩
  · intro texts us htexts
    exact read_array htexts
  · rintro v ahead ahead' us u ⟨hlist, hunit⟩
    exact not_list_and_unit hlist hunit
  · rintro text us htrailing hfault hholds ⟨u, hu, hinvalid⟩
    rcases invalid?_cases us with ⟨-, hall⟩ | ⟨i, w, e, hw, he, hbefore, hsome⟩
    · exact absurd (hall u hu) hinvalid
    · refine ⟨i, w, e, hw, he, hbefore, ?_⟩
      rw [read_of_holds htrailing hfault hholds, hsome, Option.elim_some]

/-- A unit as the list of its fields, with a member that names no field and a statement as a list. -/
def row : Json :=
  .array [.str "row",
    .array [.object [("note", .array [.null]), ("kind", .str "function"),
      ("body", .array [.str "other", .array [.array [.str "decl_ref", .num (.natural 0)]]])]],
    .array [.num (.natural 0)]]

def rowUnit : SourceUnit :=
  ⟨"row", #[{ Decl.ofKind .function with body := some (.other [.declRef 0]) }], [0]⟩

/-- A unit whose top level names what is not there. -/
def astray : Json :=
  .array [.str "astray", .array [], .array [.num (.natural 1)]]

def astrayUnit : SourceUnit :=
  ⟨"astray", #[], [1]⟩

theorem read_agrees_row :
    SourceUnit.readValid row.render = .ok rowUnit
    ∧ read row.render = .ok [rowUnit]
    ∧ read ("[" ++ ",".intercalate [row.render, row.render] ++ "]") = .ok [rowUnit, rowUnit]
    ∧ astrayUnit.error? = some (.unknownTopLevel 1)
    ∧ read (Json.array [row, astray]).render = .error (.invalid 1 "astray" (.unknownTopLevel 1)) := by
  have hplain : row.Plain ∧ astray.Plain := by
    simp [row, astray, Json.array, Json.object, Json.Items.ofList, Json.Members.ofList, Json.Plain,
      Json.Items.Plain, Json.Members.Plain, Json.maxWord]
  have hboth : (Json.array [row, astray]).Plain := ⟨hplain.1, hplain.2, trivial⟩
  have hrow : Document.ofString row.render = ⟨row, false⟩ :=
    Document.ofString_render hplain.1 (by decide)
  have hpair : Document.ofString (Json.array [row, astray]).render = ⟨.array [row, astray], false⟩ :=
    Document.ofString_render hboth (by decide)
  have halike : (Document.ofString row.render).Alike := by
    rw [hrow]
    exact fun _ => rfl
  have hvalid : SourceUnit.readValid row.render = .ok rowUnit := by
    refine SourceUnit.readValid_eq_ok_iff.mpr ⟨Json.decodeText_eq_ok_iff.mpr ?_, by rfl⟩
    rw [hrow]
    exact ⟨rfl, rfl⟩
  have hitem : IsItem row.render rowUnit := ⟨hvalid, halike, by rw [hrow]; decide⟩
  have herror : astrayUnit.error? = some (.unknownTopLevel 1) := by rfl
  refine ⟨hvalid, (read_agrees.1 _ _ hvalid).1 halike,
    read_agrees.2.1 _ _ (.cons hitem (.cons hitem .nil)), herror, ?_⟩
  obtain ⟨i, u, e, hu, he, -, hread⟩ := read_agrees.2.2.2 (Json.array [row, astray]).render
    [rowUnit, astrayUnit] (by rw [hpair]) (by rw [hpair]; rfl)
    (by rw [hpair]; exact .list (.cons rfl (.cons rfl .nil))) ⟨astrayUnit, by simp, by simp [herror]⟩
  rcases i with _ | _ | i
  · cases hu
    cases he
  · cases hu
    cases herror.symm.trans he
    exact hread
  · cases hu

end UnitFile

end CallGraph
