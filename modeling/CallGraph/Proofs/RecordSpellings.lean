import CallGraph.Proofs.ReadAhead
import CallGraph.Proofs.RoundTrip
import Mathlib.Data.List.Nodup

/-!
# Spellings of records

A record can be written in many ways. Its members may stand in any order, others may stand between them,
those that hold a default may be left out, and the whole may be a list of the values in order, short of
defaults at its end. `Spelling` says which values these are for a list of cells, one for each field: the
name, what may stand for the value, and whether it is the default.

That all spellings are read alike is a matter of what is left when an object is gone through. However it
was spelled, a field that is still to come stands there once and with a value that is right, and a field
that does not come any more has its value (`Pending`). Each member keeps this up, because putting in one
field leaves the others alone (`Record.Fits`).
-/

namespace CallGraph.Json

/-! ## Spellings -/

/-- A field as it is written: its name, the values that may stand for it, and whether it holds what it
has if it is left out. -/
structure Cell where
  name : String
  Writes : Json → Prop
  IsDefault : Prop

/-- The members of an object with these cells: all of them in order, or what comes of that when members
change places, members with other names are added, and members with defaults are dropped. -/
inductive Listing (cells : List Cell) : List (String × Json) → Prop where
  | whole {ms : List (String × Json)}
      (h : List.Forall₂ (fun c m => m.1 = c.name ∧ c.Writes m.2) cells ms) : Listing cells ms
  | permute {ms ms' : List (String × Json)} (h : Listing cells ms) (hperm : ms.Perm ms') :
      Listing cells ms'
  | add {ms : List (String × Json)} {name : String} {v : Json} (hname : ∀ c ∈ cells, c.name ≠ name)
      (hv : v.fault? = none) (h : Listing cells ms) : Listing cells ((name, v) :: ms)
  | drop {ms : List (String × Json)} {c : Cell} {v : Json} (hc : c ∈ cells) (hdefault : c.IsDefault)
      (h : Listing cells ((c.name, v) :: ms)) : Listing cells ms

/-- The value is an object with these cells, or a list of what they hold, in order and without, maybe,
some defaults at the end. -/
inductive Spelling (cells : List Cell) : Json → Prop where
  | object {ms : List (String × Json)} (h : Listing cells ms) : Spelling cells (Json.object ms)
  | array {front back : List Cell} {vs : List Json} (hcells : cells = front ++ back)
      (hvs : List.Forall₂ Cell.Writes front vs) (hback : ∀ c ∈ back, c.IsDefault) :
      Spelling cells (Json.array vs)

/-! ## What listings have in common -/

/-- Members that have a cell's name hold what may stand for it, and there is at most one for each cell;
about others nothing is known but that they can be read. -/
structure Clean (cells : List Cell) (ms : List (String × Json)) : Prop where
  writes : ∀ m ∈ ms, ∀ c ∈ cells, c.name = m.1 → c.Writes m.2
  once : ∀ c ∈ cells, (ms.map Prod.fst).count c.name ≤ 1
  others : ∀ m ∈ ms, (∀ c ∈ cells, c.name ≠ m.1) → m.2.fault? = none

theorem Clean.tail {cells : List Cell} {m : String × Json} {ms : List (String × Json)}
    (h : Clean cells (m :: ms)) : Clean cells ms where
  writes m' hm' := h.writes m' (List.mem_cons_of_mem m hm')
  once c hc := (List.count_le_count_cons ..).trans (h.once c hc)
  others m' hm' := h.others m' (List.mem_cons_of_mem m hm')

namespace Listing

variable {cells : List Cell} {ms : List (String × Json)}

theorem names_eq (h : List.Forall₂ (fun c m => m.1 = c.name ∧ c.Writes m.2) cells ms) :
    ms.map Prod.fst = cells.map Cell.name := by
  induction h with
  | nil => rfl
  | cons hm _ ih => rw [List.map_cons, List.map_cons, hm.1, ih]

theorem exists_cell (h : List.Forall₂ (fun c m => m.1 = c.name ∧ c.Writes m.2) cells ms)
    {m : String × Json} (hm : m ∈ ms) : ∃ c ∈ cells, m.1 = c.name ∧ c.Writes m.2 := by
  induction h with
  | nil => cases hm
  | @cons c _ _ _ hc _ ih =>
      rcases List.mem_cons.mp hm with rfl | hm
      · exact ⟨c, List.mem_cons_self .., hc⟩
      · obtain ⟨c', hc', hwrites⟩ := ih hm
        exact ⟨c', List.mem_cons_of_mem c hc', hwrites⟩

theorem clean (hnames : (cells.map Cell.name).Nodup) (h : Listing cells ms) : Clean cells ms := by
  induction h with
  | whole h =>
      refine ⟨fun m hm c hc hname => ?_, fun c _ => ?_, fun m hm hother => ?_⟩
      · obtain ⟨c', hc', hname', hwrites⟩ := exists_cell h hm
        obtain rfl := List.inj_on_of_nodup_map hnames hc hc' (hname.trans hname')
        exact hwrites
      · rw [names_eq h]
        exact List.nodup_iff_count_le_one.mp hnames c.name
      · obtain ⟨c', hc', hname', -⟩ := exists_cell h hm
        exact absurd hname'.symm (hother c' hc')
  | permute _ hperm ih =>
      refine ⟨fun m hm => ih.writes m (hperm.mem_iff.mpr hm), fun c hc => ?_,
        fun m hm => ih.others m (hperm.mem_iff.mpr hm)⟩
      rw [← (hperm.map Prod.fst).count_eq]
      exact ih.once c hc
  | add hname hv _ ih =>
      refine ⟨fun m hm c hc hsame => ?_, fun c hc => ?_, fun m hm hother => ?_⟩
      · rcases List.mem_cons.mp hm with rfl | hm
        · exact absurd hsame (hname c hc)
        · exact ih.writes m hm c hc hsame
      · rw [List.map_cons, List.count_cons_of_ne (hname c hc).symm]
        exact ih.once c hc
      · rcases List.mem_cons.mp hm with rfl | hm
        · exact hv
        · exact ih.others m hm hother
  | drop _ _ _ ih => exact ih.tail

/-- What is left out is a default. -/
theorem isDefault (hnames : (cells.map Cell.name).Nodup) (h : Listing cells ms) {c : Cell}
    (hc : c ∈ cells) (habsent : c.name ∉ ms.map Prod.fst) : c.IsDefault := by
  induction h with
  | whole h =>
      rw [names_eq h] at habsent
      exact absurd (List.mem_map_of_mem hc) habsent
  | permute _ hperm ih => exact ih fun hmem => habsent ((hperm.map Prod.fst).mem_iff.mp hmem)
  | add _ _ _ ih => exact ih fun hmem => habsent (List.mem_cons_of_mem _ hmem)
  | @drop _ c' _ hc' hdefault _ ih =>
      by_cases hsame : c.name = c'.name
      · obtain rfl := List.inj_on_of_nodup_map hnames hc hc' hsame
        exact hdefault
      · exact ih fun hmem => (List.mem_cons.mp hmem).elim hsame habsent

end Listing

/-! ## Spellings can be read -/

/-- The inside of an object with these members. -/
def membersOf (ms : List (String × Json)) : Members :=
  Members.ofList .done (ms.map fun m => (.ok m.1, m.2))

theorem object_eq (ms : List (String × Json)) : object ms = .obj (membersOf ms) := rfl

theorem membersOf_cons (m : String × Json) (ms : List (String × Json)) :
    membersOf (m :: ms) = .member (.ok m.1) m.2 (membersOf ms) := rfl

theorem fault?_array {vs : List Json} (h : ∀ v ∈ vs, v.fault? = none) :
    (Items.ofList .done vs).fault? = none := by
  induction vs with
  | nil => rfl
  | cons v vs ih =>
      obtain ⟨hv, hvs⟩ := List.forall_mem_cons.mp h
      rw [Items.ofList, Items.fault?, hv]
      exact ih hvs

theorem fault?_object {ms : List (String × Json)} (h : ∀ m ∈ ms, m.2.fault? = none) :
    (membersOf ms).fault? = none := by
  induction ms with
  | nil => rfl
  | cons m ms ih =>
      obtain ⟨hm, hms⟩ := List.forall_mem_cons.mp h
      rw [membersOf_cons, Members.fault?, hm]
      exact ih hms

/-- The cells are written by values without faults. -/
def Readable (cells : List Cell) : Prop :=
  ∀ c ∈ cells, ∀ v, c.Writes v → v.fault? = none

theorem Clean.fault? {cells : List Cell} {ms : List (String × Json)} (hcells : Readable cells)
    (h : Clean cells ms) {m : String × Json} (hm : m ∈ ms) : m.2.fault? = none := by
  by_cases hname : ∃ c ∈ cells, c.name = m.1
  · obtain ⟨c, hc, hname⟩ := hname
    exact hcells c hc m.2 (h.writes m hm c hc hname)
  · exact h.others m hm fun c hc hsame => hname ⟨c, hc, hsame⟩

theorem fault?_of_writes {cells : List Cell} {vs : List Json} (hcells : Readable cells)
    (h : List.Forall₂ Cell.Writes cells vs) : ∀ v ∈ vs, v.fault? = none := by
  induction h with
  | nil => nofun
  | cons hv _ ih =>
      obtain ⟨hcell, hcells⟩ := List.forall_mem_cons.mp hcells
      exact List.forall_mem_cons.mpr ⟨hcell _ hv, ih hcells⟩

theorem Spelling.fault? {cells : List Cell} (hnames : (cells.map Cell.name).Nodup)
    (hcells : Readable cells) {v : Json} (h : Spelling cells v) : v.fault? = none := by
  cases h with
  | object h => exact fault?_object fun m hm => (h.clean hnames).fault? hcells hm
  | array hfront hvs _ =>
      refine fault?_array (fault?_of_writes (fun c hc => ?_) hvs)
      exact hcells c (hfront ▸ List.mem_append_left _ hc)

theorem Spelling.ne_null {cells : List Cell} {v : Json} (h : Spelling cells v) : v ≠ .null := by
  cases h <;> exact nofun

/-! ## Records that are put together -/

/-- A field of records with its cell, and what it means that a record has the value that is written. -/
structure Slot (α : Type) where
  field : Field α
  cell : Cell
  Holds : α → Prop

/-- The fields of a record with their cells, and what it means for each of them to have its value. -/
def Record.slots {α : Type} (r : Record α) (cells : List Cell) (agreements : List (α → Prop)) :
    List (Slot α) :=
  (r.fields.zip (cells.zip agreements)).map fun x => ⟨x.1, x.2.1, x.2.2⟩

/-- The fields of a record are read as their cells are written, and each for itself. -/
structure Record.Fits {α : Type} (r : Record α) (slots : List (Slot α)) : Prop where
  fields : r.fields = slots.map Slot.field
  names : (r.fields.map Field.name).Nodup
  name : ∀ s ∈ slots, s.field.name = s.cell.name
  /-- A field takes its value and leaves the others as they are. -/
  put : ∀ s ∈ slots, ∀ v a, s.cell.Writes v →
    ∃ b, s.field.put v a = .ok b ∧ s.Holds b ∧ ∀ s' ∈ slots, s'.Holds a → s'.Holds b
  default : ∀ s ∈ slots, s.cell.IsDefault → s.Holds r.blank
  required : ∀ s ∈ slots, s.field.isRequired = true → ¬ s.cell.IsDefault

/-- What is known when an object has been gone through up to the members `ms`: those are clean and do
not repeat what is given, and a field that is not among them has its value, and is given if it has to
be. -/
structure Pending {α : Type} (slots : List (Slot α)) (given : List String) (a : α)
    (ms : List (String × Json)) : Prop where
  clean : Clean (slots.map Slot.cell) ms
  fresh : ∀ s ∈ slots, s.cell.name ∈ given → s.cell.name ∉ ms.map Prod.fst
  settled : ∀ s ∈ slots, s.cell.name ∉ ms.map Prod.fst →
    s.Holds a ∧ (s.field.isRequired = true → s.cell.name ∈ given)

/-- A field takes what its value is read as. -/
theorem exists_put {α β : Type} {read : Result β} {x : β} (h : read = .ok x) {set : β → α}
    {P : α → Prop} (hset : P (set x)) : ∃ b, (do return set (← read) : Result α) = .ok b ∧ P b := by
  rw [h]
  exact ⟨set x, rfl, hset⟩

theorem RoundTrips.decode_of_eq {α : Type} {write : α → Json} {decode : Json → Result α}
    (h : RoundTrips write decode) {v : Json} {a : α} (hv : v = write a) : decode v = .ok a :=
  hv ▸ h.decode_write a

variable {α : Type} {r : Record α} {slots : List (Slot α)}

namespace Record.Fits

theorem cell_names (h : r.Fits slots) : ((slots.map Slot.cell).map Cell.name).Nodup := by
  have hsame : (slots.map Slot.cell).map Cell.name = r.fields.map Field.name := by
    rw [h.fields, List.map_map, List.map_map]
    exact List.map_congr_left fun s hs => (h.name s hs).symm
  exact hsame ▸ h.names

theorem eq_of_name (h : r.Fits slots) {s s' : Slot α} (hs : s ∈ slots) (hs' : s' ∈ slots)
    (hname : s.cell.name = s'.cell.name) : s = s' := by
  have hnames := h.cell_names
  rw [List.map_map] at hnames
  exact List.inj_on_of_nodup_map hnames hs hs' hname

theorem find?_eq_some (h : r.Fits slots) {s : Slot α} (hs : s ∈ slots) :
    (r.fields.find? fun f => f.name == s.cell.name) = some s.field := by
  rw [← h.name s hs]
  exact find?_name h.names (h.fields ▸ List.mem_map_of_mem hs)

theorem find?_eq_none (h : r.Fits slots) {name : String} (hname : ∀ s ∈ slots, s.cell.name ≠ name) :
    (r.fields.find? fun f => f.name == name) = none := by
  refine List.find?_eq_none.mpr fun f hf heq => ?_
  rw [h.fields] at hf
  obtain ⟨s, hs, rfl⟩ := List.mem_map.mp hf
  exact hname s hs ((h.name s hs).symm.trans (beq_iff_eq.mp heq))

end Record.Fits

namespace Pending

variable {given : List String} {a : α} {k : String} {v : Json} {ms : List (String × Json)}

theorem start (hfits : r.Fits slots) (hclean : Clean (slots.map Slot.cell) ms)
    (hdefault : ∀ c ∈ slots.map Slot.cell, c.name ∉ ms.map Prod.fst → c.IsDefault) :
    Pending slots [] r.blank ms where
  clean := hclean
  fresh _ _ := nofun
  settled s hs habsent := by
    have hholds := hdefault s.cell (List.mem_map_of_mem hs) habsent
    exact ⟨hfits.default s hs hholds, fun hreq => absurd hholds (hfits.required s hs hreq)⟩

/-- A member that names no field is passed over. -/
theorem skip (h : Pending slots given a ((k, v) :: ms)) (hk : ∀ s ∈ slots, s.cell.name ≠ k) :
    Pending slots given a ms where
  clean := h.clean.tail
  fresh s hs hgiven hmem := h.fresh s hs hgiven (List.mem_cons_of_mem k hmem)
  settled s hs habsent := h.settled s hs fun hmem => (List.mem_cons.mp hmem).elim (hk s hs) habsent

/-- A member that names a field settles it. -/
theorem put (hfits : r.Fits slots) {s : Slot α} (hs : s ∈ slots)
    (h : Pending slots given a ((s.cell.name, v) :: ms)) :
    ∃ b, s.field.put v a = .ok b ∧ Pending slots (s.cell.name :: given) b ms := by
  have hwrites := h.clean.writes _ (List.mem_cons_self ..) s.cell (List.mem_map_of_mem hs) rfl
  obtain ⟨b, hput, hholds, hkeeps⟩ := hfits.put s hs v a hwrites
  have honce : s.cell.name ∉ ms.map Prod.fst := by
    have hcount := h.clean.once s.cell (List.mem_map_of_mem hs)
    rw [List.map_cons, List.count_cons_self] at hcount
    exact List.count_eq_zero.mp (by omega)
  refine ⟨b, hput, h.clean.tail, fun s' hs' hgiven hmem => ?_, fun s' hs' habsent => ?_⟩
  · rcases List.mem_cons.mp hgiven with hsame | hgiven
    · exact honce (hsame ▸ hmem)
    · exact h.fresh s' hs' hgiven (List.mem_cons_of_mem _ hmem)
  · by_cases hsame : s'.cell.name = s.cell.name
    · obtain rfl := hfits.eq_of_name hs' hs hsame
      exact ⟨hholds, fun _ => List.mem_cons_self ..⟩
    · have hbefore := h.settled s' hs' fun hmem => (List.mem_cons.mp hmem).elim hsame habsent
      exact ⟨hkeeps s' hs' hbefore.1, fun hreq => List.mem_cons_of_mem _ (hbefore.2 hreq)⟩

end Pending

namespace Record

/-- An object that is spelled in any way is read to the end, and every field has its value then. -/
theorem ofMembers_of_pending (hfits : r.Fits slots) {ms : List (String × Json)} {given : List String}
    {a : α} (h : Pending slots given a ms) :
    ∃ b, r.ofMembers given a (membersOf ms) = .ok b ∧ ∀ s ∈ slots, s.Holds b := by
  induction ms generalizing given a with
  | nil =>
      have hnone : (r.fields.find? fun f => f.isRequired && !given.contains f.name) = none := by
        refine List.find?_eq_none.mpr fun f hf hmissing => ?_
        rw [hfits.fields] at hf
        obtain ⟨s, hs, rfl⟩ := List.mem_map.mp hf
        rw [hfits.name s hs] at hmissing
        simp only [Bool.and_eq_true, Bool.not_eq_true', List.contains_eq_mem, decide_eq_false_iff_not]
          at hmissing
        exact hmissing.2 ((h.settled s hs nofun).2 hmissing.1)
      refine ⟨a, ?_, fun s hs => (h.settled s hs nofun).1⟩
      simp only [membersOf, List.map_nil, Members.ofList, ofMembers, hnone]
  | cons m ms ih =>
      obtain ⟨k, v⟩ := m
      by_cases hk : ∃ s ∈ slots, s.cell.name = k
      · obtain ⟨s, hs, rfl⟩ := hk
        obtain ⟨b, hput, hrest⟩ := Pending.put hfits hs h
        have hnew : s.cell.name ∉ given := fun hgiven =>
          h.fresh s hs hgiven (List.mem_cons_self ..)
        obtain ⟨c, hc, hall⟩ := ih hrest
        refine ⟨c, ?_, hall⟩
        simp only [membersOf_cons, ofMembers, hfits.find?_eq_some hs, List.contains_eq_mem, hnew,
          decide_false, hput]
        exact hc
      · have hother : ∀ s ∈ slots, s.cell.name ≠ k := fun s hs hsame => hk ⟨s, hs, hsame⟩
        have hfault : v.fault? = none := h.clean.others _ (List.mem_cons_self ..)
          (List.forall_mem_map.mpr hother)
        obtain ⟨c, hc, hall⟩ := ih (h.skip hother)
        refine ⟨c, ?_, hall⟩
        simp only [membersOf_cons, ofMembers, hfits.find?_eq_none hother,
          skipFault?_of_fault? v hfault]
        exact hc

/-- So is a list. Of the fields whose turn has not come only those at the end may be left out. -/
theorem ofItems_of_writes (hfits : r.Fits slots) {front back : List (Slot α)} {vs : List Json} {a : α}
    (hsub : ∀ s ∈ front ++ back, s ∈ slots)
    (hvs : List.Forall₂ (fun s v => s.cell.Writes v) front vs)
    (hback : ∀ s ∈ back, s.cell.IsDefault) (hholds : ∀ s ∈ slots, s ∈ front ∨ s.Holds a) :
    ∃ b, r.ofItems ((front ++ back).map Slot.field) a (Items.ofList .done vs) = .ok b
      ∧ ∀ s ∈ slots, s.Holds b := by
  induction hvs generalizing a with
  | nil =>
      have hnone : ((back.map Slot.field).findIdx? fun f => f.isRequired) = none := by
        refine List.findIdx?_eq_none_iff.mpr fun f hf => ?_
        obtain ⟨s, hs, rfl⟩ := List.mem_map.mp hf
        exact Bool.eq_false_iff.mpr fun hreq => hfits.required s (hsub s hs) hreq (hback s hs)
      refine ⟨a, ?_, fun s hs => (hholds s hs).resolve_left nofun⟩
      simp only [List.nil_append, Items.ofList, ofItems, hnone]
  | @cons s v front vs hv hvs ih =>
      have hs : s ∈ slots := hsub s (List.mem_cons_self ..)
      obtain ⟨b, hput, hown, hkeeps⟩ := hfits.put s hs v a hv
      obtain ⟨c, hc, hall⟩ := ih (a := b) (fun s' hs' => hsub s' (List.mem_cons_of_mem _ hs'))
        fun s' hs' => by
          rcases hholds s' hs' with hmem | hholds
          · rcases List.mem_cons.mp hmem with rfl | hmem
            · exact Or.inr hown
            · exact Or.inl hmem
          · exact Or.inr (hkeeps s' hs' hholds)
      refine ⟨c, ?_, hall⟩
      simp only [List.cons_append, List.map_cons, Items.ofList, ofItems, hput]
      exact hc

theorem ofItems_of_spelling (hfits : r.Fits slots) {front back : List Cell} {vs : List Json}
    (hcells : slots.map Slot.cell = front ++ back) (hvs : List.Forall₂ Cell.Writes front vs)
    (hback : ∀ c ∈ back, c.IsDefault) :
    ∃ a, r.ofItems r.fields r.blank (Items.ofList .done vs) = .ok a ∧ ∀ s ∈ slots, s.Holds a := by
  obtain ⟨front, back, rfl, rfl, rfl⟩ := List.map_eq_append_iff.mp hcells
  rw [hfits.fields]
  refine ofItems_of_writes hfits (fun s hs => hs) (List.forall₂_map_left_iff.mp hvs)
    (List.forall_mem_map.mp hback) fun s hs => ?_
  rcases List.mem_append.mp hs with hfront | hend
  · exact Or.inl hfront
  · exact Or.inr (hfits.default s hs (hback s.cell (List.mem_map_of_mem hend)))

theorem exists_decode_of_spelling (hfits : r.Fits slots) {v : Json}
    (h : Spelling (slots.map Slot.cell) v) : ∃ a, r.decode v = .ok a ∧ ∀ s ∈ slots, s.Holds a := by
  cases h with
  | object h =>
      exact ofMembers_of_pending hfits (.start hfits (h.clean hfits.cell_names) fun c hc =>
        h.isDefault hfits.cell_names hc)
  | array hcells hvs hback => exact ofItems_of_spelling hfits hcells hvs hback

/-- **All spellings of a record are read alike**, if a record is known when the values of its fields are. -/
theorem decode_of_spelling (hfits : r.Fits slots) {t : α}
    (hall : ∀ a, (∀ s ∈ slots, s.Holds a) → a = t) {v : Json}
    (h : Spelling (slots.map Slot.cell) v) : r.decode v = .ok t := by
  obtain ⟨a, ha, hholds⟩ := exists_decode_of_spelling hfits h
  rw [hall a hholds] at ha
  exact ha

end Record

end CallGraph.Json
