import CallGraph.Proofs.Codes
import CallGraph.Proofs.Forms

/-!
# Signatures and their keys

Two declarations with mangled keys have the same key exactly if they have the same signature: the
code of a signature loses nothing of its form.

The first character of a word tells of what sort it is: a small letter for a builtin type, a digit
for a name, a capital for a layer or a row. So the words can be split off one after the other
(`NameForm.code_splits`, `TypeForm.code_splits`), provided that no segment starts with a digit, as no
identifier does. The one word that could be two things is a name that stands for itself: it has no
segment, so it is empty or starts with a separator, which no segment does.
-/

namespace CallGraph

open Mangling

/-! ## Segments of a name -/

namespace Text

theorem prefix_of_pieces_eq_cons {cs p : List Char} {ps : List (List Char)}
    (h : pieces cs = p :: ps) : p <+: cs := by
  fun_induction pieces cs generalizing p ps with
  | case1 =>
      obtain ⟨rfl, -⟩ := List.cons.inj h
      exact List.prefix_rfl
  | case2 rest _ =>
      obtain ⟨rfl, -⟩ := List.cons.inj h
      exact List.nil_prefix
  | case3 c rest _ hnil _ => exact absurd hnil (pieces_ne_nil rest)
  | case4 c rest _ q qs hrest ih =>
      obtain ⟨rfl, -⟩ := List.cons.inj h
      exact List.cons_prefix_cons.mpr ⟨rfl, ih hrest⟩

theorem ne_separator_of_mem_pieces {cs p : List Char} (hp : p ∈ pieces cs) (r : List Char) :
    p ≠ ':' :: ':' :: r := by
  fun_induction pieces cs with
  | case1 => simp_all
  | case2 rest ih =>
      rcases List.mem_cons.mp hp with rfl | hp
      · simp
      · exact ih hp
  | case3 c rest _ hnil _ => exact absurd hnil (pieces_ne_nil rest)
  | case4 c rest hsep q qs hrest ih =>
      rcases List.mem_cons.mp hp with rfl | hp
      · intro heq
        obtain ⟨rfl, rfl⟩ := List.cons.inj heq
        -- The segment goes on as the text does, so the text would have been split here.
        obtain ⟨tail, htail⟩ := prefix_of_pieces_eq_cons hrest
        exact hsep _ rfl htail.symm
      · exact ih (hrest ▸ List.mem_cons_of_mem _ hp)

/-- A name all of whose segments are empty is empty or starts with a separator. -/
theorem eq_nil_or_separator_of_pieces {cs : List Char} (h : ∀ p ∈ pieces cs, p = []) :
    cs = [] ∨ ∃ r, cs = ':' :: ':' :: r := by
  fun_induction pieces cs with
  | case1 => exact Or.inl rfl
  | case2 rest _ => exact Or.inr ⟨rest, rfl⟩
  | case3 c rest _ hnil _ => exact absurd hnil (pieces_ne_nil rest)
  | case4 c rest _ q qs _ _ => exact absurd (h (c :: q) (List.mem_cons_self ..)) (by simp)

end Text

/-! ## No segment starts with a digit -/

def NoLeadingDigit (segments : List (List Char)) : Prop :=
  ∀ p ∈ segments, Text.startsWithDigit p = false

def TypeBase.NoLeadingDigit : TypeBase → Prop
  | .builtin _ => True
  | .named ps => CallGraph.NoLeadingDigit ps

/-- No segment of the name, or of the name of a parameter type, starts with a digit. -/
structure Decl.NoLeadingDigit (d : Decl) : Prop where
  name : ∀ n ∈ d.displayName?, CallGraph.NoLeadingDigit (Text.pieces n.toList)
  params : ∀ t ∈ d.paramTypes, (TypeForm.ofSpelling t.toList).base.NoLeadingDigit

instance (segments : List (List Char)) : Decidable (NoLeadingDigit segments) :=
  inferInstanceAs (Decidable (∀ p ∈ segments, Text.startsWithDigit p = false))

instance : DecidablePred TypeBase.NoLeadingDigit
  | .builtin _ => inferInstanceAs (Decidable True)
  | .named ps => inferInstanceAs (Decidable (NoLeadingDigit ps))

instance (d : Decl) : Decidable d.NoLeadingDigit :=
  decidable_of_iff
    ((∀ n ∈ d.displayName?, NoLeadingDigit (Text.pieces n.toList))
      ∧ ∀ t ∈ d.paramTypes, (TypeForm.ofSpelling t.toList).base.NoLeadingDigit)
    ⟨fun h => ⟨h.1, h.2⟩, fun h => ⟨h.name, h.params⟩⟩

theorem noLeadingDigit_of_mem_paramForms {types : List String}
    (h : ∀ t ∈ types, (TypeForm.ofSpelling t.toList).base.NoLeadingDigit) :
    ∀ f ∈ paramForms types, f.base.NoLeadingDigit := by
  intro f hf
  cases types with
  | nil =>
      obtain rfl := List.mem_singleton.mp hf
      exact trivial
  | cons t ts =>
      obtain ⟨x, hx, rfl⟩ := List.mem_map.mp hf
      exact h x hx

/-! ## Splitting off a row -/

namespace Mangling

theorem row_cases (ps : List (List Char)) : (∃ p, ps = [p]) ∨ row ps = nest ps := by
  fun_cases row ps with
  | case1 p => exact Or.inl ⟨p, rfl⟩
  | case2 => exact Or.inr rfl

theorem exists_row_eq_cons (ps : List (List Char)) :
    ∃ c w, row ps = c :: w ∧ (c.isDigit = true ∨ c = 'N') := by
  rcases row_cases ps with ⟨p, rfl⟩ | hrow
  · obtain ⟨c, w, hw, hc⟩ := exists_counted_eq_cons p
    exact ⟨c, w, hw, Or.inl hc⟩
  · exact ⟨'N', _, hrow, Or.inr rfl⟩

theorem counted_append_ne_nest (p : List Char) (qs : List (List Char)) (r s : List Char) :
    counted p ++ r ≠ nest qs ++ s := by
  intro h
  obtain ⟨c, w, hw, hc⟩ := exists_counted_eq_cons p
  rw [hw] at h
  obtain rfl : c = 'N' := (List.cons.inj h).1
  exact absurd hc (by decide)

theorem row_splits : Splits NoLeadingDigit row := by
  intro ps qs hps hqs r s h
  rcases row_cases ps with ⟨p, rfl⟩ | hp <;> rcases row_cases qs with ⟨q, rfl⟩ | hq
  · obtain ⟨rfl, hrest⟩ := counted_splits (hps p (List.mem_cons_self ..))
      (hqs q (List.mem_cons_self ..)) h
    exact ⟨rfl, hrest⟩
  · rw [hq] at h
    exact absurd h (counted_append_ne_nest p qs r s)
  · rw [hp] at h
    exact absurd h.symm (counted_append_ne_nest q ps s r)
  · rw [hp, hq] at h
    exact nest_splits hps hqs h

end Mangling

/-! ## Splitting off a type -/

theorem Layer.letter_injective {l m : Layer} (h : l.letter = m.letter) : l = m := by
  cases l <;> cases m <;> first | rfl | exact absurd h (by decide)

namespace Builtin

theorem letter_injective {a b : Builtin} (h : a.letter = b.letter) : a = b := by
  cases a <;> cases b <;> first | rfl | exact absurd h (by decide)

theorem isLower_letter (b : Builtin) : b.letter.isLower = true := by
  cases b <;> rfl

end Builtin

namespace TypeBase

theorem exists_code_eq_cons (a : TypeBase) :
    ∃ c w, a.code = c :: w ∧ (c.isLower = true ∨ c.isDigit = true ∨ c = 'N') := by
  cases a with
  | builtin b => exact ⟨_, _, rfl, Or.inl b.isLower_letter⟩
  | named ps =>
      obtain ⟨c, w, hw, hc⟩ := exists_row_eq_cons ps
      exact ⟨c, w, hw, Or.inr hc⟩

theorem letter_cons_ne_row (b : Builtin) (ps : List (List Char)) (r s : List Char) :
    b.letter :: r ≠ row ps ++ s := by
  intro h
  obtain ⟨c, w, hw, hc⟩ := exists_row_eq_cons ps
  rw [hw] at h
  rw [← (List.cons.inj h).1] at hc
  cases b <;> exact absurd hc (by decide)

theorem code_splits : Splits TypeBase.NoLeadingDigit code := by
  intro a b ha hb r s h
  cases a with
  | builtin x =>
      cases b with
      | builtin y =>
          obtain ⟨hletter, hrest⟩ := List.cons.inj h
          exact ⟨congrArg _ (Builtin.letter_injective hletter), hrest⟩
      | named qs => exact absurd h (letter_cons_ne_row x qs r s)
  | named ps =>
      cases b with
      | builtin y => exact absurd h.symm (letter_cons_ne_row y ps s r)
      | named qs =>
          obtain ⟨rfl, hrest⟩ := row_splits ha hb h
          exact ⟨rfl, hrest⟩

theorem layer_cons_ne_code (l : Layer) (a : TypeBase) (r s : List Char) :
    l.letter :: r ≠ a.code ++ s := by
  intro h
  obtain ⟨c, w, hw, hc⟩ := a.exists_code_eq_cons
  rw [hw] at h
  rw [← (List.cons.inj h).1] at hc
  cases l <;> exact absurd hc (by decide)

end TypeBase

namespace TypeForm

theorem exists_code_eq_cons (f : TypeForm) : ∃ c w, f.code = c :: w ∧ c ≠ 'E' := by
  obtain ⟨layers, base⟩ := f
  cases layers with
  | nil =>
      obtain ⟨c, w, hw, hc⟩ := base.exists_code_eq_cons
      exact ⟨c, w, hw, by rintro rfl; revert hc; decide⟩
  | cons l ls => exact ⟨l.letter, _, rfl, by cases l <;> decide⟩

theorem code_splits : Splits (fun f : TypeForm => f.base.NoLeadingDigit) code := by
  rintro ⟨ls, a⟩ ⟨ms, b⟩ ha hb r s h
  induction ls generalizing ms with
  | nil =>
      cases ms with
      | nil =>
          obtain ⟨rfl, hrest⟩ := TypeBase.code_splits ha hb h
          exact ⟨rfl, hrest⟩
      | cons m ms => exact absurd h.symm (TypeBase.layer_cons_ne_code m a _ r)
  | cons l ls ih =>
      cases ms with
      | nil => exact absurd h (TypeBase.layer_cons_ne_code l b _ s)
      | cons m ms =>
          obtain ⟨hletter, htail⟩ := List.cons.inj h
          obtain ⟨heq, hrest⟩ := ih ms ha hb htail
          obtain ⟨rfl, rfl⟩ := TypeForm.mk.inj heq
          obtain rfl := Layer.letter_injective hletter
          exact ⟨rfl, hrest⟩

theorem flatMap_code_inj {fs gs : List TypeForm} (hfs : ∀ f ∈ fs, f.base.NoLeadingDigit)
    (hgs : ∀ g ∈ gs, g.base.NoLeadingDigit) (h : fs.flatMap code = gs.flatMap code) : fs = gs := by
  -- No type starts with the bracket that closes a row, so the bracket can mark the end.
  have hrow := code_splits.flatMap fun f _ => f.exists_code_eq_cons
  exact (hrow hfs hgs (congrArg (· ++ ['E'] ++ []) h)).1

end TypeForm

/-! ## Splitting off a name -/

namespace NameForm

/-- What the form of a name can be: a segment has no separator in front, but a name without any
segment does, if it is not empty. -/
def Proper : NameForm → Prop
  | .segments ps => NoLeadingDigit ps ∧ ∀ p ∈ ps, p ≠ [] ∧ ∀ r, p ≠ ':' :: ':' :: r
  | .raw n => n = [] ∨ ∃ r, n = ':' :: ':' :: r

theorem proper_ofName {qualified : List Char} (h : NoLeadingDigit (Text.pieces qualified)) :
    (ofName qualified).Proper := by
  unfold ofName
  split
  next hnil =>
    refine Text.eq_nil_or_separator_of_pieces fun p hp => ?_
    simpa using List.filter_eq_nil_iff.mp hnil p hp
  next =>
    refine ⟨fun p hp => h p (List.mem_filter.mp hp).1, fun p hp => ?_⟩
    obtain ⟨hmem, hne⟩ := List.mem_filter.mp hp
    exact ⟨by simpa using hne, Text.ne_separator_of_mem_pieces hmem⟩

theorem startsWithDigit_of_proper_raw {n : List Char} (hn : (raw n).Proper) :
    Text.startsWithDigit n = false := by
  rcases hn with rfl | ⟨r, rfl⟩ <;> rfl

/-- A name without segments is not written as a row of segments is. -/
theorem counted_append_ne_row {n : List Char} {ps : List (List Char)} (hn : (raw n).Proper)
    (hps : (segments ps).Proper) (r s : List Char) : counted n ++ r ≠ row ps ++ s := by
  intro h
  obtain ⟨hdigit, hsegments⟩ := hps
  rcases row_cases ps with ⟨p, rfl⟩ | hrow
  · have hmem : p ∈ [p] := List.mem_cons_self ..
    obtain ⟨hne, hsep⟩ := hsegments p hmem
    obtain ⟨rfl, -⟩ := counted_splits (startsWithDigit_of_proper_raw hn) (hdigit p hmem) h
    rcases hn with rfl | ⟨rest, rfl⟩
    · exact hne rfl
    · exact hsep rest rfl
  · rw [hrow] at h
    exact counted_append_ne_nest n ps r s h

theorem code_splits : Splits Proper code := by
  intro a b ha hb r s h
  cases a with
  | segments ps =>
      cases b with
      | segments qs =>
          obtain ⟨rfl, hrest⟩ := row_splits ha.1 hb.1 h
          exact ⟨rfl, hrest⟩
      | raw m => exact absurd h.symm (counted_append_ne_row hb ha s r)
  | raw n =>
      cases b with
      | segments qs => exact absurd h (counted_append_ne_row ha hb r s)
      | raw m =>
          obtain ⟨rfl, hrest⟩ := counted_splits (startsWithDigit_of_proper_raw ha)
            (startsWithDigit_of_proper_raw hb) h
          exact ⟨rfl, hrest⟩

end NameForm

/-! ## Reading a signature back -/

namespace Signature

/-- A signature that can be read back from its code. -/
structure Proper (σ : Signature) : Prop where
  name : σ.name.Proper
  params : ∀ fs ∈ σ.params, fs ≠ [] ∧ ∀ f ∈ fs, f.base.NoLeadingDigit

theorem proper_of {qualified : String} {types : List String} (isFunction : Bool)
    (hname : NoLeadingDigit (Text.pieces qualified.toList))
    (htypes : ∀ t ∈ types, (TypeForm.ofSpelling t.toList).base.NoLeadingDigit) :
    (of qualified types isFunction).Proper := by
  refine ⟨NameForm.proper_ofName hname, ?_⟩
  intro fs hfs
  cases isFunction with
  | false => cases hfs
  | true =>
      obtain rfl := Option.some.inj hfs
      exact ⟨paramForms_ne_nil types, noLeadingDigit_of_mem_paramForms htypes⟩

theorem code_inj {σ τ : Signature} (hσ : σ.Proper) (hτ : τ.Proper) (h : σ.code = τ.code) :
    σ = τ := by
  obtain ⟨a, fs⟩ := σ
  obtain ⟨b, gs⟩ := τ
  simp only [code, List.append_assoc] at h
  obtain ⟨rfl, hparams⟩ := NameForm.code_splits hσ.name hτ.name (List.append_cancel_left h)
  -- A list of parameters is never empty, so that a function is not taken for something else.
  cases fs with
  | none =>
      cases gs with
      | none => rfl
      | some gs =>
          have hnil := TypeForm.flatMap_code_inj (by simp) (hτ.params gs rfl).2 hparams
          exact absurd hnil.symm (hτ.params gs rfl).1
  | some fs =>
      have hfs := hσ.params fs rfl
      cases gs with
      | none =>
          have hnil := TypeForm.flatMap_code_inj hfs.2 (by simp) hparams
          exact absurd hnil hfs.1
      | some gs =>
          obtain rfl := TypeForm.flatMap_code_inj hfs.2 (hτ.params gs rfl).2 hparams
          rfl

end Signature

/-- **Keys tell signatures apart.** Two mangled keys, of whatever units, are equal exactly if the names
mean the same and either neither declaration is a function or both are and the types of their
parameters mean the same. -/
theorem SourceUnit.key_eq_key_iff {u v : SourceUnit} {a b : DeclId} {d e : Decl} {s t : String}
    (hd : u.decl? a = some d) (he : v.decl? b = some e) (hs : u.key a = .mangled s)
    (ht : v.key b = .mangled t) (hdigit : d.NoLeadingDigit) (hdigit' : e.NoLeadingDigit) :
    u.key a = v.key b ↔ d.nameForm? = e.nameForm?
      ∧ (d.kind.isFunction = false ∧ e.kind.isFunction = false
        ∨ d.kind.isFunction = true ∧ e.kind.isFunction = true
          ∧ paramForms d.paramTypes = paramForms e.paramTypes) := by
  have hkey : d.key = .mangled s := by rw [← hs, SourceUnit.key, hd]; rfl
  have hkey' : e.key = .mangled t := by rw [← ht, SourceUnit.key, he]; rfl
  obtain ⟨n, hn, rfl⟩ := Decl.exists_mangle_of_key hkey
  obtain ⟨m, hm, rfl⟩ := Decl.exists_mangle_of_key hkey'
  have hproper := Signature.proper_of d.kind.isFunction (hdigit.name n hn) hdigit.params
  have hproper' := Signature.proper_of e.kind.isFunction (hdigit'.name m hm) hdigit'.params
  have hform : d.nameForm? = some (.ofName n.toList) := by rw [Decl.nameForm?, hn]; rfl
  have hform' : e.nameForm? = some (.ofName m.toList) := by rw [Decl.nameForm?, hm]; rfl
  rw [hs, ht, Key.mangled.injEq, hform, hform', Option.some.injEq, ← Signature.of_eq_of_iff,
    Signature.mangle_eq_code, Signature.mangle_eq_code, String.ofList_inj]
  exact ⟨Signature.code_inj hproper hproper', congrArg Signature.code⟩

def oneFunction (qualified : String) (types : List String) : SourceUnit :=
  (SourceUnit.empty "unit").addTopLevel
    { Decl.ofKind .function with qualifiedName := some qualified, paramTypes := types }

/-- Two spellings of one function, and an overload of it that takes its stream by value. -/
theorem key_oneFunction_put :
    (oneFunction "io::put" ["const char *", "unsigned", "io::File&"]).key 0
        = (oneFunction "::io::put" ["const char*", " unsigned int ", "io::File &"]).key 0
      ∧ (oneFunction "io::put" ["const char *", "unsigned", "io::File&"]).key 0
        ≠ (oneFunction "io::put" ["const char *", "unsigned", "io::File"]).key 0 := by
  constructor
  · refine (SourceUnit.key_eq_key_iff rfl rfl rfl rfl ?_ ?_).mpr ⟨?_, Or.inr ⟨rfl, rfl, ?_⟩⟩ <;>
      decide +kernel
  · intro h
    have hforms := (SourceUnit.key_eq_key_iff rfl rfl rfl rfl (by decide +kernel)
      (by decide +kernel)).mp h
    revert hforms
    decide +kernel

end CallGraph
