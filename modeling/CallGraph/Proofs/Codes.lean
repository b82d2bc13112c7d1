import CallGraph.Key.Mangling
import Mathlib.Tactic.IntervalCases

/-!
# Codes without separators

The parts of a mangled name follow each other with nothing between them, so a part must show by
itself where it ends. A code has this property (`Splits`) if its words can be split off the front of
any text in one way only.

A name is written after its number of bytes. The number ends where the digits end, provided that the
name does not go on with a digit, and then tells how far the name goes, whatever characters it
holds (`counted_splits`). An empty name is a special case, because anything may follow its `0`; no
other number starts like that. A row of names in brackets ends at the bracket, where a name would
have a digit (`nest_splits`).
-/

namespace CallGraph

namespace Text

theorem byteLength_append (cs ds : List Char) :
    byteLength (cs ++ ds) = byteLength cs + byteLength ds := by
  induction cs with
  | nil => simp [byteLength]
  | cons c cs ih => simp only [List.cons_append, byteLength, ih]; omega

theorem byteLength_eq_zero_iff {cs : List Char} : byteLength cs = 0 ↔ cs = [] := by
  cases cs with
  | nil => simp [byteLength]
  | cons c cs =>
      have hpos := c.utf8Size_pos
      simp only [byteLength, reduceCtorEq, iff_false]
      omega

/-- A text is cut in the same way wherever the number of bytes is the same. -/
theorem append_inj_of_byteLength {p q r s : List Char} (h : p ++ r = q ++ s)
    (hlen : byteLength p = byteLength q) : p = q ∧ r = s := by
  rcases List.append_eq_append_iff.mp h with ⟨cs, rfl, rfl⟩ | ⟨cs, rfl, rfl⟩ <;>
  · rw [byteLength_append] at hlen
    have hnil : cs = [] := byteLength_eq_zero_iff.mp (by omega)
    simp [hnil]

/-- The text starts with one of the digits from `0` to `9`. -/
def startsWithDigit (cs : List Char) : Bool :=
  cs.head?.any Char.isDigit

theorem startsWithDigit_append {cs : List Char} (hcs : cs ≠ []) (ds : List Char) :
    startsWithDigit (cs ++ ds) = startsWithDigit cs := by
  cases cs with
  | nil => exact absurd rfl hcs
  | cons c cs => rfl

theorem takeWhile_isDigit_eq_nil {cs : List Char} (h : startsWithDigit cs = false) :
    cs.takeWhile Char.isDigit = [] := by
  cases cs with
  | nil => rfl
  | cons c cs => exact List.takeWhile_cons_of_neg (by simpa [startsWithDigit] using h)

end Text

namespace Mangling

open Text

/-! ## Decimal numbers -/

theorem isDigit_of_mem_decimal {n : Nat} {c : Char} (hc : c ∈ Nat.toDigits 10 n) :
    c.isDigit = true :=
  Nat.isDigit_of_mem_toDigits (by decide) (by decide) hc

/-- A number ends where its digits end. -/
theorem decimal_append_inj {n m : Nat} {x y : List Char} (hx : startsWithDigit x = false)
    (hy : startsWithDigit y = false) (h : Nat.toDigits 10 n ++ x = Nat.toDigits 10 m ++ y) :
    n = m ∧ x = y := by
  have hdigits : Nat.toDigits 10 n = Nat.toDigits 10 m := by
    have htake := congrArg (List.takeWhile Char.isDigit) h
    rwa [List.takeWhile_append_of_pos fun c hc => isDigit_of_mem_decimal hc,
      List.takeWhile_append_of_pos fun c hc => isDigit_of_mem_decimal hc,
      takeWhile_isDigit_eq_nil hx, takeWhile_isDigit_eq_nil hy, List.append_nil,
      List.append_nil] at htake
  have hvalue := congrArg (Nat.ofDigitChars 10 · 0) hdigits
  simp only [Nat.ofDigitChars_toDigits (by decide : 1 < 10) (by decide : 10 ≤ 10)] at hvalue
  rw [hdigits] at h
  exact ⟨hvalue, List.append_cancel_left h⟩

theorem head?_decimal (n : Nat) : ∃ c, (Nat.toDigits 10 n).head? = some c ∧ c.isDigit = true := by
  cases hd : Nat.toDigits 10 n with
  | nil => exact absurd hd Nat.toDigits_ne_nil
  | cons c cs => exact ⟨c, rfl, isDigit_of_mem_decimal (hd ▸ List.mem_cons_self ..)⟩

/-- Only nought starts with a nought. -/
theorem head?_decimal_ne {n : Nat} (hn : n ≠ 0) : (Nat.toDigits 10 n).head? ≠ some '0' := by
  induction n using Nat.strongRecOn with
  | ind n ih =>
      rw [Nat.toDigits_eq_if (by decide)]
      split
      · interval_cases n <;> simp_all [Nat.digitChar]
      · have hrest := ih (n / 10) (by omega) (by omega)
        rw [List.head?_append]
        cases hd : (Nat.toDigits 10 (n / 10)).head? with
        | none => simp [Nat.toDigits_ne_nil] at hd
        | some c => rw [hd] at hrest; simpa using hrest

/-! ## Codes -/

/-- The words of a code can be split off the front of any text in one way, as far as the values
written meet a condition. -/
def Splits {α : Type} (ok : α → Prop) (code : α → List Char) : Prop :=
  ∀ ⦃a b : α⦄, ok a → ok b → ∀ ⦃r s : List Char⦄, code a ++ r = code b ++ s → a = b ∧ r = s

/-- A row of words can be split off if something follows that starts no word. -/
theorem Splits.flatMap {α : Type} {ok : α → Prop} {code : α → List Char} (hcode : Splits ok code)
    {z : Char} (hz : ∀ a, ok a → ∃ c w, code a = c :: w ∧ c ≠ z) :
    Splits (fun as : List α => ∀ a ∈ as, ok a) (fun as => as.flatMap code ++ [z]) := by
  intro as
  induction as with
  | nil =>
      intro bs _ hbs r s h
      cases bs with
      | nil => exact ⟨rfl, by simpa using h⟩
      | cons b bs =>
          obtain ⟨c, w, hw, hc⟩ := hz b (hbs b (List.mem_cons_self ..))
          simp only [List.flatMap_nil, List.nil_append, List.flatMap_cons, hw, List.cons_append,
            List.cons.injEq] at h
          exact absurd h.1.symm hc
  | cons a as ih =>
      intro bs has hbs r s h
      have ha := has a (List.mem_cons_self ..)
      cases bs with
      | nil =>
          obtain ⟨c, w, hw, hc⟩ := hz a ha
          simp only [List.flatMap_nil, List.nil_append, List.flatMap_cons, hw, List.cons_append,
            List.cons.injEq] at h
          exact absurd h.1 hc
      | cons b bs =>
          simp only [List.flatMap_cons, List.append_assoc] at h
          obtain ⟨rfl, hrest⟩ := hcode ha (hbs b (List.mem_cons_self ..)) h
          obtain ⟨rfl, rfl⟩ := ih (fun x hx => has x (List.mem_cons_of_mem _ hx))
            (fun x hx => hbs x (List.mem_cons_of_mem _ hx))
            (by simpa only [List.append_assoc] using hrest)
          exact ⟨rfl, rfl⟩

/-! ## Names and rows of names -/

theorem counted_eq (p : List Char) : counted p = Nat.toDigits 10 (byteLength p) ++ p := by
  rw [counted, Nat.toString_eq_repr, Nat.toList_repr]

theorem counted_nil : counted [] = ['0'] := by
  rw [counted_eq]
  rfl

theorem exists_counted_eq_cons (p : List Char) :
    ∃ c w, counted p = c :: w ∧ c.isDigit = true := by
  obtain ⟨c, hc, hdigit⟩ := head?_decimal (byteLength p)
  rw [counted_eq]
  cases hd : Nat.toDigits 10 (byteLength p) with
  | nil => exact absurd hd Nat.toDigits_ne_nil
  | cons d ds =>
      rw [hd] at hc
      obtain rfl := Option.some.inj hc
      exact ⟨d, ds ++ p, rfl, hdigit⟩

/-- A name that is not empty does not look like an empty one. -/
theorem counted_append_ne_of_ne_nil {p : List Char} (hp : p ≠ []) (r s : List Char) :
    counted p ++ r ≠ '0' :: s := by
  intro h
  have hne := head?_decimal_ne (n := byteLength p) fun hzero => hp (byteLength_eq_zero_iff.mp hzero)
  obtain ⟨c, hc, -⟩ := head?_decimal (byteLength p)
  rw [counted_eq, List.append_assoc] at h
  have hhead := congrArg List.head? h
  rw [List.head?_append, hc] at hhead
  exact hne (hc.trans hhead)

theorem counted_splits : Splits (fun p => startsWithDigit p = false) counted := by
  intro p q hp hq r s h
  by_cases hpnil : p = []
  · subst hpnil
    by_cases hqnil : q = []
    · subst hqnil
      exact ⟨rfl, List.append_cancel_left h⟩
    · rw [counted_nil] at h
      exact absurd h.symm (counted_append_ne_of_ne_nil hqnil s r)
  · by_cases hqnil : q = []
    · subst hqnil
      rw [counted_nil] at h
      exact absurd h (counted_append_ne_of_ne_nil hpnil r s)
    · rw [counted_eq, counted_eq, List.append_assoc, List.append_assoc] at h
      obtain ⟨hlen, hrest⟩ := decimal_append_inj ((startsWithDigit_append hpnil r).trans hp)
        ((startsWithDigit_append hqnil s).trans hq) h
      exact append_inj_of_byteLength hrest hlen

theorem nest_splits : Splits (fun ps => ∀ p ∈ ps, startsWithDigit p = false) nest := by
  have hrow := counted_splits.flatMap (z := 'E') fun p _ => by
    obtain ⟨c, w, hw, hc⟩ := exists_counted_eq_cons p
    exact ⟨c, w, hw, by rintro rfl; exact absurd hc (by decide)⟩
  intro ps qs hps hqs r s h
  exact hrow hps hqs (List.cons.inj h).2

end Mangling

end CallGraph
