import CallGraph.Json.Printer
import CallGraph.Json.Reader
import CallGraph.Proofs.Codes

/-!
# Reading what has been written

The text of a value on one line is read back as that value (`ofString_render`), provided that the
value is one that texts can hold (`Json.Plain`) and does not nest deeper than a reader goes
(`Json.depth`).

A text has no end of its own inside a larger one, so the statement that carries the induction is about
a value with something behind it: a reader to which a value is due inside some open containers, run on
the text of the value and a rest, is at the rest with the value complete and the same containers open
(`run_chars`). What is behind a number has to be something that does not continue it (`Ends`); inside a
container a comma or a bracket is.
-/

namespace CallGraph.Json

/-! ## Values with a text -/

mutual

/-- The value is without faults, and its numbers are natural and fit the word. -/
def Plain : Json → Prop
  | .null | .bool _ | .str _ => True
  | .num (.natural n) => n ≤ maxWord
  | .num (.negative _) | .num (.double _) => False
  | .arr items => items.Plain
  | .obj members => members.Plain
  | .missing _ | .flawed _ _ _ | .deep _ => False

def Items.Plain : Items → Prop
  | .done => True
  | .item v rest => v.Plain ∧ rest.Plain
  | .stop _ | .dangling _ => False

def Members.Plain : Members → Prop
  | .done => True
  | .member (.ok _) v rest => v.Plain ∧ rest.Plain
  | .member (.error _) _ _ | .stop _ | .dangling _ => False

end

mutual

/-- The number of containers around the innermost ones, these included. -/
def depth : Json → Nat
  | .arr items => items.depth + 1
  | .obj members => members.depth + 1
  | .deep v => v.depth
  | .null | .bool _ | .num _ | .str _ | .missing _ | .flawed _ _ _ => 0

def Items.depth : Items → Nat
  | .item v rest => max v.depth rest.depth
  | .done | .stop _ | .dangling _ => 0

def Members.depth : Members → Nat
  | .member _ v rest => max v.depth rest.depth
  | .done | .stop _ | .dangling _ => 0

end

/-! ## String literals -/

theorem unit16?_control {n : Nat} (hn : n < 0x20) :
    unit16? '0' '0' (hexChar (n / 16)) (hexChar (n % 16)) = some n := by
  revert n
  decide

/-- An escape or a character by itself is read as the character that was written. -/
theorem readLiteral_literalChar (before : List Char) (c : Char) (rest : List Char) :
    readLiteral before (literalChar c ++ rest) = readLiteral (c :: before) rest := by
  unfold literalChar
  split
  case h_8 _ hquote hslash _ _ _ _ _ =>
    split
    next hcontrol =>
      -- What four digits name is taken for half a character only far beyond the control characters.
      have hlow : isLowHalf c.toNat = false := by simp [isLowHalf]; omega
      have hhigh : isHighHalf c.toNat = false := by simp [isHighHalf]; omega
      simp [readLiteral, unit16?_control hcontrol, hlow, hhigh]
    next hcontrol =>
      rw [List.singleton_append, readLiteral.eq_def]
      split <;> simp_all
  all_goals rfl

theorem readLiteral_flatMap (before cs rest : List Char) :
    readLiteral before (cs.flatMap literalChar ++ '"' :: rest) = .ok (before.reverse ++ cs, rest) := by
  induction cs generalizing before with
  | nil => simp [readLiteral]
  | cons c cs ih =>
      rw [List.flatMap_cons, List.append_assoc, readLiteral_literalChar, ih]
      simp

theorem nextToken?_literal (s : String) (rest : List Char) :
    nextToken? (literal s ++ rest) = some (.literal (.whole s), rest) := by
  have hread : readLiteral [] (s.toList.flatMap literalChar ++ '"' :: rest) = .ok (s.toList, rest) :=
    readLiteral_flatMap [] s.toList rest
  simp [nextToken?, literal, isSpace, scanToken, scanLiteral, hread]

/-! ## Numbers -/

/-- Nothing at the front of the text continues a number. -/
def Ends (rest : List Char) : Prop :=
  ∀ c ∈ rest.head?, c.isDigit = false ∧ c ≠ '.' ∧ c ≠ 'e' ∧ c ≠ 'E'

theorem le_ofDigitChars (word : Nat) (ds : List Char) : word ≤ Nat.ofDigitChars 10 ds word := by
  induction ds generalizing word with
  | nil => exact Nat.le_refl _
  | cons d ds ih =>
      have := ih (10 * word + (d.toNat - '0'.toNat))
      simp only [Nat.ofDigitChars, List.foldl_cons] at this ⊢
      omega

/-- A number that fits the word is taken as a whole. -/
theorem takeDigits_eq {word : Nat} {ds : List Char} (h : Nat.ofDigitChars 10 ds word ≤ maxWord) :
    takeDigits word ds = (Nat.ofDigitChars 10 ds word, []) := by
  induction ds generalizing word with
  | nil => rfl
  | cons d ds ih =>
      have hstep : Nat.ofDigitChars 10 (d :: ds) word
          = Nat.ofDigitChars 10 ds (word * 10 + digitValue d) := by
        simp [Nat.ofDigitChars, digitValue, Nat.mul_comm]
      rw [hstep] at h ⊢
      have hfits : word * 10 + digitValue d ≤ maxWord := (le_ofDigitChars _ ds).trans h
      rw [takeDigits, if_pos hfits, ih h]

theorem takeWhile_decimal (n : Nat) {rest : List Char} (hrest : Ends rest) :
    (Nat.toDigits 10 n ++ rest).takeWhile Char.isDigit = Nat.toDigits 10 n
    ∧ (Nat.toDigits 10 n ++ rest).dropWhile Char.isDigit = rest := by
  have hdigits : ∀ c ∈ Nat.toDigits 10 n, c.isDigit = true := fun c hc =>
    Mangling.isDigit_of_mem_decimal hc
  rw [List.takeWhile_append_of_pos hdigits, List.dropWhile_append_of_pos hdigits]
  cases rest with
  | nil => simp
  | cons c rest =>
      have hc : c.isDigit = false := (hrest c rfl).1
      simp [hc]

/-- The parts after the whole number are absent if what follows does not start them. -/
theorem scanFraction_of_ends {p : Number.Parts} {rest : List Char} (hrest : Ends rest) :
    scanFraction p rest = wholeNumber p rest := by
  cases rest with
  | nil => rfl
  | cons c rest =>
      obtain ⟨-, hpoint, he, hE⟩ := hrest c rfl
      simp [scanFraction, scanExponent, hpoint, he, hE]

theorem scanNumber_decimal {n : Nat} (hn : n ≤ maxWord) {rest : List Char} (hrest : Ends rest) :
    scanNumber false (Nat.toDigits 10 n ++ rest) = (.num (.natural n), rest) := by
  have htake : takeDigits 0 (Nat.toDigits 10 n) = (n, []) := by
    have hvalue : Nat.ofDigitChars 10 (Nat.toDigits 10 n) 0 = n := Nat.ofDigitChars_ten_toDigits
    rw [takeDigits_eq (hvalue.trans_le hn), hvalue]
  have hzero : ¬((Nat.toDigits 10 n).head? = some '0' ∧ 1 < (Nat.toDigits 10 n).length) := by
    rintro ⟨hhead, hlen⟩
    rcases Nat.eq_zero_or_pos n with rfl | hpos
    · simp at hlen
    · exact Mangling.head?_decimal_ne (by omega) hhead
  obtain ⟨hwhole, hafter⟩ := takeWhile_decimal n hrest
  simp only [scanNumber, hwhole, hafter, if_neg hzero, scanFraction_of_ends hrest]
  simp [wholeNumber, Number.Parts.number?, htake, Nat.toDigits_ne_nil]

theorem nextToken?_natural {n : Nat} (hn : n ≤ maxWord) {rest : List Char} (hrest : Ends rest) :
    nextToken? ((Number.natural n).chars ++ rest) = some (.scalar (.num (.natural n)), rest) := by
  rw [Number.chars, Nat.toString_eq_repr, Nat.toList_repr]
  have hscan := scanNumber_decimal hn hrest
  cases hdigits : Nat.toDigits 10 n with
  | nil => exact absurd hdigits Nat.toDigits_ne_nil
  | cons d ds =>
      have hd : d.isDigit = true :=
        Mangling.isDigit_of_mem_decimal (hdigits ▸ List.mem_cons_self ..)
      rw [hdigits, List.cons_append] at hscan
      have hblank : isSpace d = false := by
        cases hspace : isSpace d with
        | false => rfl
        | true =>
            simp only [isSpace, Bool.or_eq_true, beq_iff_eq] at hspace
            rcases hspace with ((rfl | rfl) | rfl) | rfl <;> simp at hd
      have htoken : scanToken d (ds ++ rest) = (.scalar (.num (.natural n)), rest) := by
        unfold scanToken
        split
        case h_12 => simp [hd, hscan]
        all_goals simp at hd
      simp [nextToken?, hblank, htoken]

/-! ## Containers -/

theorem Items.ofList_append (tail : Items) (vs ws : List Json) :
    Items.ofList tail (vs ++ ws) = Items.ofList (Items.ofList tail ws) vs := by
  induction vs with
  | nil => rfl
  | cons v vs ih => simp [Items.ofList, ih]

theorem Members.ofList_append (tail : Members) (ms ns : List (Except Fault String × Json)) :
    Members.ofList tail (ms ++ ns) = Members.ofList (Members.ofList tail ns) ms := by
  induction ms with
  | nil => rfl
  | cons m ms ih => simp [Members.ofList, ih]

theorem closeArr_cons (v : Json) (before : List Json) (tail : Items) (stack : List Frame) :
    closeArr (v :: before) tail stack = closeArr before (.item v tail) stack := by
  simp [closeArr, Items.ofList_append, Items.ofList]

theorem closeObj_cons (m : Except Fault String × Json) (before : List (Except Fault String × Json))
    (tail : Members) (stack : List Frame) :
    closeObj (m :: before) tail stack = closeObj before (.member m.1 m.2 tail) stack := by
  simp [closeObj, Members.ofList_append, Members.ofList]

theorem nested_of_lt {stack : List Frame} (h : stack.length < nestingLimit) (v : Json) :
    nested stack v = v := by
  have hdrop : stack.drop (nestingLimit - 1) = [] := List.drop_eq_nil_of_le (by omega)
  rw [nested, hdrop]
  rfl

theorem ends_items (items : Items) (rest : List Char) : Ends (items.chars false ++ ']' :: rest) := by
  cases items <;> simp [Items.chars, Ends]

theorem ends_members (members : Members) (hplain : members.Plain) (rest : List Char) :
    Ends (members.chars false ++ '\x7d' :: rest) := by
  unfold Members.Plain at hplain
  split at hplain <;> simp_all [Members.chars, Ends]

namespace Reader

theorem run_of_nextToken? {cs rest : List Char} {t : Token} (h : nextToken? cs = some (t, rest))
    (r : Reader) : r.run cs = (r.step t).run rest := by
  rw [run]
  split <;> simp_all

/-- A value is due inside the containers of `stack`. -/
def Awaits (r : Reader) (stack : List Frame) : Prop :=
  ∀ t, t ≠ .closeArr → r.step t = start stack t

theorem awaits_value (stack : List Frame) : (value stack).Awaits stack :=
  fun _ _ => rfl

theorem awaits_items (before : List Json) (stack : List Frame) :
    (items before stack).Awaits (.arr before :: stack) := by
  intro t ht
  cases t <;> cases before <;> first | rfl | exact absurd rfl ht

theorem Awaits.run_of_nextToken? {r : Reader} {stack : List Frame} (hr : r.Awaits stack)
    {cs rest : List Char} {t : Token} (h : nextToken? cs = some (t, rest)) (ht : t ≠ .closeArr) :
    r.run cs = (start stack t).run rest := by
  rw [Reader.run_of_nextToken? h, hr t ht]

theorem Awaits.run_scalar {r : Reader} {stack : List Frame} (hr : r.Awaits stack)
    {cs rest : List Char} {v : Json} (h : nextToken? cs = some (.scalar v, rest)) :
    r.run cs = (after v stack).run rest :=
  hr.run_of_nextToken? h nofun

/-- Inside an array of which the items `before` are complete. -/
def insideArr (stack : List Frame) : List Json → Reader
  | [] => items [] stack
  | v :: before => after v (.arr before :: stack)

/-- Inside an object of which the members `before` are complete. -/
def insideObj (stack : List Frame) : List (Except Fault String × Json) → Reader
  | [] => members [] stack
  | (key, v) :: before => after v (.obj before key :: stack)

/-- The comma before an item, unless it is the first. -/
theorem run_insideArr (before : List Json) (stack : List Frame) (cs : List Char) :
    (insideArr stack before).run ((if before.isEmpty then [] else [',']) ++ cs)
      = (items before stack).run cs := by
  cases before with
  | nil => rfl
  | cons v before => exact run_of_nextToken? (t := .comma) rfl _

/-- The comma before a member, unless it is the first, then the key and its colon. -/
theorem run_insideObj (before : List (Except Fault String × Json)) (stack : List Frame)
    (key : String) (cs : List Char) :
    (insideObj stack before).run
        ((if before.isEmpty then [] else [',']) ++ (literal key ++ ':' :: cs))
      = (value (.obj before (.ok key) :: stack)).run cs := by
  have hcomma : (insideObj stack before).run
      ((if before.isEmpty then [] else [',']) ++ (literal key ++ ':' :: cs))
        = (members before stack).run (literal key ++ ':' :: cs) := by
    cases before with
    | nil => rfl
    | cons m before => exact run_of_nextToken? (t := .comma) rfl _
  rw [hcomma, run_of_nextToken? (nextToken?_literal key _)]
  cases before <;> exact run_of_nextToken? (t := .colon) rfl _

mutual

theorem run_chars : (v : Json) → v.Plain → ∀ {r : Reader} {stack : List Frame}, r.Awaits stack →
    v.depth + stack.length ≤ nestingLimit → ∀ {rest : List Char}, Ends rest →
    r.run (v.chars ++ rest) = (after v stack).run rest
  | .null, _, r, stack, hr, _, rest, _ => hr.run_scalar rfl
  | .bool true, _, r, stack, hr, _, rest, _ => hr.run_scalar rfl
  | .bool false, _, r, stack, hr, _, rest, _ => hr.run_scalar rfl
  | .num (.natural n), hplain, r, stack, hr, _, rest, hrest =>
    hr.run_scalar (nextToken?_natural hplain hrest)
  | .str s, _, r, stack, hr, _, rest, _ =>
    hr.run_of_nextToken? (nextToken?_literal s rest) nofun
  | .arr is, hplain, r, stack, hr, hdepth, rest, _ => by
    have hlt : is.depth + stack.length < nestingLimit := by rw [depth] at hdepth; omega
    have hopen (cs : List Char) : r.run ('[' :: cs) = (insideArr stack []).run cs :=
      hr.run_of_nextToken? (t := .openArr) rfl nofun
    rw [chars, List.append_assoc, List.cons_append, hopen]
    exact (run_items is hplain [] hlt).trans (by rw [Json.closeArr, nested_of_lt (by omega)]; rfl)
  | .obj ms, hplain, r, stack, hr, hdepth, rest, _ => by
    have hlt : ms.depth + stack.length < nestingLimit := by rw [depth] at hdepth; omega
    have hopen (cs : List Char) : r.run ('\x7b' :: cs) = (insideObj stack []).run cs :=
      hr.run_of_nextToken? (t := .openObj) rfl nofun
    rw [chars, List.append_assoc, List.cons_append, hopen]
    exact (run_members ms hplain [] hlt).trans (by rw [Json.closeObj, nested_of_lt (by omega)]; rfl)

/-- The items that are left, up to the bracket that closes the array. -/
theorem run_items : (is : Items) → is.Plain → ∀ (before : List Json) {stack : List Frame},
    is.depth + stack.length < nestingLimit → ∀ {rest : List Char},
    (insideArr stack before).run (is.chars before.isEmpty ++ ']' :: rest)
      = (after (Json.closeArr before is stack) stack).run rest
  | .done, _, before, stack, _, rest => by
    cases before <;> exact run_of_nextToken? (t := .closeArr) rfl _
  | .item v is, hplain, before, stack, hdepth, rest => by
    rw [Items.depth] at hdepth
    have hv : v.depth + (Frame.arr before :: stack).length ≤ nestingLimit := by
      rw [List.length_cons]; omega
    have his : is.depth + stack.length < nestingLimit := by omega
    rw [Items.chars, List.append_assoc, List.append_assoc, run_insideArr,
      run_chars v hplain.1 (awaits_items before stack) hv (ends_items is rest), ← closeArr_cons]
    exact run_items is hplain.2 (v :: before) his

theorem run_members : (ms : Members) → ms.Plain → ∀ (before : List (Except Fault String × Json))
    {stack : List Frame}, ms.depth + stack.length < nestingLimit → ∀ {rest : List Char},
    (insideObj stack before).run (ms.chars before.isEmpty ++ '\x7d' :: rest)
      = (after (Json.closeObj before ms stack) stack).run rest
  | .done, _, before, stack, _, rest => by
    cases before <;> exact run_of_nextToken? (t := .closeObj) rfl _
  | .member (.ok key) v ms, hplain, before, stack, hdepth, rest => by
    rw [Members.depth] at hdepth
    have hv : v.depth + (Frame.obj before (.ok key) :: stack).length ≤ nestingLimit := by
      rw [List.length_cons]; omega
    have hms : ms.depth + stack.length < nestingLimit := by omega
    rw [Members.chars, List.append_assoc, List.append_assoc, List.append_assoc, List.cons_append,
      run_insideObj, run_chars v hplain.1 (awaits_value _) hv (ends_members ms hplain.2 rest)]
    exact (run_members ms hplain.2 ((.ok key, v) :: before) hms).trans (by rw [closeObj_cons])

end

end Reader

/-- The text of a value is read back as the value, with nothing behind it. -/
theorem Document.ofString_render {v : Json} (hplain : v.Plain) (hdepth : v.depth ≤ nestingLimit) :
    Document.ofString v.render = ⟨v, false⟩ := by
  have hrun : (Reader.value []).run (v.chars ++ []) = (Reader.after v []).run [] :=
    Reader.run_chars v hplain (Reader.awaits_value []) hdepth (by simp [Ends])
  have hend : (Reader.after v []).run [] = .after v [] := by
    rw [Reader.run]
    rfl
  rw [List.append_nil, hend] at hrun
  rw [ofString, render, String.toList_ofList, ofChars, hrun]
  rfl

end CallGraph.Json
