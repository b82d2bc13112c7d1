import CallGraph.Proofs.JsonText

/-!
# Tokens with something behind them

Where a token ends is decided by what follows it. A literal ends with its quotation mark and a word with
its last letter, but a number goes on as long as it can, and each of them is cut off when the text ends.
So a token at the front of a text is also the token at the front of a longer one if it is whole
(`Token.Whole`) and what has been put behind the text does not continue a number (`Ends`); this is
`nextToken?_append`.
-/

namespace CallGraph.Json

/-- Put text behind what a scanner leaves. -/
def leaving {α : Type} (more : List Char) (r : α × List Char) : α × List Char :=
  (r.1, r.2 ++ more)

/-! ## Literals and words -/

/-- A character that neither ends a literal nor starts an escape stands for itself. -/
theorem readLiteral_cons {before rest : List Char} {c : Char} (hquote : c ≠ '"') (hslash : c ≠ '\\')
    (hcontrol : ¬c.toNat < 0x20) :
    readLiteral before (c :: rest) = readLiteral (c :: before) rest := by
  rw [readLiteral.eq_def]
  split <;> simp_all

theorem readLiteral_append {before cs s rest : List Char}
    (h : readLiteral before cs = .ok (s, rest)) (more : List Char) :
    readLiteral before (cs ++ more) = .ok (s, rest ++ more) := by
  fun_induction readLiteral before cs
  case case15 c cs hquote hend _ _ hescape hcontrol ih =>
    have hslash : c ≠ '\\' := by
      rintro rfl
      cases cs with
      | nil => exact hend rfl rfl
      | cons e cs => exact hescape e cs rfl rfl
    rw [List.cons_append, readLiteral_cons hquote hslash hcontrol]
    exact ih h
  all_goals simp_all [readLiteral]

theorem scanLiteral_append {cs : List Char} (h : (scanLiteral cs).1.value.fault? = none)
    (more : List Char) : scanLiteral (cs ++ more) = leaving more (scanLiteral cs) := by
  unfold scanLiteral at h ⊢
  split at h
  next s rest hread =>
    rw [readLiteral_append hread more]
    rfl
  next f hread =>
    split at h <;> cases h

theorem scanWord_append {v : Json} {tail cs : List Char} (h : (scanWord v tail cs).1.fault? = none)
    (more : List Char) : scanWord v tail (cs ++ more) = leaving more (scanWord v tail cs) := by
  fun_induction scanWord v tail cs with
  | case1 cs => rfl
  | case2 => cases h
  | case3 w tail cs ih =>
    rw [List.cons_append, scanWord, if_pos rfl]
    exact ih h
  | case4 => cases h

/-! ## Numbers -/

/-- Digits end where something follows that does not continue a number. -/
theorem digits_append (cs : List Char) {more : List Char} (hmore : Ends more) :
    (cs ++ more).takeWhile Char.isDigit = cs.takeWhile Char.isDigit
    ∧ (cs ++ more).dropWhile Char.isDigit = cs.dropWhile Char.isDigit ++ more := by
  induction cs with
  | nil =>
      cases more with
      | nil => exact ⟨rfl, rfl⟩
      | cons c more =>
          have hc : c.isDigit = false := (hmore c rfl).1
          simp [hc]
  | cons c cs ih =>
      by_cases hc : c.isDigit = true
      · simp [hc, ih]
      · simp [hc]

theorem wholeNumber_append (p : Number.Parts) (rest more : List Char) :
    wholeNumber p (rest ++ more) = leaving more (wholeNumber p rest) := by
  unfold wholeNumber
  split <;> rfl

theorem takeSign_append (c : Char) (cs more : List Char) :
    takeSign (c :: (cs ++ more)) = leaving more (takeSign (c :: cs)) := by
  unfold takeSign
  split <;> simp_all [leaving]

theorem scanExponent_of_ends {p : Number.Parts} {rest : List Char} (hrest : Ends rest) :
    scanExponent p rest = wholeNumber p rest := by
  cases rest with
  | nil => rfl
  | cons c rest =>
      obtain ⟨-, -, he, hE⟩ := hrest c rfl
      simp [scanExponent, he, hE]

theorem scanExponent_append {p : Number.Parts} {cs : List Char}
    (h : (scanExponent p cs).1.fault? = none) {more : List Char} (hmore : Ends more) :
    scanExponent p (cs ++ more) = leaving more (scanExponent p cs) := by
  cases cs with
  | nil =>
      rw [List.nil_append, scanExponent_of_ends hmore]
      exact wholeNumber_append p [] more
  | cons c cs =>
      rw [List.cons_append]
      unfold scanExponent at h ⊢
      dsimp only at h ⊢
      split at h
      next he =>
        rw [if_pos he, if_pos he]
        cases cs with
        -- A text that ends here cuts the number off; what follows might have been its sign.
        | nil => cases h
        | cons d cs =>
            obtain ⟨htake, hdrop⟩ := digits_append (takeSign (d :: cs)).2 hmore
            rw [List.cons_append, takeSign_append]
            simp only [leaving, htake, hdrop]
            split at h
            next => cases h
            next hdigits =>
              rw [if_neg hdigits, if_neg hdigits]
              exact wholeNumber_append ..
      next he =>
        rw [if_neg he, if_neg he]
        exact wholeNumber_append p (c :: cs) more

theorem scanFraction_of_head? {p : Number.Parts} {cs : List Char} (h : cs.head? ≠ some '.') :
    scanFraction p cs = scanExponent p cs := by
  unfold scanFraction
  split
  next => exact absurd rfl h
  next => rfl

theorem scanFraction_append {p : Number.Parts} {cs : List Char}
    (h : (scanFraction p cs).1.fault? = none) {more : List Char} (hmore : Ends more) :
    scanFraction p (cs ++ more) = leaving more (scanFraction p cs) := by
  by_cases hpoint : cs.head? = some '.'
  · obtain ⟨cs, rfl⟩ : ∃ rest, cs = '.' :: rest := List.head?_eq_some_iff.mp hpoint
    obtain ⟨htake, hdrop⟩ := digits_append cs hmore
    simp only [List.cons_append, scanFraction, htake, hdrop] at h ⊢
    split at h
    next => cases h
    next hdigits =>
      rw [if_neg hdigits, if_neg hdigits]
      exact scanExponent_append h hmore
  · have hmorepoint : (cs ++ more).head? ≠ some '.' := by
      cases cs with
      | nil => exact fun hhead => (hmore '.' hhead).2.1 rfl
      | cons c cs => exact hpoint
    rw [scanFraction_of_head? hpoint] at h ⊢
    rw [scanFraction_of_head? hmorepoint]
    exact scanExponent_append h hmore

theorem scanNumber_append {isNegative : Bool} {cs : List Char}
    (h : (scanNumber isNegative cs).1.fault? = none) {more : List Char} (hmore : Ends more) :
    scanNumber isNegative (cs ++ more) = leaving more (scanNumber isNegative cs) := by
  obtain ⟨htake, hdrop⟩ := digits_append cs hmore
  unfold scanNumber at h ⊢
  simp only [htake, hdrop] at h ⊢
  split at h
  next => cases h
  next hdigits =>
    rw [if_neg hdigits, if_neg hdigits]
    split at h
    next => cases h
    next hzero =>
      rw [if_neg hzero, if_neg hzero]
      exact scanFraction_append h hmore

/-! ## Tokens -/

/-- The token is complete, as far as it is a scalar without fault. -/
def Token.Whole : Token → Prop
  | .literal l => l.value.fault? = none
  | .scalar v => v.fault? = none
  | .stray => False
  | .openArr | .closeArr | .openObj | .closeObj | .comma | .colon => True

theorem scanToken_append {c : Char} {cs : List Char} (h : (scanToken c cs).1.Whole)
    {more : List Char} (hmore : Ends more) :
    scanToken c (cs ++ more) = leaving more (scanToken c cs) := by
  unfold scanToken at h ⊢
  dsimp only at h ⊢
  split at h
  case h_7 =>
    rw [scanLiteral_append h more]
    rfl
  case h_8 =>
    rw [scanWord_append h more]
    rfl
  case h_9 =>
    rw [scanWord_append h more]
    rfl
  case h_10 =>
    rw [scanWord_append h more]
    rfl
  case h_11 =>
    rw [scanNumber_append h hmore]
    rfl
  case h_12 =>
    split at h
    next hdigit =>
      rw [if_pos hdigit, if_pos hdigit, ← List.cons_append, scanNumber_append h hmore]
      rfl
    next => cases h
  all_goals rfl

/-- A token is the same with something behind it that does not continue it. -/
theorem nextToken?_append {cs rest : List Char} {t : Token} (h : nextToken? cs = some (t, rest))
    (ht : t.Whole) {more : List Char} (hmore : Ends more) :
    nextToken? (cs ++ more) = some (t, rest ++ more) := by
  unfold nextToken? at h ⊢
  split at h
  · cases h
  next c cs' hdrop =>
    have happend : (cs ++ more).dropWhile isSpace = c :: (cs' ++ more) := by
      rw [List.dropWhile_append, hdrop]
      rfl
    have hscan : scanToken c cs' = (t, rest) := Option.some.inj h
    have hwhole : (scanToken c cs').1.Whole := by rwa [hscan]
    rw [happend]
    dsimp only
    rw [scanToken_append hwhole hmore, hscan]
    rfl

theorem nextToken?_blanks {cs : List Char} (h : nextToken? cs = none) (more : List Char) :
    nextToken? (cs ++ more) = nextToken? more := by
  have hdrop : cs.dropWhile isSpace = [] := by
    unfold nextToken? at h
    split at h
    next hdrop => exact hdrop
    next => cases h
  unfold nextToken?
  rw [List.dropWhile_append, hdrop]
  rfl

end CallGraph.Json
