import CallGraph.Json.Basic

/-!
# Numbers of a JSON text

The grammar is an optional minus, digits without a leading zero, then optionally a fraction and an
exponent. Without fraction and exponent the number is kept exactly as long as it fits an unsigned
64-bit word, or below zero a signed one. Every other number becomes a double in a fixed way: the
leading digits as far as they fit the word are rounded to a double, and the power of ten is applied
by one multiplication or division. A result beyond the largest double is refused.
-/

namespace CallGraph.Json

/-- The largest significand that is kept. -/
def maxWord : Nat := UInt64.size - 1

def digitValue (c : Char) : Nat :=
  c.toNat - '0'.toNat

/-- Append as many of the digits as fit the word; the digits that are left over come back. -/
def takeDigits (word : Nat) : List Char → Nat × List Char
  | [] => (word, [])
  | c :: cs =>
    if word * 10 + digitValue c ≤ maxWord then takeDigits (word * 10 + digitValue c) cs
    else (word, c :: cs)

def tenTo (e : Nat) : Float :=
  Float.ofScientific 1 false e

/-- Divide by `10 ^ e`, in steps when the power itself is no double. -/
def divideByTenTo (x : Float) (e : Nat) : Float :=
  if 308 < e ∧ x != 0 then divideByTenTo (x / tenTo 308) (e - 308)
  else if 308 < e then x
  else x / tenTo e
termination_by e

/-- `word * 10 ^ e`, unless that is beyond the largest double. -/
def scaled? (word : Nat) (e : Int) : Option Float :=
  let x := word.toUInt64.toFloat
  match e with
  | .negSucc k => some (divideByTenTo x (k + 1))
  | .ofNat k =>
    if k ≤ 308 then
      let y := x * tenTo k
      if y.isInf then none else some y
    else if x == 0 then some x
    else none

/-- The parts of a number, in digits: `whole`, then `fraction` if there is a point, then the signed
`exponent` if there is one. -/
structure Number.Parts where
  isNegative : Bool
  whole : List Char
  fraction : Option (List Char)
  exponent : Option (Bool × List Char)

/-- The value of digits of any length. -/
def digitsValue (ds : List Char) : Nat :=
  ds.foldl (fun n c => n * 10 + digitValue c) 0

def Number.Parts.double? (p : Parts) : Option Number :=
  let (word, dropped) := takeDigits 0 p.whole
  let fraction := p.fraction.getD []
  let (word, unused) := takeDigits word fraction
  let places := fraction.length - unused.length
  let power : Int :=
    match p.exponent with
    | none => 0
    | some (isNegative, ds) => if isNegative then -(digitsValue ds : Int) else digitsValue ds
  (scaled? word (dropped.length - places + power)).map fun x =>
    .double (if p.isNegative then -x else x).toBits

/-- The number, or `none` if it is too large. -/
def Number.Parts.number? (p : Parts) : Option Number :=
  let (word, dropped) := takeDigits 0 p.whole
  if p.fraction.isSome || p.exponent.isSome || !dropped.isEmpty then p.double?
  else if !p.isNegative then some (.natural word)
  else if 1 ≤ word ∧ word ≤ UInt64.size / 2 then some (.negative word)
  else p.double?

/-- A number that the end of the text cuts off is worth waiting for only to someone who reads it. -/
def cutNumber (rest : List Char) : Json :=
  .flawed .number (if rest.isEmpty then .endInValue else .badNumber) (some .badNumber)

/-- A number whose parts have all been taken. -/
def wholeNumber (p : Number.Parts) (rest : List Char) : Json × List Char :=
  match p.number? with
  | some n => (.num n, rest)
  | none => (.flawed .number .numberTooLarge none, rest)

/-- The sign of an exponent, and what follows it. -/
def takeSign : List Char → Bool × List Char
  | '+' :: rest => (false, rest)
  | '-' :: rest => (true, rest)
  | rest => (false, rest)

def scanExponent (p : Number.Parts) (cs : List Char) : Json × List Char :=
  match cs with
  | [] => wholeNumber p []
  | c :: rest =>
    if c = 'e' ∨ c = 'E' then
      let (isNegative, rest) := takeSign rest
      let digits := rest.takeWhile Char.isDigit
      if digits.isEmpty then (cutNumber rest, [])
      else wholeNumber { p with exponent := some (isNegative, digits) } (rest.dropWhile Char.isDigit)
    else wholeNumber p (c :: rest)

def scanFraction (p : Number.Parts) (cs : List Char) : Json × List Char :=
  match cs with
  | '.' :: rest =>
    let digits := rest.takeWhile Char.isDigit
    if digits.isEmpty then (cutNumber rest, [])
    else scanExponent { p with fraction := some digits } (rest.dropWhile Char.isDigit)
  | rest => scanExponent p rest

/-- Scan a number whose minus, if any, has been taken. Where the number cannot be right, nothing of
the text is left. -/
def scanNumber (isNegative : Bool) (cs : List Char) : Json × List Char :=
  let whole := cs.takeWhile Char.isDigit
  if whole.isEmpty then (cutNumber cs, [])
  else if whole.head? = some '0' ∧ 1 < whole.length then
    (.flawed .number .badNumber (some .badNumber), [])
  else scanFraction ⟨isNegative, whole, none, none⟩ (cs.dropWhile Char.isDigit)

/-! ## What is left is no longer -/

theorem length_dropDigits_le (cs : List Char) : (cs.dropWhile Char.isDigit).length ≤ cs.length :=
  (cs.dropWhile_sublist _).length_le

theorem snd_wholeNumber (p : Number.Parts) (rest : List Char) : (wholeNumber p rest).2 = rest := by
  unfold wholeNumber
  split <;> rfl

theorem length_takeSign_le (cs : List Char) : (takeSign cs).2.length ≤ cs.length := by
  unfold takeSign
  split <;> simp

theorem length_scanExponent_le (p : Number.Parts) (cs : List Char) :
    (scanExponent p cs).2.length ≤ cs.length := by
  unfold scanExponent
  split
  · simp [snd_wholeNumber]
  next c rest =>
    split
    · dsimp only
      split
      · simp
      · rw [snd_wholeNumber]
        have h₁ := length_takeSign_le rest
        have h₂ := length_dropDigits_le (takeSign rest).2
        simp only [List.length_cons]
        omega
    · exact Nat.le_of_eq (congrArg List.length (snd_wholeNumber _ _))

theorem length_scanFraction_le (p : Number.Parts) (cs : List Char) :
    (scanFraction p cs).2.length ≤ cs.length := by
  unfold scanFraction
  split
  next rest =>
    dsimp only
    split
    · simp
    · have h₁ := length_scanExponent_le { p with fraction := some (rest.takeWhile Char.isDigit) }
        (rest.dropWhile Char.isDigit)
      have h₂ := length_dropDigits_le rest
      simp only [List.length_cons]
      omega
  · exact length_scanExponent_le p _

theorem length_scanNumber_le (isNegative : Bool) (cs : List Char) :
    (scanNumber isNegative cs).2.length ≤ cs.length := by
  unfold scanNumber
  dsimp only
  split
  · simp
  · split
    · simp
    · have h₁ := length_scanFraction_le ⟨isNegative, cs.takeWhile Char.isDigit, none, none⟩
        (cs.dropWhile Char.isDigit)
      have h₂ := length_dropDigits_le cs
      omega

theorem length_scanNumber_cons_le (isNegative : Bool) {c : Char} (hc : c.isDigit = true)
    (cs : List Char) : (scanNumber isNegative (c :: cs)).2.length ≤ cs.length := by
  unfold scanNumber
  dsimp only
  split
  · simp
  · split
    · simp
    · have h₁ := length_scanFraction_le ⟨isNegative, (c :: cs).takeWhile Char.isDigit, none, none⟩
        ((c :: cs).dropWhile Char.isDigit)
      have h₂ := length_dropDigits_le cs
      rw [List.dropWhile_cons_of_pos hc] at h₁ ⊢
      omega

end CallGraph.Json
