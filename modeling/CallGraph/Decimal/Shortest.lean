/-!
# The shortest decimal of a binary fraction

A binary floating point number stands for every real that rounds to it. Of the decimals in that
interval this module picks the one on the coarsest power-of-ten grid that has a point there, and of
two such points the nearer, a tie going to the even one. Everything is exact arithmetic on `Nat`.
-/

namespace CallGraph

/-- `digits * 10 ^ exponent`. -/
structure Decimal where
  digits : Nat
  exponent : Int
  deriving Repr, DecidableEq

namespace Decimal

/-- A positive binary fraction `mantissa * 2 ^ exponent`. `narrowBelow` tells that the next fraction
below is only half as far away as the next one above. -/
structure Binary where
  mantissa : Nat
  exponent : Int
  narrowBelow : Bool
  deriving Repr, DecidableEq

namespace Binary

/-- The magnitude of a double with these bits; zero has mantissa zero. -/
def ofBits (bits : UInt64) : Binary :=
  let field : Nat := (bits.toNat >>> 52) % 0x800
  let fraction : Nat := bits.toNat % 0x10000000000000
  if field = 0 then ⟨fraction, -1074, false⟩
  else ⟨fraction + 0x10000000000000, (field : Int) - 1075, fraction = 0 && field ≠ 1⟩

/-- The points of the grid `10 ^ k` that round to `b`, at most two of them the value's neighbours;
the nearer one is chosen. Lengths are counted in quarters of the last binary place. -/
def onGrid? (b : Binary) (k : Int) : Option Decimal :=
  let scale := b.exponent - 2
  let num := Nat.pow 10 (-k).toNat <<< scale.toNat
  let den := Nat.pow 10 k.toNat <<< (-scale).toNat
  let value := 4 * b.mantissa * num
  let low := (4 * b.mantissa - if b.narrowBelow then 1 else 2) * num
  let high := (4 * b.mantissa + 2) * num
  let inside (d : Nat) : Bool :=
    d ≠ 0 && if b.mantissa % 2 = 0 then low ≤ d * den && d * den ≤ high
      else low < d * den && d * den < high
  let below := value / den
  let gapBelow := value - below * den
  let gapAbove := (below + 1) * den - value
  match inside below, inside (below + 1) with
  | true, true =>
    if gapBelow < gapAbove || (gapBelow = gapAbove && below % 2 = 0) then some ⟨below, k⟩
    else some ⟨below + 1, k⟩
  | true, false => some ⟨below, k⟩
  | false, true => some ⟨below + 1, k⟩
  | false, false => none

/-- The chosen decimal. Between `10 ^ 309` and `10 ^ (-343)` there is a grid for every positive
double. -/
def shortest? (b : Binary) : Option Decimal :=
  (List.range 653).findSome? fun i : Nat => b.onGrid? (309 - (i : Int))

end Binary

/-- Where the point stands: `digits` has its point `place` places from the left. -/
def place (d : Decimal) : Int :=
  (toString d.digits).length + d.exponent

/-- Positional with at least one place after the point for `10 ^ (-5) ≤ d < 10 ^ 16`, otherwise one
digit before the point, if any follow it, and a power of ten with its sign. -/
def text (d : Decimal) : String :=
  let digits := (toString d.digits).toList
  let zeros (n : Int) : List Char := List.replicate n.toNat '0'
  let place := d.place
  if 0 ≤ d.exponent ∧ place ≤ 16 then
    String.ofList (digits ++ zeros d.exponent ++ ['.', '0'])
  else if 0 < place ∧ place ≤ 16 then
    String.ofList (digits.take place.toNat ++ ['.'] ++ digits.drop place.toNat)
  else if -5 < place ∧ place ≤ 0 then
    String.ofList (['0', '.'] ++ zeros (-place) ++ digits)
  else
    let power := if 0 < place then s!"e+{place - 1}" else s!"e{place - 1}"
    match digits with
    | [] => power
    | [c] => c.toString ++ power
    | c :: rest => String.ofList (c :: '.' :: rest) ++ power

/-- The text of a double, by its bits. -/
def textOfDouble (bits : UInt64) : String :=
  let sign := if UInt64.size / 2 ≤ bits.toNat then "-" else ""
  let b := Binary.ofBits bits
  match (if b.mantissa = 0 then none else b.shortest?) with
  | none => sign ++ "0.0"
  | some d => sign ++ d.text

end Decimal

end CallGraph
