import RoutePlugins.Number.Double

/-!
# Shortest decimals

The text of a double has the fewest digits that read back to it, and of those the digits nearest to
its value. It is positional from a ten-thousandth up to sixteen digits before the point, and has an
exponent otherwise; a positional text keeps a digit after the point.
-/

namespace RoutePlugins.Double

/-- A whole number of powers of ten. -/
structure Decimal where
  digits : Nat
  exponent : Int

/-- A number and the ends of the interval that rounds to it, in one unit. -/
structure Rounding where
  value : Nat
  low : Nat
  high : Nat
  /-- Whether the ends round to the number too. -/
  closed : Bool

/-- Whether `x` rounds to the number. -/
def Rounding.holds (r : Rounding) (x : Nat) : Bool :=
  (r.low < x && x < r.high) || (r.closed && (x == r.low || x == r.high))

/-- The multiple of `unit` that rounds to the number and is nearest to it, of the two around it. -/
def Rounding.onGrid? (r : Rounding) (unit : Nat) : Option Nat :=
  let below := r.value / unit
  let above := below + 1
  let gapBelow := r.value - below * unit
  let gapAbove := above * unit - r.value
  match r.holds (below * unit), r.holds (above * unit) with
  | true, true =>
    if gapBelow < gapAbove || (gapBelow == gapAbove && below % 2 == 0) then some below
    else some above
  | true, false => some below
  | false, true => some above
  | false, false => none

/-- The quotient `num / (den * 10 ^ e)` as a numerator and a denominator. -/
def scaleDecimal (num den : Nat) (e : Int) : Nat × Nat :=
  if 0 ≤ e then (num, den * Nat.pow 10 e.toNat) else (num * Nat.pow 10 e.natAbs, den)

/-- The exponent of the leading decimal digit of `m * 2 ^ q`, for positive `m`. -/
def leadingDigit (m : Nat) (q : Int) : Int :=
  let k := (((m.log2 : Int) + q) * 30103).fdiv 100000
  let (n, d) := scaleBinary m 1 (-q)
  let (n, d) := scaleDecimal n d (k + 1)
  if d ≤ n then k + 1 else k

/-- The interval that rounds to `m * 2 ^ q`, and the grid of `10 ^ e`, in one unit. The gap below a
power of two is half the gap above it. -/
def roundingAt (m : Nat) (q e : Int) : Rounding × Nat :=
  let (n, d) := scaleDecimal 1 1 e
  let (up, unit) := if 2 ≤ q then (1 <<< (q - 2).toNat, 1) else (1, 1 <<< (2 - q).toNat)
  let place (x : Nat) := x * up * n
  let low := if m == 1 <<< 52 && minExponent < q then 4 * m - 1 else 4 * m - 2
  (⟨place (4 * m), place low, place (4 * m + 2), m % 2 == 0⟩, d * unit)

/-- Try one digit more at a time, with `tries` left, on the grid of `10 ^ e`. -/
def shortestFrom (m : Nat) (q : Int) : Nat → Int → Decimal
  | 0, e => ⟨0, e⟩
  | tries + 1, e =>
    let (r, unit) := roundingAt m q e
    match r.onGrid? unit with
    | some digits => ⟨digits, e⟩
    | none => shortestFrom m q tries (e - 1)

/-- The shortest decimal that rounds to `m * 2 ^ q`. Seventeen digits always suffice. -/
def shortest (m : Nat) (q : Int) : Decimal :=
  if m == 0 then ⟨0, 0⟩ else shortestFrom m q 17 (leadingDigit m q)

/-- The digits of a decimal without the zeros at their end, and the place of the point counted from
their front. -/
def Decimal.placed (d : Decimal) : List Char × Int :=
  let digits := Nat.toDigits 10 d.digits
  let kept := (digits.reverse.dropWhile (· == '0')).reverse
  (if kept.isEmpty then ['0'] else kept, digits.length + d.exponent)

/-- Two digits at least, after a sign. -/
def exponentText (e : Int) : List Char :=
  let digits := Nat.toDigits 10 e.natAbs
  (if e < 0 then '-' else '+') :: (if digits.length < 2 then '0' :: digits else digits)

/-- The text of digits with the point at `point`. -/
def decimalText (digits : List Char) (point : Int) : List Char :=
  if point ≤ -4 || 16 < point then
    let fraction := digits.tail
    digits.take 1 ++ (if fraction.isEmpty then [] else '.' :: fraction) ++
      'e' :: exponentText (point - 1)
  else if point ≤ 0 then '0' :: '.' :: List.replicate point.natAbs '0' ++ digits
  else
    let whole := point.toNat
    if whole < digits.length then digits.take whole ++ '.' :: digits.drop whole
    else digits ++ List.replicate (whole - digits.length) '0' ++ ['.', '0']

/-- The texts of the numbers that have no digits. -/
structure SpecialTexts where
  nan : String
  infinity : String

/-- The text of a double. -/
def text (special : SpecialTexts) : Double → List Char
  | .nan => special.nan.toList
  | .infinite negative => (if negative then ['-'] else []) ++ special.infinity.toList
  | .finite negative m q =>
    let (digits, point) := if m == 0 then (['0'], 1) else (shortest m q).placed
    (if negative then ['-'] else []) ++ decimalText digits point

end RoutePlugins.Double
