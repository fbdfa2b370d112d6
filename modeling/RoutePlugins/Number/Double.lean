/-!
# Doubles

Double-precision numbers held exactly, as a sign, a whole mantissa and a power of two. Reading a
decimal rounds it to the nearest double, and a tie goes to the even mantissa. Two numbers are
compared by value.
-/

namespace RoutePlugins

/-- A double: `mantissa * 2 ^ exponent` with a sign, an infinity, or no number. -/
inductive Double where
  | finite (negative : Bool) (mantissa : Nat) (exponent : Int)
  | infinite (negative : Bool)
  | nan
  deriving DecidableEq, Repr

namespace Double

/-- The least exponent of a double. -/
def minExponent : Int := -1074

/-- The greatest exponent of a double with a full mantissa. -/
def maxExponent : Int := 971

/-- A quotient rounded to the nearest whole number, a tie to the even one. -/
def roundHalfEven (num den : Nat) : Nat :=
  let q := num / den
  let twice := 2 * (num % den)
  if den < twice || (twice == den && q % 2 == 1) then q + 1 else q

/-- The quotient `num / (den * 2 ^ e)` as a numerator and a denominator. -/
def scaleBinary (num den : Nat) (e : Int) : Nat × Nat :=
  if 0 ≤ e then (num, den <<< e.toNat) else (num <<< e.natAbs, den)

/-- The exponent of the leading bit of a positive quotient. -/
def leadingBit (num den : Nat) : Int :=
  let k : Int := (num.log2 : Int) - den.log2
  let (n, d) := scaleBinary num den k
  if d ≤ n then k else k - 1

/-- The double nearest to `num / den`. -/
def ofQuotient (negative : Bool) (num den : Nat) : Double :=
  if num == 0 then .finite negative 0 minExponent
  else
    let e := max (leadingBit num den - 52) minExponent
    let (n, d) := scaleBinary num den e
    let m := roundHalfEven n d
    let (m, e) := if m == 1 <<< 53 then (1 <<< 52, e + 1) else (m, e)
    if maxExponent < e then .infinite negative else .finite negative m e

/-- The double nearest to `digits * 10 ^ exponent`. Magnitudes outside the range of doubles are
settled before any power is computed. -/
def ofDecimal (negative : Bool) (digits : Nat) (exponent : Int) : Double :=
  let size : Int := (Nat.toDigits 10 digits).length + exponent
  if digits == 0 || size < -400 then .finite negative 0 minExponent
  else if 400 < size then .infinite negative
  else if 0 ≤ exponent then ofQuotient negative (digits * Nat.pow 10 exponent.toNat) 1
  else ofQuotient negative digits (Nat.pow 10 exponent.natAbs)

/-- Neither an infinity nor the absent number. -/
def isFinite : Double → Bool
  | .finite .. => true
  | _ => false

/-- Whether a double is zero, with either sign. -/
def isZero : Double → Bool
  | .finite _ m _ => m == 0
  | _ => false

/-- Equality of values: the two zeros are equal, and the absent number equals nothing. -/
def same (a b : Double) : Bool :=
  match a, b with
  | .nan, _ | _, .nan => false
  | _, _ => a == b || (a.isZero && b.isZero)

/-- Whether a double has the value of a whole number. -/
def sameAsInt (d : Double) (n : Int) : Bool :=
  match d with
  | .finite negative m e =>
    let sign : Int := if negative then -1 else 1
    if 0 ≤ e then sign * (m <<< e.toNat : Nat) == n
    else sign * m == n * (1 <<< e.natAbs : Nat)
  | _ => false

end Double

end RoutePlugins
