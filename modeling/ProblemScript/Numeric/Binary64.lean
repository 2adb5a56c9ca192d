/-! Rounding to binary64. A decimal number is rounded to the nearest number with a 53-bit
significand and an exponent in the range of binary64, a tie to the even significand. -/
namespace ProblemScript

/-- The number `significand * 2 ^ exponent`. Rounding gives the form with the least exponent not
below `-1074` for which the significand is below `2 ^ 53`, so equal numbers are equal here. -/
structure Binary64 where
  significand : Nat
  exponent : Int
deriving DecidableEq, Repr

namespace Binary64

def zero : Binary64 := ⟨0, -1074⟩

/-- `num / den` rounded to the nearest integer, a half to the even neighbour. -/
def roundDiv (num den : Nat) : Nat :=
  let q := num / den
  let r := num % den
  if den < 2 * r || (2 * r == den && q % 2 == 1) then q + 1 else q

/-- Numerator and denominator of `num / den / 2 ^ e`. -/
def scaled (num den : Nat) (e : Int) : Nat × Nat :=
  if 0 ≤ e then (num, den * Nat.pow 2 e.toNat) else (num * Nat.pow 2 (-e).toNat, den)

/-- Significands lie below this bound. -/
def significandBound : Nat := Nat.pow 2 53

/-- The nearest binary64 number to a positive quotient, unless it is too large. -/
def ofQuotient? (num den : Nat) : Option Binary64 :=
  let low := max ((num.log2 : Int) - den.log2 - 53) (-1074)
  let (n, d) := scaled num den low
  let e := if significandBound ≤ n / d then low + 1 else low
  let (n, d) := scaled num den e
  let s := roundDiv n d
  let (s, e) := if s = significandBound then (s / 2, e + 1) else (s, e)
  if 971 < e then none else some ⟨s, e⟩

/-- The nearest binary64 number to `coefficient * 10 ^ exponent`, unless it is too large. Powers
of ten are formed only where the result can be neither zero nor too large by size alone. -/
def ofDecimal? (coefficient : Nat) (exponent : Int) : Option Binary64 :=
  if coefficient = 0 then some zero
  else if 400 ≤ exponent then none
  else if (coefficient.log2 : Int) + 1 + 3 * exponent < -1080 then some zero
  else if 0 ≤ exponent then ofQuotient? (coefficient * Nat.pow 10 exponent.toNat) 1
  else ofQuotient? coefficient (Nat.pow 10 (-exponent).toNat)

end Binary64
end ProblemScript
