import ProblemScript.Numeric.Binary64
import ProblemScript.Text.Decimal

/-! Quantities: finite binary64 numbers read from decimal text. -/
namespace ProblemScript

/-- A finite number. Zero has no sign. -/
structure Quantity where
  negative : Bool
  magnitude : Binary64
deriving DecidableEq, Repr

namespace Quantity

def ofMagnitude (negative : Bool) (m : Binary64) : Quantity := ⟨negative && m.significand != 0, m⟩

/-- An optional sign at the start of a text, and the rest. -/
def takeSign : List Char → Bool × List Char
  | '-' :: cs => (true, cs)
  | '+' :: cs => (false, cs)
  | cs => (false, cs)

/-- An exponent part, `e` with an optional sign and digits, or nothing. -/
def exponent? : List Char → Option Int
  | [] => some 0
  | c :: cs =>
    let (negative, digits) := takeSign cs
    if (c == 'e' || c == 'E') && !digits.isEmpty && digits.all Char.isDigit then
      let n : Int := Text.decimal digits
      some (if negative then -n else n)
    else none

/-- Reads a number: an optional sign, digits with an optional point before, between or behind
them, and an optional exponent. Numbers that round to infinity are refused. -/
def ofDecimal? (cs : List Char) : Option Quantity := do
  let (negative, cs) := takeSign cs
  let whole := cs.takeWhile Char.isDigit
  let (fraction, cs) := match cs.dropWhile Char.isDigit with
    | '.' :: rest => (rest.takeWhile Char.isDigit, rest.dropWhile Char.isDigit)
    | rest => ([], rest)
  if whole.isEmpty && fraction.isEmpty then none
  let e ← exponent? cs
  let m ← Binary64.ofDecimal? (Text.decimal (whole ++ fraction)) (e - fraction.length)
  pure (ofMagnitude negative m)

/-- The quantity of a count. -/
def ofNat? (n : Nat) : Option Quantity := (Binary64.ofDecimal? n 0).map (ofMagnitude false)

end Quantity
end ProblemScript
