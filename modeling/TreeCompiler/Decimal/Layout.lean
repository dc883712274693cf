/-
How a decimal is written down: positionally or with an exponent.
-/
import TreeCompiler.Decimal.Shortest

namespace TreeCompiler.Decimal

/-- The choices a number format makes. -/
structure Layout where
  /-- Numbers `d.ddd · 10 ^ e` with `e` from here … -/
  leastPositional : Int
  /-- … up to here are written without an exponent. -/
  greatestPositional : Int
  nan : String
  infinity : String
  deriving Repr

/-- The layout of floating-point constants: positional from `0.0001` to below `1e16`. -/
def Layout.constant : Layout := ⟨-4, 15, "NaN", "inf"⟩

/-- The digits of a positive number without its trailing zeros; zero has the digit `0`. -/
def significantDigits (n : Nat) : List Char :=
  match (Nat.toDigits 10 n).reverse.dropWhile (· = '0') with
  | [] => ['0']
  | ds => ds.reverse

/-- The exponent `e` of a decimal written as `d.ddd · 10 ^ e`. -/
def leadingExponent (d : Decimal) : Int :=
  if d.digits = 0 then 0 else d.exponent + (digitCount d.digits : Int) - 1

/-- Digits with the point after the first `e + 1` of them.  There is always a digit on either side
of the point. -/
def positional (ds : List Char) (e : Int) : List Char :=
  if e < 0 then
    '0' :: '.' :: List.replicate ((-e).toNat - 1) '0' ++ ds
  else
    let whole := e.toNat + 1
    let padded := ds ++ List.replicate (whole - ds.length) '0'
    match padded.drop whole with
    | [] => padded.take whole ++ ['.', '0']
    | fraction => padded.take whole ++ '.' :: fraction

/-- Digits with the point after the first, and an exponent.  A single digit has no point. -/
def scientific (ds : List Char) (e : Int) : List Char :=
  match ds with
  | [] => []
  | [d] => d :: 'e' :: (toString e).toList
  | d :: fraction => d :: '.' :: fraction ++ 'e' :: (toString e).toList

/-- The text of a decimal. -/
def render (l : Layout) (d : Decimal) : List Char :=
  let ds := significantDigits d.digits
  let e := d.leadingExponent
  let body :=
    if l.leastPositional ≤ e ∧ e ≤ l.greatestPositional then positional ds e else scientific ds e
  if d.negative then '-' :: body else body

/-- The text of a double in a layout.  The sign of a NaN is not written. -/
def doubleText (l : Layout) (x : Double) : String :=
  match x.value with
  | .nan _ => l.nan
  | .infinite true => "-" ++ l.infinity
  | .infinite false => l.infinity
  | .finite negative mantissa exponent =>
    String.ofList ((shortest negative mantissa exponent).render l)

end TreeCompiler.Decimal
