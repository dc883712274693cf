/-
Signed decimals `±digits · 10 ^ exponent`, and the double nearest to one.
-/
import TreeCompiler.Decimal.Double

namespace TreeCompiler

/-- The number `±digits · 10 ^ exponent`. -/
structure Decimal where
  negative : Bool
  digits : Nat
  exponent : Int
  deriving DecidableEq, Repr

namespace Decimal

/-- The number of decimal digits of a natural number; zero has none. -/
def digitCount (n : Nat) : Nat :=
  if n = 0 then 0 else (Nat.toDigits 10 n).length

/-- A number of this order of magnitude is beyond every finite double. -/
def overflowOrder : Int := 310

/-- A number below this order of magnitude is nearer to zero than to any other double. -/
def underflowOrder : Int := -330

/-- The double nearest to `digits · 10 ^ exponent`.  The order of magnitude is looked at first, so
that a huge exponent costs nothing. -/
def magnitude (d : Decimal) : Double :=
  let order := digitCount d.digits + d.exponent
  if d.digits = 0 then .zero
  else if overflowOrder < order then .infinity
  else if order < underflowOrder then .zero
  else if d.exponent < 0 then .ofFloat (.ofScientific d.digits true d.exponent.natAbs)
  else .ofFloat (.ofScientific d.digits false d.exponent.natAbs)

/-- The double nearest to a decimal; a decimal that is too large gives an infinity. -/
def toDouble (d : Decimal) : Double := d.magnitude.signed d.negative

end Decimal

end TreeCompiler
