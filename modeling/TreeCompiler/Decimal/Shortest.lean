/-
The shortest decimal of a double.

Every double stands for an interval of real numbers: those that are nearer to it than to its
neighbours, the two ends counting when its mantissa is even.  The shortest decimal is a point of
that interval on the coarsest grid `k · 10 ^ p` that has one, and of two such points the nearer.  If
a grid has a point in the interval, then one of the two grid points around the double itself is in
it, so only those two are looked at.
-/
import TreeCompiler.Decimal.Basic

namespace TreeCompiler.Decimal

/-- The real numbers that round to `mantissa · 2 ^ exponent`, counted in quarters of
`2 ^ exponent`. -/
structure Interval where
  low : Nat
  centre : Nat
  high : Nat
  closed : Bool
  exponent : Int
  deriving DecidableEq, Repr

namespace Interval

/-- The interval of a positive double.  Just above a power of two the lower neighbour is only half
as far away. -/
def around (mantissa : Nat) (exponent : Int) : Interval :=
  let narrow := mantissa = Double.normalBound ∧ Double.minExponent < exponent
  { low := if narrow then 4 * mantissa - 1 else 4 * mantissa - 2
    centre := 4 * mantissa
    high := 4 * mantissa + 2
    closed := mantissa % 2 = 0
    exponent := exponent - 2 }

/-- One step of the grid `10 ^ p` and one unit of the interval, over a common denominator. -/
def scales (i : Interval) (p : Int) : Nat × Nat :=
  (Nat.pow 10 p.toNat * Nat.pow 2 (-i.exponent).toNat,
    Nat.pow 2 i.exponent.toNat * Nat.pow 10 (-p).toNat)

/-- Whether the grid point `k · 10 ^ p` lies in the interval. -/
def contains (i : Interval) (p : Int) (k : Nat) : Bool :=
  let (step, unit) := i.scales p
  if i.closed then
    decide (i.low * unit ≤ k * step) && decide (k * step ≤ i.high * unit)
  else
    decide (i.low * unit < k * step) && decide (k * step < i.high * unit)

/-- The point of the grid `10 ^ p` that represents the interval, if the grid has one.  Of two points
the nearer is taken, and the upper one of two equally near. -/
def point? (i : Interval) (p : Int) : Option Nat :=
  let (step, unit) := i.scales p
  let below := i.centre * unit / step
  match i.contains p below, i.contains p (below + 1) with
  | true, true =>
    if 2 * (i.centre * unit) < (2 * below + 1) * step then some below else some (below + 1)
  | true, false => some below
  | false, true => some (below + 1)
  | false, false => none

/-- The first grid with a point, from `10 ^ p` downwards. -/
def search (i : Interval) : Nat → Int → Nat × Int
  | 0, p => (0, p)
  | fuel + 1, p =>
    match i.point? p with
    | some (k + 1) => (k + 1, p)
    | _ => search i fuel (p - 1)

/-- No grid coarser than this power of ten has a point in the interval other than zero. -/
def coarsest (i : Interval) : Int :=
  (Nat.log2 i.high + 1 + i.exponent) * 30103 / 100000 + 1

end Interval

/-- Every double has a decimal of at most seventeen digits; a few more grids are tried because the
search starts from an estimate. -/
def gridCount : Nat := 24

/-- The shortest decimal that rounds to `mantissa · 2 ^ exponent`. -/
def shortest (negative : Bool) (mantissa : Nat) (exponent : Int) : Decimal :=
  if mantissa = 0 then ⟨negative, 0, 0⟩
  else
    let i := Interval.around mantissa exponent
    let (k, p) := i.search gridCount i.coarsest
    ⟨negative, k, p⟩

end TreeCompiler.Decimal
