/-
Doubles as bits, and their exact values.

Constants are carried through the compiler and written out, never computed with.  So a double is
kept as its 64 bits, and two constants are the same exactly if their bits are: zeros of different
sign differ, and a NaN keeps its sign.

A finite double is `±mantissa · 2 ^ exponent` with natural `mantissa`.  Both texts a double has in
this library, the shortest decimal and the hexadecimal constant, start from this reading of its
bits, so nothing here is rounded.
-/
namespace TreeCompiler

/-- A double-precision number. -/
structure Double where
  bits : UInt64
  deriving DecidableEq, Repr, Inhabited

namespace Double

/-- What the bits of a double stand for. -/
inductive Value where
  | nan (negative : Bool)
  | infinite (negative : Bool)
  | finite (negative : Bool) (mantissa : Nat) (exponent : Int)
  deriving DecidableEq, Repr

/-- The least exponent of a double, that of zero and of the subnormal numbers. -/
def minExponent : Int := -1074

/-- The mantissa of a normal number starts here. -/
def normalBound : Nat := 1 <<< 52

/-- Split the bits into sign, exponent field and fraction, and put the implicit bit back. -/
def value (x : Double) : Value :=
  let bits := x.bits.toNat
  let negative := bits.testBit 63
  let field := bits / normalBound % 2048
  let fraction := bits % normalBound
  if field = 2047 then
    if fraction = 0 then .infinite negative else .nan negative
  else if field = 0 then
    .finite negative fraction minExponent
  else
    .finite negative (normalBound + fraction) (minExponent + (field - 1 : Nat))

def zero : Double := ⟨0⟩

def one : Double := ⟨0x3FF0000000000000⟩

def infinity : Double := ⟨0x7FF0000000000000⟩

def nan : Double := ⟨0x7FF8000000000000⟩

/-- The double with the other sign.  Everything has one, also a NaN. -/
def negate (x : Double) : Double := ⟨x.bits ^^^ 0x8000000000000000⟩

/-- Change the sign, if it is to be negative. -/
def signed (negative : Bool) (x : Double) : Double := if negative then x.negate else x

def isInfinite (x : Double) : Bool :=
  match x.value with
  | .infinite _ => true
  | _ => false

/-- Whether a double is a number other than an infinity. -/
def isFinite (x : Double) : Bool :=
  match x.value with
  | .finite .. => true
  | _ => false

/-- The bits of a number that has been computed. -/
def ofFloat (x : Float) : Double := ⟨x.toBits⟩

end Double

end TreeCompiler
