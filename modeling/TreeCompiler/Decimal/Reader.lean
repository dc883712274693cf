/-
Reading numbers: runs of digits, exponents, and doubles by their text or name.

Every function that reads a part takes the remaining characters and gives back what it read and what
is left.
-/
import TreeCompiler.Decimal.Basic

namespace TreeCompiler

namespace Decimal

/-- The number a run of decimal digits stands for. -/
def digitsValue (ds : List Char) : Nat :=
  ds.foldl (fun n d => 10 * n + (d.toNat - '0'.toNat)) 0

/-- A nonempty run of digits, and what follows it. -/
def readDigits (cs : List Char) : Option (List Char × List Char) :=
  match cs.takeWhile Char.isDigit with
  | [] => none
  | ds => some (ds, cs.dropWhile Char.isDigit)

/-- The digits of an exponent with an optional sign. -/
def readSigned : List Char → Option (Int × List Char)
  | '-' :: rest => (readDigits rest).map fun (ds, rest) => (-(digitsValue ds : Int), rest)
  | '+' :: rest => (readDigits rest).map fun (ds, rest) => ((digitsValue ds : Int), rest)
  | cs => (readDigits cs).map fun (ds, rest) => ((digitsValue ds : Int), rest)

/-- An exponent, if one is written. -/
def readExponent : List Char → Option (Option Int × List Char)
  | 'e' :: rest => (readSigned rest).map fun (e, rest) => (some e, rest)
  | 'E' :: rest => (readSigned rest).map fun (e, rest) => (some e, rest)
  | cs => some (none, cs)

/-- A decimal after its sign.  There may be no digits before the point, or none after it, but not
neither. -/
def ofUnsigned? (negative : Bool) (cs : List Char) : Option Decimal := do
  let whole := cs.takeWhile Char.isDigit
  let (fraction, rest) := match cs.dropWhile Char.isDigit with
    | '.' :: rest => (rest.takeWhile Char.isDigit, rest.dropWhile Char.isDigit)
    | rest => ([], rest)
  if whole.isEmpty && fraction.isEmpty then none
  else
    match ← readExponent rest with
    | (exponent, []) =>
      some ⟨negative, digitsValue (whole ++ fraction), exponent.getD 0 - fraction.length⟩
    | _ => none

end Decimal

namespace Double

/-- A double after its sign: a decimal, or a name in letters of either case. -/
def ofUnsigned? (negative : Bool) (cs : List Char) : Option Double :=
  match String.ofList (cs.map Char.toLower) with
  | "inf" | "infinity" => some (infinity.signed negative)
  | "nan" => some (nan.signed negative)
  | _ => (Decimal.ofUnsigned? negative cs).map Decimal.toDouble

/-- The double that a text spells out, with an optional sign. -/
def ofString? (s : String) : Option Double :=
  match s.toList with
  | '-' :: rest => ofUnsigned? true rest
  | '+' :: rest => ofUnsigned? false rest
  | cs => ofUnsigned? false cs

end Double

end TreeCompiler
