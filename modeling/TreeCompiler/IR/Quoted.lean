/-
Byte strings between quotes.

Printable ASCII characters other than the quote and the backslash stand for themselves; every other
byte is a backslash and two hexadecimal digits.  A NUL ends the string.
-/
namespace TreeCompiler.IR

/-- Whether a byte is written as the character it is. -/
def isPlainByte (b : UInt8) : Bool :=
  decide (0x20 ≤ b) && decide (b < 0x7f) && b ≠ 0x22 && b ≠ 0x5c

/-- A hexadecimal digit in upper case. -/
def upperHexDigit (n : Nat) : Char :=
  (Nat.digitChar (n % 16)).toUpper

/-- One byte as it is written. -/
def escapeByte (b : UInt8) : List Char :=
  if isPlainByte b then [Char.ofNat b.toNat]
  else ['\\', upperHexDigit (b.toNat / 16), upperHexDigit b.toNat]

/-- The UTF-8 bytes of a text and the NUL that ends them. -/
def terminatedBytes (text : String) : List UInt8 :=
  text.toUTF8.toList ++ [0]

/-- A text as a quoted byte string, without the quotes. -/
def escapeBytes (text : String) : String :=
  String.ofList ((terminatedBytes text).flatMap escapeByte)

end TreeCompiler.IR
