/-
JSON values as they are spelled.

Members keep their order and may repeat, and numbers keep whether they were written as integers,
because readers of this format care about all three.  A string literal with an unpaired surrogate
escape is valid JSON and yet denotes no text, so the text of a string is optional.
-/
import TreeCompiler.Decimal.Basic

namespace TreeCompiler

/-- A JSON number. -/
inductive Json.Number where
  /-- Written without fraction and exponent.  The sign is kept apart because of `-0`. -/
  | integer (negative : Bool) (magnitude : Nat)
  /-- Written with a fraction or an exponent. -/
  | decimal (value : Decimal)
  deriving DecidableEq, Repr

/-- A JSON value. -/
inductive Json where
  | null
  | bool (value : Bool)
  | num (value : Json.Number)
  | str (text : Option String)
  | arr (items : List Json)
  | obj (members : List (Option String × Json))
  deriving Repr

namespace Json

/-- A string value. -/
def text (s : String) : Json := .str (some s)

/-- A natural number as a value. -/
def nat (n : Nat) : Json := .num (.integer false n)

/-- An integer as a value. -/
def int (n : Int) : Json := .num (.integer (decide (n < 0)) n.natAbs)

/-- An object from named members, in order. -/
def object (members : List (String × Json)) : Json :=
  .obj (members.map fun (key, value) => (some key, value))

/-- A text, or null. -/
def textOrNull : Option String → Json
  | none => .null
  | some s => .text s

end Json

/-- The decimal a JSON number denotes. -/
def Json.Number.toDecimal : Json.Number → Decimal
  | .integer negative magnitude => ⟨negative, magnitude, 0⟩
  | .decimal value => value

end TreeCompiler
