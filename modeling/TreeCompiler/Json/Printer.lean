/-
Writing JSON text, on one line or indented.

Quotes, backslashes and the characters below the blank are escaped, and nothing else is.
-/
import TreeCompiler.Json.Basic
import TreeCompiler.Decimal.Layout

namespace TreeCompiler.Json

/-- A hexadecimal digit in lower case. -/
def lowerHexDigit (n : Nat) : Char :=
  Nat.digitChar (n % 16)

/-- A character as it stands between the quotes of a string literal. -/
def escapeChar (c : Char) : List Char :=
  match c with
  | '"' => ['\\', '"']
  | '\\' => ['\\', '\\']
  | '\x08' => ['\\', 'b']
  | '\x0c' => ['\\', 'f']
  | '\n' => ['\\', 'n']
  | '\r' => ['\\', 'r']
  | '\t' => ['\\', 't']
  | c =>
    if c.toNat < 0x20 then
      ['\\', 'u', '0', '0', lowerHexDigit (c.toNat / 16), lowerHexDigit c.toNat]
    else [c]

/-- A string literal with its quotes. -/
def quote (cs : List Char) : List Char :=
  '"' :: cs.flatMap escapeChar ++ ['"']

/-- Numbers `d.ddd · 10 ^ e` with `e` from -5 to 15 are written without an exponent.  The last two
entries are never written: a JSON number is finite. -/
def numberLayout : Decimal.Layout := ⟨-5, 15, "null", "null"⟩

def Number.render : Number → List Char
  | .integer negative magnitude =>
    (if negative then ['-'] else []) ++ Nat.toDigits 10 magnitude
  | .decimal value => value.render numberLayout

/-- A string literal.  One that denotes no text is written as the empty text. -/
def renderText (s : Option String) : List Char :=
  quote (s.getD "").toList

/-! ### On one line -/

mutual

/-- The text of a value without any blanks. -/
def compact : Json → List Char
  | .null => "null".toList
  | .bool true => "true".toList
  | .bool false => "false".toList
  | .num n => n.render
  | .str s => renderText s
  | .arr items => '[' :: compactItems items ++ [']']
  | .obj members => '\x7b' :: compactMembers members ++ ['\x7d']

def compactItems : List Json → List Char
  | [] => []
  | [item] => compact item
  | item :: items => compact item ++ ',' :: compactItems items

def compactMembers : List (Option String × Json) → List Char
  | [] => []
  | [(key, value)] => renderText key ++ ':' :: compact value
  | (key, value) :: members =>
    renderText key ++ ':' :: compact value ++ ',' :: compactMembers members

end

/-! ### Indented -/

/-- A line break followed by two blanks for each level. -/
def newline (level : Nat) : List Char :=
  '\n' :: List.replicate (2 * level) ' '

mutual

/-- The text of a value with each item and each member on a line of its own. -/
def indented (level : Nat) : Json → List Char
  | .null => "null".toList
  | .bool true => "true".toList
  | .bool false => "false".toList
  | .num n => n.render
  | .str s => renderText s
  | .arr [] => "[]".toList
  | .arr (item :: items) => '[' :: indentedItems level (item :: items) ++ newline level ++ [']']
  | .obj [] => "\x7b\x7d".toList
  | .obj (m :: members) =>
    '\x7b' :: indentedMembers level (m :: members) ++ newline level ++ ['\x7d']

def indentedItems (level : Nat) : List Json → List Char
  | [] => []
  | [item] => newline (level + 1) ++ indented (level + 1) item
  | item :: items =>
    newline (level + 1) ++ indented (level + 1) item ++ ',' :: indentedItems level items

def indentedMembers (level : Nat) : List (Option String × Json) → List Char
  | [] => []
  | [(key, value)] =>
    newline (level + 1) ++ renderText key ++ ':' :: ' ' :: indented (level + 1) value
  | (key, value) :: members =>
    newline (level + 1) ++ renderText key ++ ':' :: ' ' :: indented (level + 1) value ++
      ',' :: indentedMembers level members

end

/-- The text of a value on one line. -/
def render (j : Json) : String :=
  String.ofList j.compact

/-- The text of a value over several lines. -/
def pretty (j : Json) : String :=
  String.ofList (j.indented 0)

end TreeCompiler.Json
