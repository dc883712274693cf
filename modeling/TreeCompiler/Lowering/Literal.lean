/-
What literals and type names mean.
-/
import TreeCompiler.IR.Basic

namespace TreeCompiler.Lowering

/-- The characters around the text of a string literal. -/
def isDelimiter (c : Char) : Bool := c = '"' || c = ' ' || c = '\t'

/-- Drop the delimiters at both ends. -/
def stripDelimiters (cs : List Char) : List Char :=
  ((cs.dropWhile isDelimiter).reverse.dropWhile isDelimiter).reverse

/-- Replace each backslash followed by `n` by a line break.  There are no other escapes. -/
def breakLines : List Char → List Char
  | '\\' :: 'n' :: rest => '\n' :: breakLines rest
  | c :: rest => c :: breakLines rest
  | [] => []

/-- The text of a string literal. -/
def literalText (raw : String) : String :=
  String.ofList (breakLines (stripDelimiters raw.toList))

/-- The type that a name stands for.  An unknown name stands for `void`. -/
def typeOf (name : String) : IR.Ty :=
  match name with
  | "int" => .i64
  | "double" => .f64
  | "str" => .str
  | _ => .void

end TreeCompiler.Lowering
