/-
Styled text on a terminal.

A style is switched on by an escape sequence before the text, and everything is switched off after
it.  Where the text itself switches everything off, the style is switched on again.
-/
namespace TreeCompiler.Diagnostic

inductive Colour where
  | red | green | yellow | blue | cyan
  deriving DecidableEq, Repr

def Colour.sgr : Colour → String
  | red => "31"
  | green => "32"
  | yellow => "33"
  | blue => "34"
  | cyan => "36"

structure Style where
  bold : Bool := false
  dimmed : Bool := false
  colour : Option Colour := none
  deriving DecidableEq, Repr

namespace Style

/-- The parameters of the sequence that switches a style on. -/
def parameters (s : Style) : List String :=
  (if s.bold then ["1"] else []) ++ (if s.dimmed then ["2"] else []) ++
    s.colour.toList.map Colour.sgr

def opening (s : Style) : List Char :=
  "\x1b[".toList ++ (";".intercalate s.parameters).toList ++ ['m']

/-- The sequence that switches everything off. -/
def reset : List Char := ['\x1b', '[', '0', 'm']

/-- Follow each reset inside a text by a sequence. -/
def reopen (opening : List Char) : List Char → List Char
  | '\x1b' :: '[' :: '0' :: 'm' :: rest => reset ++ opening ++ reopen opening rest
  | c :: rest => c :: reopen opening rest
  | [] => []

/-- A text in a style; without colours it stays as it is. -/
def paint (coloured : Bool) (s : Style) (text : String) : String :=
  if coloured then
    String.ofList (s.opening ++ reopen s.opening text.toList ++ reset)
  else text

def strong : Style := { bold := true }

def faint : Style := { dimmed := true }

def plain (c : Colour) : Style := { colour := some c }

def heavy (c : Colour) : Style := { bold := true, colour := some c }

end Style

end TreeCompiler.Diagnostic
