/-
Diagnostics on a terminal.
-/
import TreeCompiler.Diagnostic.Basic
import TreeCompiler.Diagnostic.Style

namespace TreeCompiler.Diagnostic

/-- How diagnostics are shown. -/
structure Formatter where
  coloured : Bool := false
  fileName : Option String := none
  deriving DecidableEq, Repr

def Severity.style : Severity → Style
  | error => .heavy .red
  | warning => .heavy .yellow
  | note => .heavy .blue

namespace Formatter

def paint (f : Formatter) (s : Style) (text : String) : String := s.paint f.coloured text

/-- Severity, code and message. -/
def header (f : Formatter) (d : Diagnostic) : String :=
  let severity := f.paint d.severity.style d.severity.text
  let code :=
    match d.code with
    | some code => "[" ++ f.paint (.heavy .red) code ++ "]"
    | none => ""
  severity ++ code ++ ": " ++ f.paint .strong d.message ++ "\n"

/-- The file and the place in it, as far as they are known. -/
def place (f : Formatter) (d : Diagnostic) : Option String :=
  match f.fileName, d.location with
  | some file, some location => some (file ++ ": " ++ location)
  | some file, none => some file
  | none, some location => some location
  | none, none => none

def locationLine (f : Formatter) (d : Diagnostic) : String :=
  match f.place d with
  | some place => "  " ++ f.paint (.plain .blue) "-->" ++ " " ++ place ++ "\n"
  | none => ""

/-- A line below the message, under a label. -/
def footerLine (f : Formatter) (style : Style) (label text : String) : String :=
  "    " ++ f.paint (.plain .cyan) "=" ++ " " ++ f.paint style label ++ ": " ++ text ++ "\n"

/-- The notes, then the help. -/
def footer (f : Formatter) (d : Diagnostic) : String :=
  String.join (d.notes.map (f.footerLine (.heavy .cyan) "note")) ++
    String.join (d.help.toList.map (f.footerLine (.heavy .green) "help"))

/-- One diagnostic. -/
def format (f : Formatter) (d : Diagnostic) : String :=
  f.header d ++ f.locationLine d ++ f.footer d

/-- The number of errors in words. -/
def tally (f : Formatter) (count : Nat) : String :=
  if count = 0 then ""
  else
    f.paint (.heavy .red) "error" ++ ": " ++ toString count ++
      (if count = 1 then " error" else " errors") ++ " emitted\n"

/-- All diagnostics, each followed by an empty line, and the number of errors. -/
def formatAll (f : Formatter) (ds : List Diagnostic) : String :=
  String.join (ds.map fun d => f.format d ++ "\n") ++ f.tally (errorCount ds)

end Formatter

end TreeCompiler.Diagnostic
