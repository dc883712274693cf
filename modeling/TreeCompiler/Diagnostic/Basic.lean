/-
Diagnostics: what a user is told about a problem.
-/
namespace TreeCompiler.Diagnostic

inductive Severity where
  | error | warning | note
  deriving DecidableEq, Repr

def Severity.text : Severity → String
  | error => "error"
  | warning => "warning"
  | note => "note"

end TreeCompiler.Diagnostic

namespace TreeCompiler

/-- A message with what belongs to it. -/
structure Diagnostic where
  severity : Diagnostic.Severity
  code : Option String := none
  message : String
  /-- Where the problem is, for instance a function and a block. -/
  location : Option String := none
  notes : List String := []
  help : Option String := none
  deriving DecidableEq, Repr

def Diagnostic.isError (d : Diagnostic) : Bool := d.severity = .error

/-- The number of errors among diagnostics. -/
def Diagnostic.errorCount (ds : List Diagnostic) : Nat := ds.countP Diagnostic.isError

end TreeCompiler
