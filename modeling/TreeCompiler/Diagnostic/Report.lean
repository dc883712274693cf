/-
Diagnostics as a JSON report.
-/
import TreeCompiler.Diagnostic.Basic
import TreeCompiler.Diagnostic.Code
import TreeCompiler.Json.Printer

namespace TreeCompiler.Diagnostic

/-- A member that is left out when there is nothing to say. -/
def optionalMember (key : String) : Option String → List (String × Json)
  | some text => [(key, .text text)]
  | none => []

/-- One diagnostic.  What the registry knows about its code is added. -/
def toJson (d : Diagnostic) : Json :=
  let info := d.code.bind codeInfo?
  .object <|
    [("severity", .text d.severity.text)] ++
    optionalMember "code" d.code ++
    optionalMember "category" (info.map (·.category.text)) ++
    optionalMember "title" (info.map (·.title)) ++
    [("message", .text d.message)] ++
    optionalMember "location" d.location ++
    (if d.notes.isEmpty then [] else [("notes", .arr (d.notes.map .text))]) ++
    optionalMember "help" d.help

/-- The version of the form of a report. -/
def reportVersion : Nat := 1

/-- The report of a run. -/
def report (ds : List Diagnostic) (file phase : String) : Json :=
  .object
    [("version", .nat reportVersion),
     ("file", .text file),
     ("success", .bool (errorCount ds = 0)),
     ("phase", .text phase),
     ("diagnostics", .arr (ds.map toJson)),
     ("error_count", .nat (errorCount ds)),
     ("warning_count", .nat (ds.countP (·.severity = .warning)))]

/-- The text of a report. -/
def reportText (ds : List Diagnostic) (file phase : String) : String :=
  (report ds file phase).pretty

end TreeCompiler.Diagnostic
