/-
The commands: lower a program, check it, build an object file.
-/
import TreeCompiler.Command.Flags
import TreeCompiler.Command.Session
import TreeCompiler.Diagnostic.Conversion
import TreeCompiler.Diagnostic.Report
import TreeCompiler.Diagnostic.Terminal
import TreeCompiler.Lowering.Assembly
import TreeCompiler.Program.Document

namespace TreeCompiler.Command

open Diagnostic (Style Formatter)
open Lowering (Lowered)

def version : String := "0.1.0"

/-- What a command depends on besides its arguments and its files: whether colours are shown, how
the reader of JSON takes numbers and what it says about a text that is no program, and what the log
shows. -/
structure Setting where
  coloured : Bool := false
  number : Program.NumberReader := Program.nearest
  complaint : String → String := fun _ => "unexpected text"
  /-- The lines of the log while the program of a file is lowered. -/
  loweringLog : String → Program.Block → Lowering.Options → String := fun _ _ _ => ""
  /-- The lines of the log while code is generated for a module. -/
  generatingLog : IR.Module → String := fun _ => ""

/-! ### What is printed -/

def errorLabel (coloured : Bool) : String := (Style.heavy .red).paint coloured "error"

def filePath (coloured : Bool) (path : String) : String := (Style.plain .cyan).paint coloured path

/-- End with an error message. -/
def failWith (coloured : Bool) (message : String) : Session :=
  .printError (errorLabel coloured ++ ": " ++ message ++ "\n") (.exit 1)

/-- A line between two rules. -/
def banner (coloured : Bool) (style : Style) (text : String) : String :=
  let rule := Style.faint.paint coloured "==="
  rule ++ " " ++ style.paint coloured text ++ " " ++ rule

def bannerOk (coloured : Bool) (phase : String) : String :=
  banner coloured (.heavy .green) (phase ++ " OK")

def bannerFail (coloured : Bool) (phase : String) (count : Nat) : String :=
  let errors := if count = 1 then "1 error" else toString count ++ " errors"
  banner coloured (.heavy .red) (phase ++ " FAILED: " ++ errors)

def usage (coloured : Bool) : String :=
  let section_ := (Style.heavy .yellow).paint coloured
  let command := (Style.plain .green).paint coloured
  String.join
    ["Ember " ++ version ++ " - AST to IR lowering\n",
     "\n",
     section_ "Usage:" ++ " ember <command> <program.json> [options]\n",
     "\n",
     section_ "Commands:" ++ "\n",
     "  " ++ command "lower" ++ "     Lower a program and print the IR\n",
     "  " ++ command "check" ++ "     Lower and verify, reporting every problem\n",
     "  " ++ command "build" ++ "     Lower, verify and write a native object file\n",
     "  " ++ command "help" ++ "      Show this help\n",
     "  " ++ command "version" ++ "   Show version\n",
     "\n",
     section_ "Options:" ++ "\n",
     "  -o <path>             Write output to <path> (required for build)\n",
     "  --fail-fast           Stop at the first lowering error\n",
     "  --module-name <name>  Name of the emitted module (default: main)\n",
     "  --json                Print diagnostics as JSON (check only)\n",
     "\n",
     "Set EMBER_LOG (e.g. EMBER_LOG=debug) to trace the lowering.\n"]

/-- Show diagnostics, if there are any, and go on. -/
def showDiagnostics (coloured : Bool) (path : String) (ds : List Diagnostic) (rest : Session) :
    Session :=
  match ds with
  | [] => rest
  | ds => .printError (({ coloured, fileName := some path } : Formatter).formatAll ds) rest

/-- The status of a command that found this many errors. -/
def statusOf (errors : Nat) : Nat := if errors = 0 then 0 else 1

/-! ### Reading and lowering a program -/

/-- Go on with the path of the input. -/
def withInput (coloured : Bool) (flags : Flags) (rest : String → Session) : Session :=
  match flags.input with
  | some path => rest path
  | none => failWith coloured "missing <program.json>"

/-- Read a program and go on with it. -/
def withProgram (setting : Setting) (path : String) (rest : Program.Block → Session) : Session :=
  .read path fun
    | .error reason =>
      failWith setting.coloured ("reading " ++ filePath setting.coloured path ++ ": " ++ reason)
    | .ok source =>
      match Program.Block.ofString? setting.number source with
      | some root => rest root
      | none =>
        failWith setting.coloured
          (filePath setting.coloured path ++ " is not a valid program: "
            ++ setting.complaint source)

def Flags.lowerOptions (flags : Flags) : Lowering.Options :=
  { moduleName := flags.moduleName.getD "main"
    policy := if flags.failFast then .failFast else .bestEffort }

/-- The diagnostics of the errors recorded while lowering. -/
def lowerDiagnostics (l : Lowered) : List Diagnostic := l.errors.map (·.toDiagnosticIn l.code)

/-- The diagnostics of a check of the module. -/
def verifyDiagnostics (l : Lowered) : List Diagnostic := l.code.verify.map (·.toDiagnostic)

/-- Read and lower a program and go on with the module.  If lowering had to stop, its error is shown
and the command ends. -/
def withLowered (setting : Setting) (flags : Flags) (path : String) (rest : Lowered → Session) :
    Session :=
  withProgram setting path fun root =>
    .printError (setting.loweringLog path root flags.lowerOptions)
      (match Lowering.lowerProgram root flags.lowerOptions with
        | .ok lowered => rest lowered
        | .error e => showDiagnostics setting.coloured path [e.toDiagnostic] (.exit 1))

/-! ### The commands -/

/-- Print the text of the module, or write it to a file. -/
def runLower (setting : Setting) (flags : Flags) : Session :=
  withInput setting.coloured flags fun path =>
    withLowered setting flags path fun lowered =>
      let ds := lowerDiagnostics lowered
      let finish :=
        showDiagnostics setting.coloured path ds (.exit (statusOf (Diagnostic.errorCount ds)))
      match flags.output with
      | none => .print lowered.code.text finish
      | some out =>
        .write out (.text lowered.code.text) fun
          | .ok () => finish
          | .error reason =>
            failWith setting.coloured
              ("writing " ++ filePath setting.coloured out ++ ": " ++ reason)

/-- Report everything wrong with a program. -/
def runCheck (setting : Setting) (flags : Flags) : Session :=
  withInput setting.coloured flags fun path =>
    withLowered setting flags path fun lowered =>
      let ds := lowerDiagnostics lowered ++ verifyDiagnostics lowered
      let errors := Diagnostic.errorCount ds
      let verdict := .exit (statusOf errors)
      if flags.json then .print (Diagnostic.reportText ds path "check" ++ "\n") verdict
      else
        let line :=
          if errors = 0 then bannerOk setting.coloured "Check"
          else bannerFail setting.coloured "Check" errors
        showDiagnostics setting.coloured path ds (.print (line ++ "\n") verdict)

/-- End a build with diagnostics. -/
def failBuild (coloured : Bool) (path : String) (ds : List Diagnostic) : Session :=
  showDiagnostics coloured path ds
    (.print (bannerFail coloured "Build" (Diagnostic.errorCount ds) ++ "\n") (.exit 1))

/-- Generate code and write it to a file. -/
def writeObject (setting : Setting) (path out : String) (code : IR.Module) : Session :=
  .generate code fun compilation =>
    .printError (setting.generatingLog code)
      (match compilation.result with
        | .error e => failBuild setting.coloured path [e.toDiagnostic]
        | .ok object =>
          .write out (.object object compilation.listings) fun
            | .error reason =>
              failBuild setting.coloured path
                [(Target.CodegenError.writeFailed reason).toDiagnostic]
            | .ok () =>
              .print
                (bannerOk setting.coloured "Build" ++ " " ++ filePath setting.coloured out ++ "\n")
                (.exit 0))

/-- Write an object file, if nothing is wrong with the program. -/
def runBuild (setting : Setting) (flags : Flags) : Session :=
  withInput setting.coloured flags fun path =>
    match flags.output with
    | none => failWith setting.coloured "build needs an output path: -o <out.o>"
    | some out =>
      withLowered setting flags path fun lowered =>
        let found := lowerDiagnostics lowered
        let ds :=
          if Diagnostic.errorCount found = 0 then found ++ verifyDiagnostics lowered else found
        if Diagnostic.errorCount ds = 0 then writeObject setting path out lowered.code
        else failBuild setting.coloured path ds

/-- Run the command line without the name of the program.  The arguments of a command are read
before its name is looked at. -/
def run (setting : Setting) (args : List String) : Session :=
  match args with
  | [] => .print (usage setting.coloured) (.exit 0)
  | command :: rest =>
    match command with
    | "help" | "--help" | "-h" => .print (usage setting.coloured) (.exit 0)
    | "version" | "--version" | "-V" => .print ("ember " ++ version ++ "\n") (.exit 0)
    | _ =>
      match ({} : Flags).parse rest with
      | .error e => failWith setting.coloured e.message
      | .ok flags =>
        match command with
        | "lower" => runLower setting flags
        | "check" => runCheck setting flags
        | "build" => runBuild setting flags
        | _ =>
          .printError (errorLabel setting.coloured ++ ": unknown command `" ++ command ++ "`\n")
            (.print (usage setting.coloured) (.exit 1))

end TreeCompiler.Command
