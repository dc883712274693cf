/-
The command line on the files of the machine.
-/
import TreeCompiler.Command.Path
import TreeCompiler.Command.Run
import TreeCompiler.Target.Printer

namespace TreeCompiler.Command

/-- The number of an error of the system.  Some operations report it with the sign changed. -/
def systemCode (code : UInt32) : UInt32 := if code < 0x80000000 then code else 0 - code

/-- The words of the system for a failed access to a file. -/
def accessFailure : IO.Error → String
  | .noFileOrDirectory .. => FileError.noSuchFile.text
  | .inappropriateType _ code _ =>
    if systemCode code = 20 then FileError.notDirectory.text else FileError.isDirectory.text
  | .permissionDenied .. => "Permission denied (os error 13)"
  | e@(.invalidArgument _ code _) =>
    if systemCode code = 36 then FileError.nameTooLong.text else toString e
  | e => toString e

/-- The text of an object file: its symbols and its code. -/
def objectText (o : Target.Object) (listings : List Target.Listing) : String :=
  let symbols := o.symbols.map fun s => "symbol " ++ s.name ++ "\n"
  let functions := listings.map fun l =>
    "\nfunction " ++ toString l.index ++ " " ++ l.routine.sig.text ++ "\n" ++
      String.join (l.routine.slots.map fun ty => "  " ++ Target.slotText ty ++ "\n") ++
      String.join (l.routine.lines.map fun line => "  " ++ line ++ "\n")
  "format " ++ o.format.text ++ "\n" ++ String.join symbols ++ String.join functions

def Content.toText : Content → String
  | .text s => s
  | .object o listings => objectText o listings

/-- Read a file that holds text. -/
def readText (path : String) : IO (Except String String) := do
  try
    match String.fromUTF8? (← IO.FS.readBinFile path) with
    | some text => return .ok text
    | none => return .error FileError.notText.text
  catch e => return .error (accessFailure e)

def writeText (path text : String) : IO (Except String Unit) := do
  try
    IO.FS.writeFile path text
    return .ok ()
  catch e => return .error (accessFailure e)

/-- Run a session on the disk. -/
def Session.perform : Session → IO UInt32
  | .exit status => return UInt32.ofNat status
  | .print text rest => do
    (← IO.getStdout).putStr text
    rest.perform
  | .printError text rest => do
    (← IO.getStderr).putStr text
    rest.perform
  | .read path rest => do
    match ← readText path with
    | .ok text => (rest (.ok text)).perform
    | .error reason => (rest (.error reason)).perform
  | .write path content rest => do
    match ← writeText path content.toText with
    | .ok () => (rest (.ok ())).perform
    | .error reason => (rest (.error reason)).perform
  | .generate code rest => (rest (Target.compile code)).perform

/-- Colours are used when they are asked for and not refused. -/
def wantsColour : IO Bool := do
  if (← IO.getEnv "NO_COLOR").isSome then return false
  return (← IO.getEnv "FORCE_COLOR").isSome

end TreeCompiler.Command

def main (args : List String) : IO UInt32 := do
  (TreeCompiler.Command.run { coloured := ← TreeCompiler.Command.wantsColour } args).perform
