/-
Sessions on a folder in memory.
-/
import TreeCompiler.Command.Path
import TreeCompiler.Command.Session

namespace TreeCompiler.Command

/-- What a file in memory holds. -/
inductive File where
  | bytes (b : ByteArray)
  | content (c : Content)

/-- The files of a folder that has no folders in it. -/
structure Folder where
  files : List (String × File) := []

namespace Folder

/-- Whether the folder has a file of this name. -/
def has (folder : Folder) (name : String) : Bool := (folder.files.lookup name).isSome

/-- The text of a file.  Folders can be opened but not read. -/
def read (folder : Folder) (path : String) : Except FileError String := do
  let route ← Route.ofPath path
  match ← route.source folder.has with
  | .nullDevice => .ok ""
  | .file name =>
    match folder.files.lookup name with
    | none => .error .noSuchFile
    | some (.content (.text s)) => .ok s
    | some (.content (.object ..)) => .error .notText
    | some (.bytes b) =>
      match String.fromUTF8? b with
      | some s => .ok s
      | none => .error .notText
  | _ => .error .isDirectory

/-- Replace a file or add one. -/
def put (folder : Folder) (name : String) (file : File) : Folder :=
  if folder.has name then
    ⟨folder.files.map fun (n, f) => if n = name then (n, file) else (n, f)⟩
  else ⟨folder.files ++ [(name, file)]⟩

/-- Write a file.  What is written elsewhere does not show in the folder. -/
def write (folder : Folder) (path : String) (content : Content) : Except FileError Folder := do
  let route ← Route.ofPath path
  match ← route.target folder.has with
  | some name => return folder.put name (.content content)
  | none => return folder

/-- The files that another folder does not have. -/
def newFiles (after before : Folder) : List (String × File) :=
  after.files.filter fun (name, _) => !before.has name

end Folder

/-- What a session leaves behind. -/
structure Outcome where
  status : Nat
  out : String
  err : String
  folder : Folder

/-- Run a session on a folder. -/
def Session.runIn (out err : String) (folder : Folder) : Session → Outcome
  | .exit status => { status, out, err, folder }
  | .print text rest => rest.runIn (out ++ text) err folder
  | .printError text rest => rest.runIn out (err ++ text) folder
  | .read path rest =>
    match folder.read path with
    | .ok text => (rest (.ok text)).runIn out err folder
    | .error e => (rest (.error e.text)).runIn out err folder
  | .write path content rest =>
    match folder.write path content with
    | .ok folder => (rest (.ok ())).runIn out err folder
    | .error e => (rest (.error e.text)).runIn out err folder
  | .generate code rest => (rest (Target.compile code)).runIn out err folder

end TreeCompiler.Command
