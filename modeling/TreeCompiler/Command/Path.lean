/-
Paths, and where they lead.

A command runs in a working folder, which lies somewhere in the folders of a machine.  A path is
walked step by step, from the working folder or from the root, and every step is taken from a
folder.  Of the machine around the working folder nothing is known but that each folder has one
above it, the root being above itself, and that the root has a few folders that every machine has.
-/
namespace TreeCompiler.Command

/-- Why a file cannot be read or written. -/
inductive FileError where
  | noSuchFile
  | notDirectory
  | isDirectory
  | nameTooLong
  | notText
  deriving DecidableEq, Repr

/-- The words of the system. -/
def FileError.text : FileError → String
  | noSuchFile => "No such file or directory (os error 2)"
  | notDirectory => "Not a directory (os error 20)"
  | isDirectory => "Is a directory (os error 21)"
  | nameTooLong => "File name too long (os error 36)"
  | notText => "stream did not contain valid UTF-8"

/-- The most bytes a path may have. -/
def longestPath : Nat := 4095

/-- The most bytes a name may have. -/
def longestName : Nat := 255

/-- Where a path leads. -/
inductive Place where
  | workingFolder
  | root
  /-- The folder of the devices. -/
  | devices
  /-- Any other folder. -/
  | otherFolder
  /-- A file of the working folder. -/
  | file (name : String)
  /-- The device that is always empty. -/
  | nullDevice
  deriving DecidableEq, Repr

namespace Place

def isFolder : Place → Bool
  | workingFolder | root | devices | otherFolder => true
  | file _ | nullDevice => false

/-- The folder above. -/
def above : Place → Place
  | root | devices => root
  | _ => otherFolder

/-- The folders in the root of every machine, apart from that of the devices. -/
def rootFolders : List String := ["bin", "etc", "lib", "proc", "sys", "tmp", "usr", "var"]

/-- What a name means in a folder.  `isFile` tells the names of the files in the working folder. -/
def find? (isFile : String → Bool) (name : String) : Place → Option Place
  | workingFolder => if isFile name then some (file name) else none
  | root =>
    if name = "dev" then some devices
    else if name ∈ rootFolders then some otherFolder
    else none
  | devices => if name = "null" then some nullDevice else none
  | _ => none

/-- Take one step.  An empty step, as between two slashes, and a dot lead nowhere else. -/
def step (isFile : String → Bool) (place : Place) (name : String) : Except FileError Place :=
  if !place.isFolder then .error .notDirectory
  else if name = "" ∨ name = "." then .ok place
  else if name = ".." then .ok place.above
  else if longestName < name.utf8ByteSize then .error .nameTooLong
  else
    match place.find? isFile name with
    | some next => .ok next
    | none => .error .noSuchFile

/-- Take one step after the other. -/
def walk (isFile : String → Bool) (place : Place) (names : List String) :
    Except FileError Place :=
  names.foldlM (step isFile) place

end Place

/-- The steps of a path and the folder they start from. -/
structure Route where
  start : Place
  steps : List String
  deriving DecidableEq, Repr

namespace Route

/-- The texts between the slashes of a path. -/
def pieces : List Char → List (List Char)
  | [] => [[]]
  | '/' :: rest => [] :: pieces rest
  | c :: rest =>
    match pieces rest with
    | [] => [[c]]
    | piece :: more => (c :: piece) :: more

/-- The route that a path describes.  A path that starts with a slash starts from the root. -/
def ofPath (path : String) : Except FileError Route :=
  if path = "" then .error .noSuchFile
  else if longestPath < path.utf8ByteSize then .error .nameTooLong
  else
    match (pieces path.toList).map String.ofList with
    | "" :: steps => .ok ⟨.root, steps⟩
    | steps => .ok ⟨.workingFolder, steps⟩

/-- Where a route leads that is to be read. -/
def source (isFile : String → Bool) (r : Route) : Except FileError Place :=
  r.start.walk isFile r.steps

/-- Where a route leads that is to be written: to a file, or to `none` if a new file is not in the
working folder.  The last name need not mean anything yet, but a slash after it would make it a
folder. -/
def target (isFile : String → Bool) (r : Route) : Except FileError (Option String) := do
  match r.steps.reverse.dropWhile (· = "") with
  | [] => .error .isDirectory
  | last :: before =>
    if last = "." ∨ last = ".." then
      let _ ← r.source isFile
      .error .isDirectory
    else
      let folder ← r.start.walk isFile before.reverse
      if !folder.isFolder then .error .notDirectory
      else if r.steps.getLast? = some "" then .error .isDirectory
      else
        match folder.step isFile last with
        | .ok (.file name) => .ok (some name)
        | .ok .nullDevice => .ok none
        | .ok _ => .error .isDirectory
        | .error .noSuchFile => .ok (if folder = .workingFolder then some last else none)
        | .error e => .error e

end Route

end TreeCompiler.Command
