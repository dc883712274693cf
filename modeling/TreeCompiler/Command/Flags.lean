/-
The arguments of a command.
-/
namespace TreeCompiler.Command

structure Flags where
  input : Option String := none
  output : Option String := none
  failFast : Bool := false
  json : Bool := false
  moduleName : Option String := none
  deriving DecidableEq, Repr

/-- Why arguments cannot be understood. -/
inductive FlagError where
  | needsPath (option : String)
  | needsName
  | unknownOption (option : String)
  | unexpectedArgument (argument : String)
  deriving DecidableEq, Repr

def FlagError.message : FlagError → String
  | needsPath option => "`" ++ option ++ "` needs a path"
  | needsName => "`--module-name` needs a name"
  | unknownOption option => "unknown option `" ++ option ++ "`"
  | unexpectedArgument argument => "unexpected argument `" ++ argument ++ "`"

def isOption (argument : String) : Bool := argument.toList.head? = some '-'

namespace Flags

/-- Take an argument that is no option: the one input. -/
def addInput (flags : Flags) (argument : String) : Except FlagError Flags :=
  match flags.input with
  | some _ => .error (.unexpectedArgument argument)
  | none => .ok { flags with input := some argument }

/-- Read arguments from left to right.  A later value of an option replaces an earlier one. -/
def parse (flags : Flags) : List String → Except FlagError Flags
  | [] => .ok flags
  | [argument] =>
    match argument with
    | "-o" | "--output" => .error (.needsPath argument)
    | "--module-name" => .error .needsName
    | "--fail-fast" => .ok { flags with failFast := true }
    | "--json" => .ok { flags with json := true }
    | _ => if isOption argument then .error (.unknownOption argument) else flags.addInput argument
  | argument :: value :: rest =>
    match argument with
    | "-o" | "--output" => parse { flags with output := some value } rest
    | "--module-name" => parse { flags with moduleName := some value } rest
    | "--fail-fast" => parse { flags with failFast := true } (value :: rest)
    | "--json" => parse { flags with json := true } (value :: rest)
    | _ =>
      if isOption argument then .error (.unknownOption argument)
      else
        match flags.addInput argument with
        | .ok flags => parse flags (value :: rest)
        | .error e => .error e

end Flags

end TreeCompiler.Command
