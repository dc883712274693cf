/-
Why a statement cannot be lowered.
-/
import TreeCompiler.IR.Printer
import TreeCompiler.Program.Basic

namespace TreeCompiler.Lowering

/-- What a name stands for that cannot be assigned to. -/
inductive Unassignable where
  | parameter | value | loopCounter
  deriving DecidableEq, Repr

def Unassignable.text : Unassignable → String
  | parameter => "parameter"
  | value => "value"
  | loopCounter => "loop counter"

/-- A problem found while lowering one node. -/
inductive LowerError where
  | unresolvedIdentifier (name : String)
  | undeclaredAssignment (name : String)
  /-- A name that stands for something else than a variable; `what` says for what. -/
  | notAssignable (name what : String)
  | unknownCallee (name : String)
  | arityMismatch (name : String) (expected found : Nat)
  | unsupportedOperator (op : Program.BinOp)
  /-- Something without a value stands where `context` needs one. -/
  | missingValue (context : String)
  | scopeUnderflow
  | noActiveScope
  /-- An input was to be added to a value that is no phi. -/
  | notAPhi (spelling : String)
  deriving DecidableEq, Repr

namespace LowerError

def message : LowerError → String
  | unresolvedIdentifier name => "undeclared variable `" ++ name ++ "`"
  | undeclaredAssignment name => "assignment to undeclared variable `" ++ name ++ "`"
  | notAssignable name what =>
    "`" ++ name ++ "` is a " ++ what ++ ", not a variable that can be assigned"
  | unknownCallee name => "no such function `" ++ name ++ "`"
  | arityMismatch name expected found =>
    "function `" ++ name ++ "` takes " ++ toString expected ++ " argument(s) but " ++
      toString found ++ " were supplied"
  | unsupportedOperator op => "unsupported binary operator `" ++ op.symbol ++ "`"
  | missingValue context => context ++ " produced no value"
  | scopeUnderflow => "scope stack underflow"
  | noActiveScope => "no open scope"
  | notAPhi spelling => IR.notAPhiMessage spelling

/-- Faults of the compiler rather than of the program.  They end lowering under every policy. -/
def isInternal : LowerError → Bool
  | scopeUnderflow | noActiveScope | notAPhi _ => true
  | _ => false

end LowerError

/-- What to do about a statement that cannot be lowered. -/
inductive ErrorPolicy where
  /-- Record the error, leave the statement out and go on. -/
  | bestEffort
  /-- Stop at the first error. -/
  | failFast
  deriving DecidableEq, Repr

/-- The names and choices that a run of lowering is given. -/
structure Options where
  moduleName : String := "main"
  /-- The function around the statements of the program. -/
  entryName : String := "main"
  /-- The function that programs call to print a line. -/
  helperName : String := "println"
  /-- What loop bodies call the loop counter. -/
  inductionName : String := "i"
  targetTriple : Option String := none
  policy : ErrorPolicy := .bestEffort
  deriving DecidableEq, Repr, Inhabited

end TreeCompiler.Lowering
