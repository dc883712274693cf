/-
The diagnostics of the errors that each part of the compiler reports.
-/
import TreeCompiler.Diagnostic.Basic
import TreeCompiler.Diagnostic.Suggestion
import TreeCompiler.IR.Verify
import TreeCompiler.Lowering.Error
import TreeCompiler.Target.Error

namespace TreeCompiler

/-- An error with a code. -/
def Diagnostic.ofCode (code message : String) : Diagnostic :=
  { severity := .error, code := some code, message }

namespace Lowering.LowerError

def code : LowerError → String
  | unresolvedIdentifier _ => "E0101"
  | undeclaredAssignment _ => "E0102"
  | notAssignable _ _ => "E0103"
  | unknownCallee _ => "E0104"
  | arityMismatch _ _ _ => "E0105"
  | unsupportedOperator _ => "E0106"
  | missingValue _ => "E0107"
  | scopeUnderflow | noActiveScope | notAPhi _ => "E0190"

def notes : LowerError → List String
  | unresolvedIdentifier _ =>
    ["branch and loop bodies see a copy of the enclosing scope; " ++
      "names declared inside them end with the body"]
  | notAssignable _ _ => ["parameters and the loop counter are values, not variables"]
  | unsupportedOperator _ => ["supported operators: + - * / < >"]
  | scopeUnderflow | noActiveScope | notAPhi _ =>
    ["this is a bug in the compiler, not in the program"]
  | _ => []

def help : LowerError → Option String
  | undeclaredAssignment name => some ("declare it first, e.g. `int " ++ name ++ " = ...`")
  | _ => none

def toDiagnostic (e : LowerError) : Diagnostic :=
  { Diagnostic.ofCode e.code e.message with notes := e.notes, help := e.help }

/-- The diagnostic of an error found while making a module.  For a function that does not exist, one
of the module is suggested. -/
def toDiagnosticIn (e : LowerError) (m : IR.Module) : Diagnostic :=
  match e with
  | unknownCallee name =>
    { e.toDiagnostic with help := Diagnostic.didYouMean name m.functionNames }
  | e => e.toDiagnostic

end Lowering.LowerError

namespace IR

def Violation.code : Violation → String
  | missingTerminator => "E0201"
  | instructionAfterTerminator => "E0202"
  | misplacedPhi => "E0203"
  | operandType .. => "E0204"
  | notAPointer .. => "E0205"
  | storeType .. => "E0206"
  | voidSlot => "E0207"
  | callArity .. => "E0208"
  | callArgType .. => "E0209"
  | returnType .. => "E0210"
  | conditionType .. => "E0211"
  | phiType .. => "E0212"

def Violation.notes : Violation → List String
  | missingTerminator => ["conditionals do not join back up; each branch must end in a return"]
  | instructionAfterTerminator =>
    ["code after a loop or conditional is emitted into the block that branches away"]
  | _ => []

def VerifyError.toDiagnostic (e : VerifyError) : Diagnostic :=
  { Diagnostic.ofCode e.violation.code e.violation.message with
    location := some ("@" ++ e.function ++ ", block `" ++ e.block ++ "`")
    notes := e.violation.notes }

end IR

namespace Target.CodegenError

def code : CodegenError → String
  | invalidModule _ => "E0301"
  | unsupported _ => "E0302"
  | functionNotFound _ => "E0303"
  | unknownTarget _ => "E0304"
  | backend _ => "E0305"
  | writeFailed _ => "E0306"

def help : CodegenError → Option String
  | invalidModule _ => some "run `ember check` to list the problems"
  | _ => none

def toDiagnostic (e : CodegenError) : Diagnostic :=
  { Diagnostic.ofCode e.code e.message with help := e.help }

end Target.CodegenError

end TreeCompiler
