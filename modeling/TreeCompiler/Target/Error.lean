/-
Why no code can be generated.
-/
import TreeCompiler.Target.Code

namespace TreeCompiler.Target

/-- Something in a function that no code can be made for. -/
inductive Unsupported where
  | voidParameter (function : String)
  | noBody (function : String)
  | voidPhi
  | voidValue
  | parameterOutOfRange (index : Nat)
  | unknownString (name : String)
  | usedBeforeDefinition (id : IR.InstId)
  | missingInput (target source : String)
  | unknownBlock (id : IR.BlockId)
  deriving DecidableEq, Repr

def Unsupported.reason : Unsupported → String
  | voidParameter function => "void parameter in @" ++ function
  | noBody function => "@" ++ function ++ " has no body"
  | voidPhi => "void phi"
  | voidValue => "void value"
  | parameterOutOfRange index => "parameter " ++ toString index ++ " out of range"
  | unknownString name => "unknown string @" ++ name
  | usedBeforeDefinition id => "value %" ++ toString id ++ " used before definition"
  | missingInput target source => "phi in `" ++ target ++ "` has no input from `" ++ source ++ "`"
  | unknownBlock id => "unknown block " ++ toString id

/-- Two uses of one symbol that exclude each other. -/
inductive SymbolClash where
  | duplicateDefinition (name : String)
  | incompatibleDeclaration (name : String)
  /-- A function is declared again with another signature. -/
  | incompatibleSignature (name : String) (earlier sig : CodeSig)
  /-- A symbol that was declared as defined elsewhere is defined here. -/
  | importDefinition (name : String)
  deriving DecidableEq, Repr

def SymbolClash.reason : SymbolClash → String
  | duplicateDefinition name => "Duplicate definition of identifier: " ++ name
  | incompatibleDeclaration name => "Incompatible declaration of identifier: " ++ name
  | incompatibleSignature name earlier sig =>
    "Function " ++ name ++ " signature " ++ sig.title ++
      " is incompatible with previous declaration " ++ earlier.title
  | importDefinition name => "Invalid to define identifier declared as an import: " ++ name

inductive CodegenError where
  | invalidModule (count : Nat)
  | unsupported (reason : String)
  | functionNotFound (name : String)
  | unknownTarget (triple : String)
  | backend (reason : String)
  | writeFailed (reason : String)
  deriving DecidableEq, Repr

namespace CodegenError

def message : CodegenError → String
  | invalidModule count => "module failed verification with " ++ toString count ++ " problem(s)"
  | unsupported reason => "unsupported construct: " ++ reason
  | functionNotFound name => "function not found: " ++ name
  | unknownTarget triple => "unknown target `" ++ triple ++ "`"
  | backend reason => "cranelift error: " ++ reason
  | writeFailed reason => "cannot write object file: " ++ reason

def ofUnsupported (u : Unsupported) : CodegenError := .unsupported u.reason

def ofClash (c : SymbolClash) : CodegenError := .backend c.reason

end CodegenError

end TreeCompiler.Target
