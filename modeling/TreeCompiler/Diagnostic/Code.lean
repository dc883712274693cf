/-
The codes of the known errors.
-/
namespace TreeCompiler.Diagnostic

/-- The part of the compiler that an error comes from. -/
inductive Category where
  | lowering | internal | verification | codegen
  deriving DecidableEq, Repr

def Category.text : Category → String
  | lowering => "Lowering"
  | internal => "Internal"
  | verification => "Verification"
  | codegen => "Codegen"

/-- What is registered about an error code. -/
structure CodeInfo where
  code : String
  title : String
  category : Category
  deriving DecidableEq, Repr

/-- Every known code, in ascending order. -/
def registry : List CodeInfo :=
  [⟨"E0101", "undeclared variable", .lowering⟩,
   ⟨"E0102", "assignment to undeclared variable", .lowering⟩,
   ⟨"E0103", "assignment target is not a variable", .lowering⟩,
   ⟨"E0104", "no such function", .lowering⟩,
   ⟨"E0105", "wrong number of arguments", .lowering⟩,
   ⟨"E0106", "unsupported binary operator", .lowering⟩,
   ⟨"E0107", "expression produced no value", .lowering⟩,
   ⟨"E0190", "internal lowering fault", .internal⟩,
   ⟨"E0201", "block has no terminator", .verification⟩,
   ⟨"E0202", "instruction after terminator", .verification⟩,
   ⟨"E0203", "misplaced phi", .verification⟩,
   ⟨"E0204", "operand type mismatch", .verification⟩,
   ⟨"E0205", "operand is not a pointer", .verification⟩,
   ⟨"E0206", "stored value does not fit the slot", .verification⟩,
   ⟨"E0207", "void stack slot", .verification⟩,
   ⟨"E0208", "call arity mismatch", .verification⟩,
   ⟨"E0209", "call argument type mismatch", .verification⟩,
   ⟨"E0210", "return type mismatch", .verification⟩,
   ⟨"E0211", "branch condition is not i1", .verification⟩,
   ⟨"E0212", "phi input type mismatch", .verification⟩,
   ⟨"E0301", "module failed verification", .codegen⟩,
   ⟨"E0302", "unsupported construct", .codegen⟩,
   ⟨"E0303", "function not found", .codegen⟩,
   ⟨"E0304", "unknown target", .codegen⟩,
   ⟨"E0305", "cranelift error", .codegen⟩,
   ⟨"E0306", "cannot write object file", .codegen⟩]

/-- What is registered about a code. -/
def codeInfo? (code : String) : Option CodeInfo := registry.find? (·.code = code)

end TreeCompiler.Diagnostic
