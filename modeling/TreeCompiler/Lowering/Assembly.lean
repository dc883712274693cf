/-
From a program to a module.

A module starts with the helper that prints a line.  The statements of the program become the body
of the entry function, and the functions that the program declares follow.
-/
import TreeCompiler.Lowering.Tree

namespace TreeCompiler.Lowering

open IR (FuncId)

/-- A module and the errors of the statements that are missing in it. -/
structure Lowered where
  code : IR.Module
  errors : List LowerError
  deriving Repr

namespace Lowered

def isClean (l : Lowered) : Bool := l.errors.isEmpty

/-- The module, if nothing is missing in it. -/
def toResult (l : Lowered) : Except (List LowerError) IR.Module :=
  if l.isClean then .ok l.code else .error l.errors

end Lowered

/-- The printing function of the system, declared once. -/
def declarePrintf (m : IR.Module) : FuncId × IR.Module :=
  match m.getFunction? "printf" with
  | some id => (id, m)
  | none => m.addFunction "printf" { params := [.str], ret := .i32, variadic := true } .external

/-- The body of the helper: print the argument, then a line break. -/
def helperBody (printf : FuncId) (newLine : IR.Value) (f : IR.Function) : Unit × IR.Function :=
  let f := f.setParamName 0 "text"
  let (entry, f) := f.createBlock "entry"
  let (_, f) := f.call entry printf .i32 [.param 0]
  let (_, f) := f.call entry printf .i32 [newLine]
  ((), (f.ret entry none).2)

/-- Add the function that prints a line. -/
def addHelper (m : IR.Module) (name : String) : FuncId × IR.Module :=
  let (printf, m) := declarePrintf m
  let (newLine, m) := m.addGlobalString "new_line" "\n"
  let (helper, m) := m.addFunction name { params := [.str], ret := .void } .concealed
  (helper, (m.updateFunction helper (helperBody printf newLine)).2)

/-- A module with the helper and an entry function that has one empty block. -/
def openModule (options : Options) : Cursor × IR.Module :=
  let m : IR.Module := { name := options.moduleName, targetTriple := options.targetTriple }
  let (_, m) := addHelper m options.helperName
  let (entry, m) := m.addFunction options.entryName { params := [], ret := .void } .external
  let (block, m) := m.updateFunction entry (·.createBlock "entry")
  (⟨entry, block⟩, m)

/-- End the entry function unless the program did. -/
def closeModule (entry : Cursor) (m : IR.Module) : IR.Module :=
  if (m.function entry.func).isTerminated entry.block then m
  else (m.updateFunction entry.func (·.ret entry.block none)).2

/-- Lower a whole program.  Under the best-effort policy statements that fail are left out and their
errors recorded; otherwise the first error is the result. -/
def lowerProgram (root : Program.Block) (options : Options) : Except LowerError Lowered :=
  let (entry, code) := openModule options
  let body : LowerM Unit := do
    pushScope entry
    let _ ← lowerBlock root
    popScope
  match body.run { code, options } with
  | (.ok (), s) => .ok { code := closeModule entry s.code, errors := s.errors }
  | (.error e, _) => .error e

end TreeCompiler.Lowering
