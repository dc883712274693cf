/-
Modules: functions and strings that share one set of names.
-/
import TreeCompiler.IR.Function

namespace TreeCompiler.IR

/-- A string constant of a module. -/
structure GlobalString where
  name : String
  /-- The text without the NUL that ends it. -/
  text : String
  deriving DecidableEq, Repr, Inhabited

structure Module where
  name : String
  targetTriple : Option String := none
  functions : List Function := []
  globals : List GlobalString := []
  names : NameSupply := {}
  deriving DecidableEq, Repr, Inhabited

namespace Module

/-- Add a function without a body. -/
def addFunction (m : Module) (name : String) (sig : Signature) (linkage : Linkage) :
    FuncId × Module :=
  (m.functions.length,
    { m with
      functions := m.functions ++ [.new (m.names.next "." name) sig linkage]
      names := m.names.record name })

/-- Add a string; the result is its address. -/
def addGlobalString (m : Module) (name text : String) : Value × Module :=
  (.global m.globals.length,
    { m with
      globals := m.globals ++ [{ name := m.names.next "." name, text }]
      names := m.names.record name })

/-- The first function that got this name. -/
def getFunction? (m : Module) (name : String) : Option FuncId :=
  m.functions.findIdx? (·.name = name)

def function (m : Module) (id : FuncId) : Function :=
  (m.functions[id]?).getD default

def global (m : Module) (id : GlobalId) : GlobalString :=
  (m.globals[id]?).getD default

def setFunction (m : Module) (id : FuncId) (f : Function) : Module :=
  { m with functions := m.functions.set id f }

/-- Change one function and give back what the change yields. -/
def updateFunction {α : Type} (m : Module) (id : FuncId) (change : Function → α × Function) :
    α × Module :=
  let (result, f) := change (m.function id)
  (result, m.setFunction id f)

/-- The names of all functions, in order. -/
def functionNames (m : Module) : List String := m.functions.map (·.name)

end Module

end TreeCompiler.IR
