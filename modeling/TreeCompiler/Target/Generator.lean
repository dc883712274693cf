/-
Generating an object file for a module.

Every function is declared before any is defined, so that calls may refer to functions that come
later.  A function without a body is an import.
-/
import TreeCompiler.IR.Quoted
import TreeCompiler.IR.Verify
import TreeCompiler.Target.AddressLoad
import TreeCompiler.Target.Object
import TreeCompiler.Target.Routine

namespace TreeCompiler.Target

open IR (FuncId GlobalId)

/-- The code of one function and the number of the function. -/
structure Listing where
  index : FunctionNumber
  routine : Routine
  deriving DecidableEq, Repr

structure Generator where
  platform : Platform
  table : SymbolTable := {}
  /-- The symbols of the functions that are declared, in the order of their declaration. -/
  functions : List (FuncId × SymbolId) := []
  /-- The symbols of the strings that are defined. -/
  strings : List (GlobalId × SymbolId) := []
  /-- The functions that have code so far, in the order in which it was made. -/
  listings : List Listing := []
  /-- The labels in the code of the functions that are defined. -/
  labels : List String := []
  deriving Repr

/-- Steps of code generation.  What was done before a failure stays. -/
abbrev GenerateM := ExceptT CodegenError (StateM Generator)

/-- Change the symbols, or fail on a clash. -/
def changeTable {α : Type} (change : SymbolTable → Except SymbolClash (α × SymbolTable)) :
    GenerateM α := do
  match change (← get).table with
  | .ok (a, table) =>
    modify ({ · with table })
    return a
  | .error e => throw (.ofClash e)

namespace Generator

/-- A generator for a target triple, or for the host if there is none. -/
def new (triple : Option String) : Except CodegenError Generator :=
  match triple with
  | none => .ok { platform := .host }
  | some triple =>
    match Platform.ofTriple? triple with
    | some platform => .ok { platform }
    | none => .error (.unknownTarget triple)

/-- The symbol of a function. -/
def symbolOf? (g : Generator) (id : FuncId) : Option SymbolId := g.functions.lookup id

/-- The signature that a symbol was declared with. -/
def sigOf? (g : Generator) (symbol : SymbolId) : Option CodeSig :=
  match g.table.symbols[symbol]? with
  | some ⟨_, _, .function sig _⟩ => some sig
  | _ => none

/-- What a function of the module can refer to at this point. -/
def environment (g : Generator) (m : IR.Module) : Environment where
  code := m
  conv := g.platform.callConv
  callees := g.functions.filterMap fun (id, symbol) =>
    (g.sigOf? symbol).map fun sig => (id, g.table.functionNumber symbol, sig)
  strings := g.strings.map (·.1)

def finish (g : Generator) : Object :=
  .ofSymbols g.platform.format (g.table.symbols ++ g.labels.map Symbol.label)

end Generator

/-! ### The steps -/

/-- The signature of a function in target code.  Of further arguments it says nothing. -/
def codeSig (conv : CallConv) (f : IR.Function) : Except CodegenError CodeSig := do
  let params ← f.sig.params.mapM fun ty =>
    match MachineTy.ofTy? ty with
    | some ty => .ok ty
    | none => .error (.ofUnsupported (.voidParameter f.name))
  return ⟨params, MachineTy.ofTy? f.sig.ret, conv⟩

def visibilityOf (f : IR.Function) : Visibility :=
  match f.linkage with
  | .external => if f.isDeclaration then .imported else .exported
  | .internal | .concealed => .unseen

/-- Declare one function. -/
def declareFunction (id : FuncId) (f : IR.Function) : GenerateM Unit := do
  match codeSig (← get).platform.callConv f with
  | .error e => throw e
  | .ok sig =>
    let symbol ← changeTable (·.declareFunction f.name (visibilityOf f) sig)
    modify fun g => { g with functions := (id, symbol) :: g.functions }

/-- Declare every function of a module. -/
def declareFunctions (m : IR.Module) : GenerateM Unit :=
  m.functions.zipIdx.forM fun (f, id) => declareFunction id f

/-- Define one string with the NUL that ends it. -/
def defineString (id : GlobalId) (s : IR.GlobalString) : GenerateM Unit := do
  let symbol ← changeTable (·.declareData s.name)
  changeTable fun t => (t.defineData symbol (IR.terminatedBytes s.text)).map ((), ·)
  modify fun g => { g with strings := (id, symbol) :: g.strings }

/-- Define every string of a module. -/
def defineStrings (m : IR.Module) : GenerateM Unit :=
  m.globals.zipIdx.forM fun (s, id) => defineString id s

/-- Generate the code of one function. -/
def generateFunction (m : IR.Module) (id : FuncId) : GenerateM Unit := do
  let g ← get
  let f := m.function id
  match (g.symbolOf? id).bind fun symbol => (g.sigOf? symbol).map (symbol, ·) with
  | none => throw (.functionNotFound f.name)
  | some (symbol, sig) =>
    match Routine.build (g.environment m) f sig with
    | .error e => throw e
    | .ok routine =>
      let number := g.table.functionNumber symbol
      modify fun g => { g with listings := g.listings ++ [{ index := number, routine }] }
      changeTable fun t => (t.defineFunction symbol).map ((), ·)
      if g.platform.labelsAddressLoads then
        let labels := routine.addressLabels g.table.isImported number
        modify fun g => { g with labels := g.labels ++ labels }

/-- Generate the code of a whole module. -/
def generateModule (m : IR.Module) : GenerateM Unit := do
  declareFunctions m
  defineStrings m
  m.functions.zipIdx.forM fun (f, id) => do
    unless f.isDeclaration do
      generateFunction m id

/-- What compiling a module comes to: the code that was made, and the object file or the error. -/
structure Compilation where
  listings : List Listing
  result : Except CodegenError Object

/-- Generate the code of a whole module and finish its object file. -/
def Generator.compile (g : Generator) (m : IR.Module) : Compilation :=
  match (generateModule m).run g with
  | (.ok (), g) => ⟨g.listings, .ok g.finish⟩
  | (.error e, g) => ⟨g.listings, .error e⟩

/-- Check a module and generate an object file for its target. -/
def compile (m : IR.Module) : Compilation :=
  match m.verify with
  | [] =>
    match Generator.new m.targetTriple with
    | .error e => ⟨[], .error e⟩
    | .ok g => g.compile m
  | problems => ⟨[], .error (.invalidModule problems.length)⟩

end TreeCompiler.Target
