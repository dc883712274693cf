/-
Symbols and object files.
-/
import TreeCompiler.Target.Code
import TreeCompiler.Target.Error

namespace TreeCompiler.Target

/-- Where a symbol can be seen. -/
inductive Visibility where
  /-- Defined elsewhere. -/
  | imported
  | exported
  | unseen
  deriving DecidableEq, Repr

/-- The visibility of a symbol that is declared twice. -/
def Visibility.merge : Visibility → Visibility → Visibility
  | exported, _ => exported
  | unseen, exported => exported
  | unseen, _ => unseen
  | imported, other => other

inductive SymbolKind where
  | function (sig : CodeSig) (defined : Bool)
  /-- A string with its bytes, once it is defined. -/
  | data (bytes : Option (List UInt8))
  deriving DecidableEq, Repr

def SymbolKind.isFunction : SymbolKind → Bool
  | function .. => true
  | data _ => false

structure Symbol where
  name : String
  visibility : Visibility
  kind : SymbolKind
  deriving DecidableEq, Repr

/-- The position of a symbol in its table. -/
abbrev SymbolId := Nat

/-- The symbols of an object file; no two have the same name. -/
structure SymbolTable where
  symbols : List Symbol := []
  deriving DecidableEq, Repr, Inhabited

namespace SymbolTable

def find? (t : SymbolTable) (name : String) : Option SymbolId :=
  t.symbols.findIdx? (·.name = name)

/-- The number of a function: how many functions come before its symbol. -/
def functionNumber (t : SymbolTable) (id : SymbolId) : FunctionNumber :=
  (t.symbols.take id).countP (·.kind.isFunction)

/-- Whether the function of this number is defined elsewhere. -/
def isImported (t : SymbolTable) (number : FunctionNumber) : Bool :=
  match (t.symbols.filter (·.kind.isFunction))[number]? with
  | some s => s.visibility = .imported
  | none => false

def add (t : SymbolTable) (s : Symbol) : SymbolId × SymbolTable :=
  (t.symbols.length, ⟨t.symbols ++ [s]⟩)

def set (t : SymbolTable) (id : SymbolId) (s : Symbol) : SymbolTable := ⟨t.symbols.set id s⟩

/-- Declare a function.  A second declaration under its name means the same function and must have
the same signature. -/
def declareFunction (t : SymbolTable) (name : String) (visibility : Visibility) (sig : CodeSig) :
    Except SymbolClash (SymbolId × SymbolTable) :=
  match t.find? name with
  | none => .ok (t.add ⟨name, visibility, .function sig false⟩)
  | some id =>
    match t.symbols[id]? with
    | some ⟨_, earlier, .function declared defined⟩ =>
      if declared = sig then
        .ok (id, t.set id ⟨name, earlier.merge visibility, .function sig defined⟩)
      else .error (.incompatibleSignature name declared sig)
    | _ => .error (.incompatibleDeclaration name)

/-- Declare a string. -/
def declareData (t : SymbolTable) (name : String) : Except SymbolClash (SymbolId × SymbolTable) :=
  match t.find? name with
  | none => .ok (t.add ⟨name, .unseen, .data none⟩)
  | some id =>
    match t.symbols[id]? with
    | some ⟨_, _, .data _⟩ => .ok (id, t)
    | _ => .error (.incompatibleDeclaration name)

/-- Give a declared function its code, unless it is defined elsewhere. -/
def defineFunction (t : SymbolTable) (id : SymbolId) : Except SymbolClash SymbolTable :=
  match t.symbols[id]? with
  | some ⟨name, .imported, .function ..⟩ => .error (.importDefinition name)
  | some ⟨name, visibility, .function sig false⟩ =>
    .ok (t.set id ⟨name, visibility, .function sig true⟩)
  | some s => .error (.duplicateDefinition s.name)
  | none => .ok t

/-- Give a declared string its bytes. -/
def defineData (t : SymbolTable) (id : SymbolId) (bytes : List UInt8) :
    Except SymbolClash SymbolTable :=
  match t.symbols[id]? with
  | some ⟨name, visibility, .data none⟩ => .ok (t.set id ⟨name, visibility, .data (some bytes)⟩)
  | some s => .error (.duplicateDefinition s.name)
  | none => .ok t

end SymbolTable

/-- An object file: its format and its symbols, sorted by name. -/
structure Object where
  format : ObjectFormat
  symbols : List Symbol
  deriving DecidableEq, Repr

/-- A label inside the code: a local symbol without bytes of its own. -/
def Symbol.label (name : String) : Symbol := ⟨name, .unseen, .data (some [])⟩

def Object.ofSymbols (format : ObjectFormat) (symbols : List Symbol) : Object :=
  { format, symbols := symbols.mergeSort fun a b => decide (a.name ≤ b.name) }

end TreeCompiler.Target
