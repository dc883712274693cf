/-
Scopes: one table of names per open region.

Tables are snapshots and no chain.  The body of a branch or a loop starts from a copy of the table
around it, nothing that it declares is seen after it closes, and a name is only ever looked up in
the innermost table.
-/
import TreeCompiler.Lowering.Error

namespace TreeCompiler.Lowering

open IR (FuncId BlockId Ty Value)

/-- The block that the instructions of a region are added to. -/
structure Cursor where
  func : FuncId
  block : BlockId
  deriving DecidableEq, Repr

/-- The position of a declaration in the record of declarations. -/
abbrev DeclId := Nat

inductive DeclKind where
  | variable
  | parameter
  deriving DecidableEq, Repr

/-- What is remembered of a declaration. -/
structure Decl where
  node : Program.NodeId
  name : String
  ty : Ty
  kind : DeclKind
  deriving DecidableEq, Repr

/-- What a name is bound to, and the declaration that bound it, if one did. -/
structure Binding where
  value : Value
  decl : Option DeclId
  deriving DecidableEq, Repr

/-- The table of one region; the latest binding of a name comes first. -/
structure Scope where
  cursor : Cursor
  bindings : List (String × Binding) := []
  deriving DecidableEq, Repr

/-- The open regions, the innermost first. -/
structure ScopeStack where
  scopes : List Scope := []
  deriving DecidableEq, Repr, Inhabited

namespace ScopeStack

def depth (s : ScopeStack) : Nat := s.scopes.length

/-- Open a region in which nothing is bound. -/
def push (s : ScopeStack) (cursor : Cursor) : ScopeStack :=
  ⟨{ cursor } :: s.scopes⟩

/-- Open a region that starts from a copy of the innermost table. -/
def pushCopy (s : ScopeStack) (cursor : Cursor) : Except LowerError ScopeStack :=
  match s.scopes with
  | [] => .error .noActiveScope
  | parent :: _ => .ok ⟨{ parent with cursor } :: s.scopes⟩

/-- Close the innermost region. -/
def pop (s : ScopeStack) : Except LowerError (Scope × ScopeStack) :=
  match s.scopes with
  | [] => .error .scopeUnderflow
  | scope :: rest => .ok (scope, ⟨rest⟩)

/-- Where the innermost region adds its instructions. -/
def cursor (s : ScopeStack) : Except LowerError Cursor :=
  match s.scopes with
  | [] => .error .noActiveScope
  | scope :: _ => .ok scope.cursor

/-- The innermost binding of a name. -/
def lookup (s : ScopeStack) (name : String) : Option Binding :=
  match s.scopes with
  | [] => none
  | scope :: _ => scope.bindings.lookup name

/-- The value a name is bound to. -/
def resolve (s : ScopeStack) (name : String) : Option Value :=
  (s.lookup name).map (·.value)

/-- The declaration a name was bound by. -/
def declOf (s : ScopeStack) (name : String) : Option DeclId :=
  (s.lookup name).bind (·.decl)

/-- Bind a name in the innermost table in place of any earlier binding. -/
def declare (s : ScopeStack) (name : String) (value : Value) (decl : Option DeclId) :
    Except LowerError ScopeStack :=
  match s.scopes with
  | [] => .error .noActiveScope
  | scope :: rest =>
    .ok ⟨{ scope with bindings := (name, ⟨value, decl⟩) :: scope.bindings } :: rest⟩

end ScopeStack

end TreeCompiler.Lowering
