/-
What the elementary steps of lowering do.

A step of lowering is a state transformer that may fail.  The lemmas here say, for each elementary
step, what its outcome is and which state it leaves, as plain functions of the state before.  They
are all that later proofs use: no proof after this file opens the definition of a step.

The state has three parts that steps change: the module, the stack of scopes and the record of
declarations.  Each has its own few functions below (`emit`, `addBlock`, `bindName`, ...).
-/
import TreeCompiler.Lowering.Assembly
import TreeCompiler.Proofs.IR.Growth

namespace TreeCompiler.Lowering

open IR (FuncId BlockId InstId Ty Value Op)

variable {α β : Type}

/-! ### Running a step -/

/-- How a step ends when it is taken in a state, and the state it leaves. -/
def outcome (x : LowerM α) (s : Lowerer) : Except LowerError α × Lowerer := x.run s

section Outcome

variable (s : Lowerer)

@[simp] theorem outcome_pure (a : α) : outcome (pure a) s = (.ok a, s) := rfl

@[simp] theorem outcome_throw (e : LowerError) :
    outcome (throw e : LowerM α) s = (.error e, s) := rfl

@[simp] theorem outcome_modify (g : Lowerer → Lowerer) :
    outcome (modify g) s = (.ok (), g s) := rfl

/-- A sequence ends where its first part fails. -/
theorem outcome_bind (x : LowerM α) (k : α → LowerM β) :
    outcome (x >>= k) s =
      match outcome x s with
      | (.ok a, t) => outcome (k a) t
      | (.error e, t) => (.error e, t) := by
  show ExceptT.bindCont k (outcome x s).1 (outcome x s).2 = _
  rcases outcome x s with ⟨_ | _, t⟩ <;> rfl

theorem outcome_bind_ok {x : LowerM α} {a : α} {t : Lowerer} (k : α → LowerM β)
    (hx : outcome x s = (.ok a, t)) : outcome (x >>= k) s = outcome (k a) t := by
  rw [outcome_bind, hx]

theorem outcome_bind_error {x : LowerM α} {e : LowerError} {t : Lowerer} (k : α → LowerM β)
    (hx : outcome x s = (.error e, t)) : outcome (x >>= k) s = (.error e, t) := by
  rw [outcome_bind, hx]

@[simp] theorem outcome_get_bind (k : Lowerer → LowerM β) :
    outcome (get >>= k) s = outcome (k s) s := rfl

theorem outcome_tryCatch (x : LowerM α) (handle : LowerError → LowerM α) :
    outcome (tryCatch x handle) s =
      match outcome x s with
      | (.ok a, t) => (.ok a, t)
      | (.error e, t) => outcome (handle e) t := by
  simp only [outcome, tryCatch, tryCatchThe, MonadExceptOf.tryCatch, ExceptT.tryCatch,
    ExceptT.run, ExceptT.mk, bind, StateT.bind]
  rcases x s with ⟨_ | _, t⟩ <;> rfl

/-- A sequence succeeds exactly if its parts do. -/
theorem outcome_bind_eq_ok {x : LowerM α} {k : α → LowerM β} {b : β} {u : Lowerer} :
    outcome (x >>= k) s = (.ok b, u) ↔
      ∃ a t, outcome x s = (.ok a, t) ∧ outcome (k a) t = (.ok b, u) := by
  rw [outcome_bind]
  rcases hx : outcome x s with ⟨_ | a, t⟩
  · simp
  · constructor
    · intro h
      exact ⟨a, t, rfl, h⟩
    · rintro ⟨_, _, ⟨⟩, h⟩
      exact h

end Outcome

/-! ### States -/

namespace Lowerer

variable (s : Lowerer)

/-- Where the innermost region of a state adds its instructions. -/
def At (c : Cursor) : Prop := s.scopes.cursor = .ok c

/-- The function that a cursor is in. -/
def body (c : Cursor) : IR.Function := s.code.function c.func

/-- Change one function of the module. -/
def update (func : FuncId) (change : IR.Function → IR.Function) : Lowerer :=
  { s with code := s.code.setFunction func (change (s.code.function func)) }

/-- Add an instruction at a cursor. -/
abbrev emit (c : Cursor) (op : Op) (ty : Ty) (name : Option String) : Lowerer :=
  s.update c.func fun f => (f.push c.block op ty name).2

/-- Add a block to a function. -/
abbrev addBlock (func : FuncId) (base : String) : Lowerer :=
  s.update func fun f => (f.createBlock base).2

/-- Name the result of an instruction. -/
abbrev rename (func : FuncId) (value : Value) (name : String) : Lowerer :=
  s.update func (·.setValueName value name)

/-- Put another instruction in the place of a phi. -/
abbrev replace (func : FuncId) (k : InstId) (phi : IR.Inst) : Lowerer :=
  s.update func fun f => { f with insts := f.insts.set k phi }

/-- Bind a name in the innermost region. -/
def bindName (name : String) (value : Value) (decl : Option DeclId) : Lowerer :=
  match s.scopes.scopes with
  | [] => s
  | scope :: rest =>
    { s with
      scopes := ⟨{ scope with bindings := (name, ⟨value, decl⟩) :: scope.bindings } :: rest⟩ }

/-- Enter a declaration into the record. -/
def record (decl : Decl) : Lowerer := { s with decls := s.decls ++ [decl] }

/-- Open a region that starts from a copy of the innermost table. -/
def enter (c : Cursor) : Lowerer :=
  match s.scopes.scopes with
  | [] => s
  | scope :: rest => { s with scopes := ⟨{ scope with cursor := c } :: scope :: rest⟩ }

/-- Open a region in which nothing is bound. -/
def enterEmpty (c : Cursor) : Lowerer := { s with scopes := s.scopes.push c }

/-- Close the innermost region. -/
def leave : Lowerer := { s with scopes := ⟨s.scopes.scopes.tail⟩ }

variable {s} {c : Cursor}

section Update

variable {func other : FuncId} (change : IR.Function → IR.Function)

@[simp] theorem update_scopes : (s.update func change).scopes = s.scopes := rfl

@[simp] theorem update_globals : (s.update func change).code.globals = s.code.globals := rfl

@[simp] theorem update_functions_length :
    (s.update func change).code.functions.length = s.code.functions.length := by
  simp [update, IR.Module.setFunction]

theorem function_update_self (hf : func < s.code.functions.length) :
    (s.update func change).code.function func = change (s.code.function func) :=
  IR.Module.function_updateFunction_self (fun f => ((), change f)) hf

theorem body_update (hf : c.func < s.code.functions.length) :
    (s.update c.func change).body c = change (s.body c) :=
  function_update_self change hf

theorem update_update (hf : func < s.code.functions.length)
    (change' : IR.Function → IR.Function) :
    (s.update func change).update func change' = s.update func (change' ∘ change) := by
  rw [update, function_update_self change hf]
  simp only [update, IR.Module.setFunction, List.set_set, Function.comp_apply]

theorem function_update_ne (hf : other ≠ func) :
    (s.update func change).code.function other = s.code.function other :=
  IR.Module.function_updateFunction_ne (fun f => ((), change f)) hf

end Update

theorem At.scopes (h : s.At c) :
    ∃ scope rest, s.scopes.scopes = scope :: rest ∧ scope.cursor = c := by
  unfold At ScopeStack.cursor at h
  split at h
  · cases h
  · rename_i scope rest hs
    exact ⟨scope, rest, hs, by simpa using h⟩

theorem at_of_scopes {scope : Scope} {rest : List Scope} (hs : s.scopes.scopes = scope :: rest) :
    s.At scope.cursor := by
  simp only [At, ScopeStack.cursor, hs]

theorem At.unique {d : Cursor} (h : s.At c) (h' : s.At d) : c = d := by
  unfold At at h h'
  rw [h] at h'
  simpa using h'

end Lowerer

/-! ### The elementary steps -/

section Steps

variable {s : Lowerer} {c : Cursor}

@[simp] theorem outcome_liftScopes (query : ScopeStack → Except LowerError α) :
    outcome (liftScopes query) s = (query s.scopes, s) := by
  simp only [liftScopes, outcome_get_bind]
  cases query s.scopes <;> rfl

theorem outcome_changeScopes (change : ScopeStack → Except LowerError ScopeStack) :
    outcome (changeScopes change) s =
      match change s.scopes with
      | .ok scopes => (.ok (), { s with scopes })
      | .error e => (.error e, s) := by
  rw [changeScopes, outcome_bind, outcome_liftScopes]
  cases change s.scopes <;> rfl

theorem outcome_cursor (hc : s.At c) : outcome cursor s = (.ok c, s) := by
  rw [cursor, outcome_liftScopes, show s.scopes.cursor = .ok c from hc]

theorem outcome_cursor_empty (hs : s.scopes.scopes = []) :
    outcome cursor s = (.error .noActiveScope, s) := by
  rw [cursor, outcome_liftScopes]
  simp only [ScopeStack.cursor, hs]

@[simp] theorem outcome_pushScope (c : Cursor) :
    outcome (pushScope c) s = (.ok (), s.enterEmpty c) := rfl

theorem outcome_pushScopeCopy (c : Cursor) :
    outcome (pushScopeCopy c) s =
      if s.scopes.scopes = [] then (.error .noActiveScope, s) else (.ok (), s.enter c) := by
  rw [pushScopeCopy, outcome_changeScopes]
  simp only [ScopeStack.pushCopy, Lowerer.enter]
  cases s.scopes.scopes <;> simp

theorem outcome_popScope :
    outcome popScope s =
      if s.scopes.scopes = [] then (.error .scopeUnderflow, s) else (.ok (), s.leave) := by
  rw [popScope, outcome_changeScopes]
  simp only [ScopeStack.pop, Lowerer.leave]
  cases s.scopes.scopes <;> simp [Except.map]

theorem outcome_declare (hs : s.scopes.scopes ≠ []) (name : String) (value : Value)
    (decl : Option DeclId) :
    outcome (declare name value decl) s = (.ok (), s.bindName name value decl) := by
  obtain ⟨scope, rest, hcons⟩ := List.exists_cons_of_ne_nil hs
  rw [declare, outcome_changeScopes]
  simp only [ScopeStack.declare, Lowerer.bindName, hcons]

@[simp] theorem outcome_addDecl (decl : Decl) :
    outcome (addDecl decl) s = (.ok s.decls.length, s.record decl) := rfl

@[simp] theorem outcome_addGlobalString (name text : String) :
    outcome (addGlobalString name text) s =
      (.ok (.global s.code.globals.length),
        { s with code := (s.code.addGlobalString name text).2 }) := rfl

@[simp] theorem outcome_addFunction (name : String) (sig : IR.Signature) (linkage : IR.Linkage) :
    outcome (addFunction name sig linkage) s =
      (.ok s.code.functions.length,
        { s with code := (s.code.addFunction name sig linkage).2 }) := rfl

@[simp] theorem outcome_updateFunction (func : FuncId) (change : IR.Function → α × IR.Function) :
    outcome (updateFunction func change) s =
      (.ok (change (s.code.function func)).1,
        { s with code := (s.code.updateFunction func change).2 }) := rfl

@[simp] theorem outcome_createBlock (func : FuncId) (base : String) :
    outcome (createBlock func base) s =
      (.ok (s.code.function func).blocks.length, s.addBlock func base) := rfl

@[simp] theorem outcome_nameValue (func : FuncId) (value : Value) (name : String) :
    outcome (nameValue func value name) s = (.ok (), s.rename func value name) := rfl

@[simp] theorem outcome_slotType (c : Cursor) (value : Value) :
    outcome (slotType c value) s = (.ok ((s.body c).slotType value), s) := rfl

/-- Every instruction is added in the same way; `step` only says which one. -/
theorem outcome_emitAt {step : IR.Function → BlockId → Value × IR.Function} {op : Op} {ty : Ty}
    {name : Option String} (hstep : step (s.body c) c.block = (s.body c).push c.block op ty name) :
    outcome (emitAt c step) s = (.ok (.inst (s.body c).insts.length), s.emit c op ty name) := by
  show (Except.ok (step (s.body c) c.block).1,
    { s with code := s.code.setFunction c.func (step (s.body c) c.block).2 }) = _
  rw [hstep]
  rfl

theorem outcome_emit {step : IR.Function → BlockId → Value × IR.Function} {op : Op} {ty : Ty}
    {name : Option String} (hc : s.At c)
    (hstep : step (s.body c) c.block = (s.body c).push c.block op ty name) :
    outcome (emit step) s = (.ok (.inst (s.body c).insts.length), s.emit c op ty name) := by
  rw [emit, outcome_bind_ok s _ (outcome_cursor hc), outcome_emitAt hstep]

theorem outcome_emit_empty {step : IR.Function → BlockId → Value × IR.Function}
    (hs : s.scopes.scopes = []) : outcome (emit step) s = (.error .noActiveScope, s) := by
  rw [emit, outcome_bind_error s _ (outcome_cursor_empty hs)]

/-- Giving an input to a phi. -/
theorem outcome_addIncoming {func : FuncId} {k : InstId} {incoming : List (Value × BlockId)}
    {ty : Ty} {name : Option String} {a : BlockId}
    (hk : (s.code.function func).insts[k]? = some { op := .phi incoming, ty, name, block := a })
    (value : Value) (source : BlockId) :
    outcome (addIncoming func (.inst k) value source) s =
      (.ok (), s.replace func k
        { op := .phi (incoming ++ [(value, source)]), ty, name, block := a }) := by
  simp only [addIncoming, outcome_get_bind]
  rw [IR.Function.addIncoming_phi hk]
  rfl

/-- An input is given to a phi, or the step fails and changes nothing. -/
theorem outcome_addIncoming_cases (s : Lowerer) (func : FuncId) (phi value : Value)
    (source : BlockId) :
    (∃ f, (s.code.function func).addIncoming phi value source = .ok f ∧
      outcome (addIncoming func phi value source) s = (.ok (), s.update func fun _ => f)) ∨
    ∃ spelling, outcome (addIncoming func phi value source) s
      = (.error (.notAPhi spelling), s) := by
  simp only [addIncoming, outcome_get_bind]
  split
  · rename_i f hf
    exact .inl ⟨f, hf, rfl⟩
  · exact .inr ⟨_, rfl⟩

/-! ### Going on after an error -/

/-- How a step ends can be caught as a value. -/
theorem outcome_caught {x : LowerM α} {r : Except LowerError α} {t : Lowerer}
    (hx : outcome x s = (r, t)) :
    outcome (tryCatch (do return Except.ok (← x)) fun e => return Except.error e :
      LowerM (Except LowerError α)) s = (.ok r, t) := by
  rw [outcome_tryCatch, outcome_bind, hx]
  cases r <;> rfl

/-- The scope of a region is closed however the region ends. -/
theorem outcome_closingScope {x : LowerM α} {r : Except LowerError α} {t : Lowerer}
    (hx : outcome x s = (r, t)) (ht : t.scopes.scopes ≠ []) :
    outcome (closingScope x) s = (r, t.leave) := by
  have hpop : outcome popScope t = (.ok (), t.leave) := by
    rw [outcome_popScope, if_neg ht]
  rw [closingScope, outcome_bind_ok s _ (outcome_caught hx), outcome_bind_ok t _ hpop]
  cases r <;> rfl

/-- Without a region to close, closing fails. -/
theorem outcome_closingScope_empty {x : LowerM α} {r : Except LowerError α} {t : Lowerer}
    (hx : outcome x s = (r, t)) (ht : t.scopes.scopes = []) :
    outcome (closingScope x) s = (.error .scopeUnderflow, t) := by
  have hpop : outcome popScope t = (.error .scopeUnderflow, t) := by
    rw [outcome_popScope, if_pos ht]
  rw [closingScope, outcome_bind_ok s _ (outcome_caught hx), outcome_bind_error t _ hpop]

/-- A statement that succeeds is kept as it is. -/
theorem outcome_recovering_ok {x : LowerM (Option Value)} {v : Option Value} {t : Lowerer}
    (hx : outcome x s = (.ok v, t)) : outcome (recovering x) s = (.ok v, t) := by
  rw [recovering, outcome_tryCatch, hx]

/-- A statement that fails ends lowering, or is left out and its error recorded. -/
theorem outcome_recovering_error {x : LowerM (Option Value)} {e : LowerError} {t : Lowerer}
    (hx : outcome x s = (.error e, t)) :
    outcome (recovering x) s =
      if e.isInternal || t.options.policy = .failFast then (.error e, t)
      else (.ok none, { t with errors := t.errors ++ [e] }) := by
  rw [recovering, outcome_tryCatch, hx]
  simp only [recover, outcome_get_bind]
  by_cases he : (e.isInternal || decide (t.options.policy = .failFast)) = true
  · rw [if_pos he, if_pos he]
    rfl
  · rw [if_neg he, if_neg he]
    rfl

end Steps

end TreeCompiler.Lowering
