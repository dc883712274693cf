/-
How many things lowering makes.

Declarations are numbered like the parts of a module, and all these numbers stay small unless the
program is very large.  An elementary step makes at most one thing of each kind, except that a
function has its parameters from the beginning, and a construct takes a fixed number of such steps
besides those of its parts.  So the bound grows with the number of nodes (`passed_extent`), and for
programs with less than 390 million nodes every number fits into 32 bits, in every state on the way
(`lowering_fits`).
-/
import TreeCompiler.Proofs.IR.Extent
import TreeCompiler.Proofs.Lowering.Journey

/-! ### The number of nodes -/

namespace TreeCompiler.Program

mutual

/-- The number of nodes of an expression. -/
def Expr.size : Expr → Nat
  | .int .. | .double .. | .string .. | .ident .. => 1
  | .call _ _ args => argsSize args + 1
  | .binary _ _ left right => left.size + right.size + 1
  | .assign _ _ value => value.size + 1
  | .ifElse _ cond thenBlock elseBlock => cond.size + thenBlock.size + elseBlock.size + 1
  | .loop _ start limit body => start.size + limit.size + body.size + 1
  | .block _ body => body.size + 1

def argsSize : List Expr → Nat
  | [] => 0
  | arg :: args => arg.size + argsSize args

/-- The number of nodes of a statement.  A parameter is a node. -/
def Stmt.size : Stmt → Nat
  | .expr _ value => value.size + 1
  | .ret _ none => 1
  | .ret _ (some value) => value.size + 1
  | .var _ _ _ none => 1
  | .var _ _ _ (some init) => init.size + 1
  | .fn _ _ _ params body => params.length + body.size + 1
  | .block _ body => body.size + 1

def Block.size : Block → Nat
  | .mk _ stmts => stmtsSize stmts + 1

def stmtsSize : List Stmt → Nat
  | [] => 0
  | stmt :: stmts => stmt.size + stmtsSize stmts

end

theorem Expr.size_pos (e : Expr) : 0 < e.size := by
  cases e <;> rw [Expr.size] <;> exact Nat.succ_pos _

theorem Block.size_pos (b : Block) : 0 < b.size := by
  cases b
  exact Nat.succ_pos _

end TreeCompiler.Program

namespace TreeCompiler.Lowering

open IR (FuncId BlockId Ty Value)
open Program (Expr Stmt Block BinOp NodeId Param argsSize stmtsSize)

/-- A state has at most `n` of everything. -/
structure Lowerer.Extent (s : Lowerer) (n : Nat) : Prop where
  decls : s.decls.length ≤ n
  code : s.code.Extent n

theorem Lowerer.Extent.mono {s : Lowerer} {n m : Nat} (h : s.Extent n) (hle : n ≤ m) : s.Extent m :=
  ⟨Nat.le_trans h.decls hle, h.code.mono hle⟩

/-! ### Journeys -/

/-- No state of a journey has more than `m` things of a kind above those there were before. -/
structure Journey.Extends {α : Type} {x : LowerM α} (j : Journey x) (m : Nat) : Prop where
  extent : ∀ {s : Lowerer} {n : Nat}, s.Extent n → ∀ t ∈ j.passed s, t.Extent (n + m)

namespace Journey.Extends

variable {α β : Type} {x : LowerM α} {k : α → LowerM β} {m w : Nat}

theorem mono {j : Journey x} (h : j.Extends m) (hle : m ≤ w) : j.Extends w := by
  refine ⟨fun {s n} hs t ht => ?_⟩
  exact (h.extent hs t ht).mono (Nat.add_le_add_left hle n)

theorem after {j : Journey x} (h : j.Extends m) {s : Lowerer} {n : Nat} (hs : s.Extent n) :
    (outcome x s).2.Extent (n + m) :=
  h.extent hs _ (j.mem_passed s)

theorem step (hx : Elementary x)
    (h : ∀ {s : Lowerer} {n : Nat}, s.Extent n → (outcome x s).2.Extent (n + m)) :
    (Journey.step hx).Extends m := by
  refine ⟨fun hs t ht => ?_⟩
  rw [Journey.passed, List.mem_singleton] at ht
  exact ht ▸ h hs

theorem bind {first : Journey x} {rest : ∀ a, Journey (k a)} (h : first.Extends m)
    (h' : ∀ a, (rest a).Extends w) : (Journey.bind first rest).Extends (m + w) := by
  refine ⟨fun {s n} hs t ht => ?_⟩
  have hfirst := fun t ht => (h.extent hs t ht).mono (Nat.add_le_add_left (Nat.le_add_right m w) n)
  have hafter := h.after hs
  rcases hx : outcome x s with ⟨e | a, u⟩
  · rw [Journey.passed_bind_error _ _ hx] at ht
    exact hfirst t ht
  · rw [Journey.passed_bind_ok _ _ hx] at ht
    rcases List.mem_append.mp ht with ht | ht
    · exact hfirst t ht
    · rw [hx] at hafter
      rw [← Nat.add_assoc]
      exact (h' a).extent hafter t ht

theorem tryCatch {handle : LowerError → LowerM α} {first : Journey x}
    {rest : ∀ e, Journey (handle e)} (h : first.Extends m) (h' : ∀ e, (rest e).Extends w) :
    (Journey.tryCatch first rest).Extends (m + w) := by
  refine ⟨fun {s n} hs t ht => ?_⟩
  have hfirst := fun t ht => (h.extent hs t ht).mono (Nat.add_le_add_left (Nat.le_add_right m w) n)
  have hafter := h.after hs
  rcases hx : outcome x s with ⟨e | a, u⟩
  · rw [Journey.passed_tryCatch_error _ _ hx] at ht
    rcases List.mem_append.mp ht with ht | ht
    · exact hfirst t ht
    · rw [hx] at hafter
      rw [← Nat.add_assoc]
      exact (h' e).extent hafter t ht
  · rw [Journey.passed_tryCatch_ok _ _ hx] at ht
    exact hfirst t ht

theorem node {n : Node} {way : Journey n.lower} (h : way.Extends m) :
    (Journey.node n way).Extends m :=
  ⟨h.extent⟩

theorem either {c : Prop} [hc : Decidable c] {x y : LowerM α} {j : Journey x} {k : Journey y}
    (h : j.Extends m) (h' : k.Extends m) : (Journey.either (c := c) j k).Extends m := by
  cases hc with
  | isTrue _ => exact h
  | isFalse _ => exact h'

/-! ### Elementary steps -/

/-- A step that touches neither the module nor the record of declarations. -/
theorem aside (hx : Elementary x) (hcode : ∀ s, (outcome x s).2.code = s.code)
    (hdecls : ∀ s, (outcome x s).2.decls = s.decls) : (Journey.step hx).Extends 0 :=
  .step hx fun {s _} hs => ⟨hdecls s ▸ hs.decls, hcode s ▸ hs.code⟩

theorem pure (a : α) : (Journey.step (.pure a)).Extends 0 := aside _ (fun _ => rfl) fun _ => rfl

theorem throw (e : LowerError) :
    (Journey.step (.throw e) : Journey (throw e : LowerM α)).Extends 0 :=
  aside _ (fun _ => rfl) fun _ => rfl

theorem get : (Journey.step .get).Extends 0 := aside _ (fun _ => rfl) fun _ => rfl

theorem cursor : (Journey.step .cursor).Extends 0 := by
  refine aside _ (fun s => ?_) fun s => ?_ <;> rw [Lowering.cursor, outcome_liftScopes]

theorem changeScopes {change : ScopeStack → Except LowerError ScopeStack}
    (hx : Elementary (changeScopes change)) : (Journey.step hx).Extends 0 := by
  refine aside _ (fun s => ?_) fun s => ?_ <;> rw [outcome_changeScopes] <;> split <;> rfl

theorem pushScope (c : Cursor) : (Journey.step (.pushScope c)).Extends 0 :=
  aside _ (fun _ => rfl) fun _ => rfl

theorem recordError (e : LowerError) : (Journey.step (.recordError e)).Extends 0 :=
  aside _ (fun _ => rfl) fun _ => rfl

theorem addDecl (decl : Decl) : (Journey.step (.addDecl decl)).Extends 1 := by
  refine .step _ fun {s n} hs => ⟨?_, hs.code.mono n.le_succ⟩
  simpa [Lowerer.record] using hs.decls

/-- A change of one function. -/
theorem updateFunction {func : FuncId} {change : IR.Function → α × IR.Function}
    (hx : Elementary (updateFunction func change))
    (h : ∀ {f : IR.Function} {n : Nat}, f.Extent n → (change f).2.Extent (n + m)) :
    (Journey.step hx).Extends m :=
  .step _ fun {_ n} hs =>
    ⟨Nat.le_trans hs.decls (n.le_add_right m), hs.code.setFunction (n.le_add_right m) h⟩

theorem createBlock (func : FuncId) (base : String) :
    (Journey.step (.createBlock func base)).Extends 1 :=
  updateFunction _ fun h => h.createBlock base

theorem emitAt (c : Cursor) {step : IR.Function → BlockId → Value × IR.Function}
    (hstep : ∀ f b, ∃ op ty name, step f b = f.push b op ty name) :
    (Journey.step (.emitAt c hstep)).Extends 1 := by
  refine updateFunction _ fun {f n} h => ?_
  obtain ⟨op, ty, name, heq⟩ := hstep f c.block
  rw [heq]
  exact h.push c.block op ty name

theorem nameValue (func : FuncId) (value : Value) (name : String) :
    (Journey.step (.nameValue func value name)).Extends 0 :=
  updateFunction _ fun h => h.setValueName value name

theorem nameParams (func : FuncId) (params : List Param) :
    (Journey.step (.nameParams func params)).Extends 0 := by
  refine updateFunction _ fun h => .foldl (fun _ h => ?_) params.zipIdx h
  exact ⟨h.params, h.blocks, h.insts, h.labels⟩

theorem addFunction (name : String) (sig : IR.Signature) (linkage : IR.Linkage) :
    (Journey.step (.addFunction name sig linkage)).Extends (sig.params.length + 1) :=
  .step _ fun hs =>
    ⟨Nat.le_trans hs.decls (Nat.le_add_right _ _), hs.code.addFunction name sig linkage⟩

theorem addGlobalString (name text : String) :
    (Journey.step (.addGlobalString name text)).Extends 1 :=
  .step _ fun {_ n} hs => ⟨Nat.le_trans hs.decls n.le_succ, hs.code.addGlobalString name text⟩

theorem addIncoming (func : FuncId) (phi value : Value) (source : BlockId) :
    (Journey.step (.addIncoming func phi value source)).Extends 0 := by
  refine .step _ fun {s n} hs => ?_
  obtain ⟨f, hf, hout⟩ | ⟨spelling, hout⟩ := outcome_addIncoming_cases s func phi value source
  · rw [hout]
    exact ⟨hs.decls, hs.code.setFunction (Nat.le_refl n) fun h => h.addIncoming hf⟩
  · rw [hout]
    exact hs

/-! ### The constructs -/

section Constructs

variable {x y z : LowerM (Option Value)} {j : Journey x} {k : Journey y} {l : Journey z}
  {p q r : Nat}

theorem map {x : LowerM α} {j : Journey x} (h : j.Extends p) (g : α → β) : (j.map g).Extends p :=
  bind h fun _ => pure _

theorem emit {step : IR.Function → BlockId → Value × IR.Function}
    (hstep : ∀ f b, ∃ op ty name, step f b = f.push b op ty name) :
    (Journey.emit hstep).Extends 1 :=
  mono (bind cursor fun c => emitAt c hstep) (Nat.le_refl 1)

theorem slotType (c : Cursor) (value : Value) : (Journey.slotType c value).Extends 0 :=
  bind get fun _ => pure _

theorem materialize (value : Value) : (Journey.materialize value).Extends 1 := by
  refine mono (bind cursor fun c => bind (w := 1) (slotType c value) fun ty => ?_) (by omega)
  cases ty with
  | some ty => exact emitAt c fun _ _ => ⟨_, _, _, rfl⟩
  | none => exact mono (pure value) (Nat.zero_le 1)

theorem closingScope {x : LowerM α} {j : Journey x} (h : j.Extends p) :
    j.closingScope.Extends p := by
  refine mono (bind (tryCatch (h.map _) fun _ => pure _) fun r =>
    bind (w := 0) (changeScopes _) fun _ => ?_) (by omega)
  cases r with
  | ok a => exact pure a
  | error e => exact throw e

theorem recovering (h : j.Extends p) : j.recovering.Extends p := by
  have hrecord : ∀ e, (Journey.bind (.step (.recordError e)) fun _ =>
      .step (.pure (none : Option Value))).Extends 0 :=
    fun e => bind (recordError e) fun _ => pure none
  refine tryCatch (w := 0) h fun e => bind (w := 0) get fun _ => ?_
  exact either (bind (throw e) fun _ => hrecord e) (hrecord e)

theorem required (h : j.Extends p) (context : String) : (j.required context).Extends p := by
  refine bind (w := 0) h fun value => ?_
  cases value with
  | some value => exact pure value
  | none => exact throw _

theorem operand (h : j.Extends p) (context : String) : (j.operand context).Extends (p + 1) :=
  bind (required h context) materialize

theorem lowerIdent (name : String) : (Journey.lowerIdent name).Extends 0 := by
  refine bind (w := 0) get fun s => ?_
  generalize s.scopes.resolve name = value
  cases value with
  | some value => exact pure value
  | none => exact throw _

theorem lowerBinary (h : j.Extends p) (h' : k.Extends q) (op : BinOp) :
    (j.lowerBinary k op).Extends (p + q + 3) := by
  refine mono (bind (operand h _) fun _ => bind (w := 1) (operand h' _) fun _ => ?_) (by omega)
  generalize lowerOp op = lowered
  cases lowered with
  | none => exact mono (throw _) (Nat.zero_le 1)
  | some lowered => cases lowered <;> exact emit fun _ _ => ⟨_, _, _, rfl⟩

theorem lowerAssign (h : j.Extends p) (target : String) :
    (j.lowerAssign target).Extends (p + 2) := by
  refine mono (bind (w := p + 2) get fun s => ?_) (by omega)
  generalize s.scopes.resolve target = slot
  cases slot with
  | none => exact mono (throw _) (Nat.zero_le _)
  | some slot =>
    refine mono (bind cursor fun c => bind (w := p + 2) (slotType c slot) fun ty => ?_) (by omega)
    cases ty with
    | none => exact mono (bind get fun _ => throw _) (Nat.zero_le _)
    | some ty => exact bind (m := p + 1) (operand h _) fun _ => emit fun _ _ => ⟨_, _, _, rfl⟩

theorem lowerArg (h : j.Extends p) (key : Option String) : (j.lowerArg key).Extends (p + 1) := by
  refine bind (required h _) fun value => ?_
  cases key with
  | none => exact mono (pure value) (Nat.zero_le 1)
  | some name =>
    refine mono (bind get fun _ => either (materialize value) ?_) (Nat.le_refl 1)
    exact mono (pure value) (Nat.zero_le 1)

theorem lowerCall {args : LowerM (List Value)} {j : Journey args} (h : j.Extends p)
    (callee : String) (count : Nat) : (j.lowerCall callee count).Extends (p + 1) := by
  have hcall : ∀ {step : List Value → IR.Function → BlockId → Value × IR.Function}
      (hstep : ∀ values f b, ∃ op ty name, step values f b = f.push b op ty name),
      (Journey.bind j fun values => Journey.emit (hstep values)).Extends (p + 1) :=
    fun hstep => bind h fun values => emit (hstep values)
  refine mono (bind (w := p + 1) get fun s => ?_) (by omega)
  generalize s.code.getFunction? callee = func
  cases func with
  | none => exact mono (throw _) (Nat.zero_le _)
  | some func =>
    refine mono (bind (w := p + 1) get fun s => either (hcall _) ?_) (by omega)
    exact mono (bind (throw _) fun _ => hcall _) (by omega)

theorem lowerRegion {x : LowerM α} {j : Journey x} (h : j.Extends p) (c : Cursor) :
    (j.lowerRegion c).Extends p :=
  mono (bind (changeScopes _) fun _ => closingScope h) (by omega)

theorem lowerIf (h : j.Extends p) (h' : k.Extends q) (h'' : l.Extends r) :
    (j.lowerIf k l).Extends (p + q + r + 4) :=
  mono (bind (operand h _) fun _ => bind cursor fun c => bind (createBlock _ _) fun _ =>
    bind (createBlock _ _) fun _ => bind (emitAt c fun _ _ => ⟨_, _, _, rfl⟩) fun _ =>
    bind (lowerRegion h' _) fun _ => bind (lowerRegion h'' _) fun _ => pure _) (by omega)

theorem lowerLoopBody (h : j.Extends p) (h' : k.Extends q) (before inside : Cursor)
    (start : Value) : (j.lowerLoopBody k before inside start).Extends (p + q + 6) :=
  mono (bind get fun _ => bind (emitAt inside fun _ _ => ⟨_, _, _, rfl⟩) fun _ =>
    bind (addIncoming _ _ _ _) fun _ => bind (changeScopes _) fun _ => bind h fun _ =>
    bind (emit fun _ _ => ⟨_, _, _, rfl⟩) fun _ => bind (operand h' _) fun _ =>
    bind cursor fun closing => bind (emitAt closing fun _ _ => ⟨_, _, _, rfl⟩) fun _ =>
    bind (nameValue _ _ _) fun _ => bind (nameValue _ _ _) fun _ => bind (createBlock _ _) fun _ =>
    bind (emitAt closing fun _ _ => ⟨_, _, _, rfl⟩) fun _ => bind (addIncoming _ _ _ _) fun _ =>
    pure _) (by omega)

theorem lowerLoop (h : j.Extends p) (h' : k.Extends q) (h'' : l.Extends r) :
    (j.lowerLoop k l).Extends (p + q + r + 10) :=
  mono (bind (operand h _) fun _ => bind cursor fun before => bind (createBlock _ _) fun _ =>
    bind (emitAt before fun _ _ => ⟨_, _, _, rfl⟩) fun _ =>
    bind (lowerRegion (lowerLoopBody h' h'' _ _ _) _) fun _ =>
    bind (emitAt _ fun _ _ => ⟨_, _, _, rfl⟩) fun _ => pure _) (by omega)

theorem lowerReturn (h : j.Extends p) : j.lowerReturn.Extends (p + 2) :=
  bind (m := p + 1) (operand h _) fun _ => emit fun _ _ => ⟨_, _, _, rfl⟩

theorem lowerVar (h : j.Extends p) (node : NodeId) (ty name : String) :
    (j.lowerVar node ty name).Extends (p + 4) :=
  mono (bind (emit fun _ _ => ⟨_, _, _, rfl⟩) fun _ => bind (addDecl _) fun _ =>
    bind (changeScopes _) fun _ => bind (lowerAssign h _) fun _ => pure _) (by omega)

theorem declareParams (i : Nat) (params : List Param) :
    (Journey.declareParams i params).Extends params.length := by
  induction params generalizing i with
  | nil => exact pure _
  | cons p ps ih =>
    refine mono (bind (addDecl _) fun _ => bind (changeScopes _) fun _ => ih (i + 1)) ?_
    rw [List.length_cons]
    omega

theorem lowerFn (h : j.Extends p) (retTy : Option String) (name : String) (params : List Param)
    (returns : Bool) :
    (j.lowerFn retTy name params returns).Extends (p + 2 * params.length + 3) := by
  refine mono (bind (addFunction name _ _) fun func => bind (nameParams func params) fun _ =>
    bind (createBlock _ _) fun _ => bind (pushScope _) fun _ => closingScope <|
    bind (declareParams 0 params) fun _ => bind (w := 1) h fun _ => either ?_ ?_) ?_
  · exact bind (emit fun _ _ => ⟨_, _, _, rfl⟩) fun _ => pure _
  · exact mono (pure _) (Nat.zero_le 1)
  · rw [List.length_map]
    omega

end Constructs

end Journey.Extends

/-! ### The walk -/

-- A loop makes most, ten things of a kind.  The eleventh is there for the slot that an argument of
-- a call may be loaded from: there can be any number of arguments, so each one has to pay for
-- itself.
mutual

theorem exprJourney_extends (e : Expr) : (exprJourney e).Extends (11 * e.size - 1) := by
  cases e with
  | int id value | double id value =>
    exact .node (.mono (.pure _) (Nat.zero_le _))
  | string id raw => exact .node (.mono (.map (.addGlobalString _ _) _) (by simp [Expr.size]))
  | ident id name => exact .node (.mono (.map (.lowerIdent name) _) (Nat.zero_le _))
  | call id callee args =>
    refine .node (.mono (.map (.lowerCall (argsJourney_extends args) callee _) _) ?_)
    rw [Expr.size]
    omega
  | binary id op left right =>
    refine .node (.mono
      (.map (.lowerBinary (exprJourney_extends left) (exprJourney_extends right) op) _) ?_)
    rw [Expr.size]
    omega
  | assign id target value =>
    refine .node (.mono (.map (.lowerAssign (exprJourney_extends value) target) _) ?_)
    rw [Expr.size]
    omega
  | ifElse id cond thenBlock elseBlock =>
    refine .node (.mono (.map (.lowerIf (exprJourney_extends cond) (blockJourney_extends thenBlock)
      (blockJourney_extends elseBlock)) _) ?_)
    rw [Expr.size]
    omega
  | loop id start limit body =>
    refine .node (.mono (.map (.lowerLoop (exprJourney_extends start) (blockJourney_extends body)
      (exprJourney_extends limit)) _) ?_)
    rw [Expr.size]
    omega
  | block id body =>
    refine .node (.mono (blockJourney_extends body) ?_)
    rw [Expr.size]
    omega

theorem argsJourney_extends (args : List Expr) :
    (argsJourney args).Extends (11 * argsSize args) := by
  cases args with
  | nil => exact .pure _
  | cons arg args =>
    have hpos := arg.size_pos
    refine .mono (.bind (.lowerArg (exprJourney_extends arg) _) fun _ =>
      .map (argsJourney_extends args) _) ?_
    rw [argsSize]
    omega

theorem stmtJourney_extends (stmt : Stmt) : (stmtJourney stmt).Extends (11 * stmt.size - 1) := by
  cases stmt with
  | expr id value =>
    refine .node (.mono (exprJourney_extends value) ?_)
    rw [Stmt.size]
    omega
  | ret id value =>
    cases value with
    | none => exact .node (.mono (.map (.emit fun _ _ => ⟨_, _, _, rfl⟩) _) (by simp [Stmt.size]))
    | some value =>
      refine .node (.mono (.map (.lowerReturn (exprJourney_extends value)) _) ?_)
      rw [Stmt.size]
      omega
  | var id ty name init =>
    cases init with
    | none => exact .node (.mono (.map (.lowerIdent name) _) (Nat.zero_le _))
    | some init =>
      refine .node (.mono (.map (.lowerVar (exprJourney_extends init) id ty name) _) ?_)
      rw [Stmt.size]
      omega
  | fn id retTy name params body =>
    refine .node (.mono (.map (.lowerFn (blockJourney_extends body) retTy name params _) _) ?_)
    rw [Stmt.size]
    omega
  | block id body =>
    refine .node (.mono (blockJourney_extends body) ?_)
    rw [Stmt.size]
    omega

theorem blockJourney_extends (block : Block) :
    (blockJourney block).Extends (11 * block.size - 1) := by
  cases block with
  | mk id stmts =>
    refine .node (.mono (stmtsJourney_extends stmts none) ?_)
    rw [Block.size]
    omega

theorem stmtsJourney_extends (stmts : List Stmt) (last : Option Value) :
    (stmtsJourney stmts last).Extends (11 * stmtsSize stmts) := by
  cases stmts with
  | nil => exact .pure _
  | cons stmt stmts =>
    refine .mono (.bind (.recovering (stmtJourney_extends stmt)) fun value =>
      stmtsJourney_extends stmts value) ?_
    rw [stmtsSize]
    omega

end

/-! ### Programs -/

/-- Four names are asked for before the first statement, and there is less of everything else. -/
theorem initial_extent (options : Options) : (initial options).Extent 4 := by
  obtain ⟨helperName, entryName, hfunctions⟩ := openModule_functions options
  have hglobals : (initial options).code.globals.length = 1 := rfl
  have hnames : (initial options).code.names.requested.length = 4 := rfl
  refine ⟨Nat.zero_le 4, ⟨Nat.le_succ 3, by omega, by omega, ?_⟩⟩
  intro f hf
  rw [initial, hfunctions] at hf
  simp only [List.mem_cons, List.not_mem_nil, or_false] at hf
  rcases hf with rfl | rfl | rfl
  all_goals constructor <;> simp [printfFunction, helperBody, IR.Function.new,
    IR.Function.createBlock,
    IR.Function.setParamName, IR.Function.call, IR.Function.ret, IR.Function.push,
    IR.NameSupply.record]

/-- **Lowering makes a few things for each node.**  In every state on the way there are at most
eleven things of each kind for each node of the program, and three more. -/
theorem passed_extent (root : Block) (options : Options) :
    ∀ s ∈ passed root options, s.Extent (11 * root.size + 3) := by
  have hpos := root.size_pos
  have hwalk : (programJourney root options).Extends (11 * root.size - 1) :=
    .mono (.bind (.pushScope _) fun _ => .bind (blockJourney_extends root) fun _ =>
      .changeScopes _) (by omega)
  intro s hs
  rcases List.mem_cons.mp hs with rfl | hs
  · exact (initial_extent options).mono (by omega)
  · exact (hwalk.extent (initial_extent options) s hs).mono (by omega)

/-- At most one instruction is added to end the entry function. -/
theorem closeModule_extent {m : IR.Module} {n : Nat} (h : m.Extent n) (entry : Cursor) :
    (closeModule entry m).Extent (n + 1) := by
  unfold closeModule
  split
  · exact h.mono n.le_succ
  · exact h.setFunction n.le_succ fun hf => hf.push entry.block _ _ _

theorem lowerProgram_extent {root : Block} {options : Options} {l : Lowered}
    (h : lowerProgram root options = .ok l) : l.code.Extent (11 * root.size + 4) := by
  have hpos := root.size_pos
  have hstart : (start options).Extent 4 :=
    ⟨(initial_extent options).decls, (initial_extent options).code⟩
  have hlast := (blockJourney_extends root).after hstart
  rw [lowerProgram_eq] at h
  rcases hrun : outcome (lowerBlock root) (start options) with ⟨e | value, t⟩
  · simp [hrun] at h
  · obtain rfl : { code := closeModule entryCursor t.code, errors := t.errors } = l := by
      simpa [hrun] using h
    rw [hrun] at hlast
    exact (closeModule_extent hlast.code entryCursor).mono (by omega)

/-- **Numbers of 32 bits suffice.**  While a program with less than 390 million nodes is lowered,
the number of a declaration, a function, a string, a parameter, a block or an instruction is never
too large for 32 bits, and neither is the number of requests for any name or label.  So it is in the
module that is left. -/
theorem lowering_fits (root : Block) (options : Options) (hsize : root.size < 390000000) :
    (∀ s ∈ passed root options, s.Extent (UInt32.size - 1)) ∧
      ∀ l, lowerProgram root options = .ok l → l.code.Extent (UInt32.size - 1) := by
  have hbound : UInt32.size = 4294967296 := rfl
  refine ⟨fun s hs => ?_, fun l hl => ?_⟩
  · exact (passed_extent root options s hs).mono (by omega)
  · exact (lowerProgram_extent hl).mono (by omega)

end TreeCompiler.Lowering
