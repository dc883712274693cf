/-
The states that lowering passes through.

The outcome of a step tells how it ends.  Some invariants say more: they hold at every moment on the
way, also inside a region that is gone at the end.  To say so, a step is taken apart into elementary
ones, which call a single function of the state or of the module (`Elementary`).  How lowering is
put together from them is written down once, on the tree: `exprJourney`, `stmtJourney` and
`blockJourney` follow the walk over a program, and each construct has its journey made of those of
its parts.

A journey is data and not a property, so it cannot be chosen anew for each invariant.  `passed`
lists the state after each elementary step, none left out (`Journey.chain`), and `arrivals` lists
the expressions, statements and blocks that lowering comes to, each with the state in which it does.
-/
import TreeCompiler.Proofs.Lowering.Start

namespace TreeCompiler.Lowering

open IR (FuncId BlockId Ty Value)
open Program (Expr Stmt Block BinOp NodeId Param)

/-! ### Elementary steps -/

/-- The steps that lowering is made of.  Each reads or changes one thing: it adds one instruction,
one block, one name, one table and so on. -/
inductive Elementary : {α : Type} → LowerM α → Prop
  | pure {α : Type} (a : α) : Elementary (pure a : LowerM α)
  | throw {α : Type} (e : LowerError) : Elementary (throw e : LowerM α)
  | get : Elementary (get : LowerM Lowerer)
  | cursor : Elementary cursor
  | pushScope (c : Cursor) : Elementary (pushScope c)
  | pushScopeCopy (c : Cursor) : Elementary (pushScopeCopy c)
  | popScope : Elementary popScope
  | declare (name : String) (value : Value) (decl : Option DeclId) :
      Elementary (declare name value decl)
  | addDecl (decl : Decl) : Elementary (addDecl decl)
  | createBlock (func : FuncId) (base : String) : Elementary (createBlock func base)
  | emitAt (c : Cursor) {step : IR.Function → BlockId → Value × IR.Function}
      (hstep : ∀ f b, ∃ op ty name, step f b = f.push b op ty name) : Elementary (emitAt c step)
  | nameValue (func : FuncId) (value : Value) (name : String) :
      Elementary (nameValue func value name)
  | nameParams (func : FuncId) (params : List Param) :
      Elementary (updateFunction func fun f =>
        ((), params.zipIdx.foldl (fun f (p, i) => f.setParamName i p.name) f))
  | addFunction (name : String) (sig : IR.Signature) (linkage : IR.Linkage) :
      Elementary (addFunction name sig linkage)
  | addGlobalString (name text : String) : Elementary (addGlobalString name text)
  | addIncoming (func : FuncId) (phi value : Value) (source : BlockId) :
      Elementary (addIncoming func phi value source)
  | recordError (e : LowerError) :
      Elementary (modify fun s => { s with errors := s.errors ++ [e] } : LowerM Unit)

/-- One elementary step leads from a state to the next. -/
def Leads (s t : Lowerer) : Prop :=
  ∃ (α : Type) (x : LowerM α), Elementary x ∧ (outcome x s).2 = t

/-! ### Journeys -/

/-- What lowering comes to in a tree. -/
inductive Node where
  | expr (e : Expr)
  | stmt (stmt : Stmt)
  | block (block : Block)

/-- The step that is taken for a node. -/
def Node.lower : Node → LowerM (Option Value)
  | .expr e => lowerExpr e
  | .stmt s => lowerStmt s
  | .block b => lowerBlock b

/-- A step taken apart into elementary ones.  Where a node is come to is marked. -/
inductive Journey : {α : Type} → LowerM α → Type 1
  | step {α : Type} {x : LowerM α} (hx : Elementary x) : Journey x
  | bind {α β : Type} {x : LowerM α} {k : α → LowerM β} (first : Journey x)
      (rest : ∀ a, Journey (k a)) : Journey (x >>= k)
  | tryCatch {α : Type} {x : LowerM α} {handle : LowerError → LowerM α} (first : Journey x)
      (rest : ∀ e, Journey (handle e)) : Journey (tryCatch x handle)
  | node (n : Node) (way : Journey n.lower) : Journey n.lower

/-- A node and the state in which lowering comes to it. -/
structure Arrival where
  node : Node
  state : Lowerer

namespace Journey

variable {α β : Type} {x : LowerM α} {k : α → LowerM β} {s t : Lowerer}

/-- The states after the elementary steps of a journey that starts in a state. -/
def passed : {α : Type} → {x : LowerM α} → Journey x → Lowerer → List Lowerer
  | _, x, .step _, s => [(outcome x s).2]
  | _, _, @Journey.bind _ _ x _ first rest, s =>
    first.passed s ++
      match outcome x s with
      | (.ok a, t) => (rest a).passed t
      | (.error _, _) => []
  | _, _, @Journey.tryCatch _ x _ first rest, s =>
    first.passed s ++
      match outcome x s with
      | (.ok _, _) => []
      | (.error e, t) => (rest e).passed t
  | _, _, .node _ way, s => way.passed s

/-- The nodes that a journey comes to when it starts in a state. -/
def arrivals : {α : Type} → {x : LowerM α} → Journey x → Lowerer → List Arrival
  | _, _, .step _, _ => []
  | _, _, @Journey.bind _ _ x _ first rest, s =>
    first.arrivals s ++
      match outcome x s with
      | (.ok a, t) => (rest a).arrivals t
      | (.error _, _) => []
  | _, _, @Journey.tryCatch _ x _ first rest, s =>
    first.arrivals s ++
      match outcome x s with
      | (.ok _, _) => []
      | (.error e, t) => (rest e).arrivals t
  | _, _, .node n way, s => ⟨n, s⟩ :: way.arrivals s

theorem passed_bind_ok {a : α} (first : Journey x) (rest : ∀ a, Journey (k a))
    (hx : outcome x s = (.ok a, t)) :
    (bind first rest).passed s = first.passed s ++ (rest a).passed t := by
  rw [passed, hx]

theorem passed_bind_error {e : LowerError} (first : Journey x) (rest : ∀ a, Journey (k a))
    (hx : outcome x s = (.error e, t)) : (bind first rest).passed s = first.passed s := by
  rw [passed, hx, List.append_nil]

theorem passed_tryCatch_ok {a : α} {handle : LowerError → LowerM α} (first : Journey x)
    (rest : ∀ e, Journey (handle e)) (hx : outcome x s = (.ok a, t)) :
    (tryCatch first rest).passed s = first.passed s := by
  rw [passed, hx, List.append_nil]

theorem passed_tryCatch_error {e : LowerError} {handle : LowerError → LowerM α} (first : Journey x)
    (rest : ∀ e, Journey (handle e)) (hx : outcome x s = (.error e, t)) :
    (tryCatch first rest).passed s = first.passed s ++ (rest e).passed t := by
  rw [passed, hx]

theorem arrivals_bind_ok {a : α} (first : Journey x) (rest : ∀ a, Journey (k a))
    (hx : outcome x s = (.ok a, t)) :
    (bind first rest).arrivals s = first.arrivals s ++ (rest a).arrivals t := by
  rw [arrivals, hx]

theorem arrivals_bind_error {e : LowerError} (first : Journey x) (rest : ∀ a, Journey (k a))
    (hx : outcome x s = (.error e, t)) : (bind first rest).arrivals s = first.arrivals s := by
  rw [arrivals, hx, List.append_nil]

theorem arrivals_tryCatch_ok {a : α} {handle : LowerError → LowerM α} (first : Journey x)
    (rest : ∀ e, Journey (handle e)) (hx : outcome x s = (.ok a, t)) :
    (tryCatch first rest).arrivals s = first.arrivals s := by
  rw [arrivals, hx, List.append_nil]

theorem arrivals_tryCatch_error {e : LowerError} {handle : LowerError → LowerM α}
    (first : Journey x) (rest : ∀ e, Journey (handle e)) (hx : outcome x s = (.error e, t)) :
    (tryCatch first rest).arrivals s = first.arrivals s ++ (rest e).arrivals t := by
  rw [arrivals, hx]

/-- Two stretches of states, the second of which starts where the first ends. -/
theorem chain_append {l l' : List Lowerer} (h : List.IsChain Leads (s :: l))
    (hlast : (s :: l).getLast? = some t) (h' : List.IsChain Leads (t :: l')) :
    List.IsChain Leads (s :: (l ++ l')) := by
  induction l generalizing s with
  | nil =>
    simp only [List.getLast?_singleton, Option.some.injEq] at hlast
    rwa [hlast]
  | cons u l ih =>
    rw [List.isChain_cons_cons] at h
    rw [List.getLast?_cons_cons] at hlast
    rw [List.cons_append, List.isChain_cons_cons]
    exact ⟨h.1, ih h.2 hlast⟩

/-- The last state of a journey is the one that the step leaves. -/
theorem getLast?_passed (j : Journey x) (s : Lowerer) :
    (j.passed s).getLast? = some (outcome x s).2 := by
  induction j generalizing s with
  | step hx => rfl
  | @bind _ _ x k first rest ihfirst ihrest =>
    rcases hx : outcome x s with ⟨e | a, t⟩
    · rw [passed_bind_error _ _ hx, outcome_bind_error s k hx, ihfirst, hx]
    · rw [passed_bind_ok _ _ hx, outcome_bind_ok s k hx, List.getLast?_append, ihrest,
        Option.some_or]
  | @tryCatch _ x handle first rest ihfirst ihrest =>
    rw [outcome_tryCatch]
    rcases hx : outcome x s with ⟨e | a, t⟩
    · rw [passed_tryCatch_error _ _ hx, List.getLast?_append, ihrest, Option.some_or]
    · rw [passed_tryCatch_ok _ _ hx, ihfirst, hx]
  | node n way ih => exact ih s

theorem mem_passed (j : Journey x) (s : Lowerer) : (outcome x s).2 ∈ j.passed s :=
  List.mem_of_getLast? (j.getLast?_passed s)

/-- A node is come to in one of the states. -/
theorem mem_passed_of_arrival (j : Journey x) {arrival : Arrival} (h : arrival ∈ j.arrivals s) :
    arrival.state ∈ s :: j.passed s := by
  induction j generalizing s with
  | step hx => cases h
  | @bind _ _ x k first rest ihfirst ihrest =>
    have hlast := first.mem_passed s
    rcases hx : outcome x s with ⟨e | a, t⟩ <;> rw [hx] at hlast
    · rw [arrivals_bind_error _ _ hx] at h
      rw [passed_bind_error _ _ hx]
      exact ihfirst h
    · rw [arrivals_bind_ok _ _ hx] at h
      rw [passed_bind_ok _ _ hx, ← List.cons_append]
      rcases List.mem_append.mp h with h | h
      · exact List.mem_append_left _ (ihfirst h)
      · rcases List.mem_cons.mp (ihrest a h) with heq | hmem
        · exact List.mem_append_left _ (List.mem_cons_of_mem _ (heq ▸ hlast))
        · exact List.mem_append_right _ hmem
  | @tryCatch _ x handle first rest ihfirst ihrest =>
    have hlast := first.mem_passed s
    rcases hx : outcome x s with ⟨e | a, t⟩ <;> rw [hx] at hlast
    · rw [arrivals_tryCatch_error _ _ hx] at h
      rw [passed_tryCatch_error _ _ hx, ← List.cons_append]
      rcases List.mem_append.mp h with h | h
      · exact List.mem_append_left _ (ihfirst h)
      · rcases List.mem_cons.mp (ihrest e h) with heq | hmem
        · exact List.mem_append_left _ (List.mem_cons_of_mem _ (heq ▸ hlast))
        · exact List.mem_append_right _ hmem
    · rw [arrivals_tryCatch_ok _ _ hx] at h
      rw [passed_tryCatch_ok _ _ hx]
      exact ihfirst h
  | node n way ih =>
    rcases List.mem_cons.mp h with rfl | h
    · exact List.mem_cons_self
    · exact ih h

theorem getLast?_cons_passed (j : Journey x) (s : Lowerer) :
    (s :: j.passed s).getLast? = some (outcome x s).2 := by
  rw [List.getLast?_cons, j.getLast?_passed]
  rfl

/-- **No state is left out**: each is reached from the one before by an elementary step. -/
theorem chain (j : Journey x) (s : Lowerer) : List.IsChain Leads (s :: j.passed s) := by
  induction j generalizing s with
  | @step _ x hx =>
    rw [passed, List.isChain_cons_cons]
    exact ⟨⟨_, x, hx, rfl⟩, .singleton _⟩
  | @bind _ _ x k first rest ihfirst ihrest =>
    have hlast := first.getLast?_cons_passed s
    rcases hx : outcome x s with ⟨e | a, t⟩
    · rw [passed_bind_error _ _ hx]
      exact ihfirst s
    · rw [hx] at hlast
      rw [passed_bind_ok _ _ hx]
      exact chain_append (ihfirst s) hlast (ihrest a t)
  | @tryCatch _ x handle first rest ihfirst ihrest =>
    have hlast := first.getLast?_cons_passed s
    rcases hx : outcome x s with ⟨e | a, t⟩
    · rw [hx] at hlast
      rw [passed_tryCatch_error _ _ hx]
      exact chain_append (ihfirst s) hlast (ihrest e t)
    · rw [passed_tryCatch_ok _ _ hx]
      exact ihfirst s
  | node n way ih => exact ih s

/-! ### The journeys of the constructs -/

section Constructs

variable {x y z : LowerM (Option Value)}

/-- A step whose value is passed on. -/
def map {x : LowerM α} (j : Journey x) (g : α → β) : Journey (do return g (← x)) :=
  .bind j fun _ => .step (.pure _)

/-- Either of two steps. -/
def either {c : Prop} [h : Decidable c] {x y : LowerM α} (j : Journey x) (k : Journey y) :
    Journey (if c then x else y) :=
  match h with
  | .isTrue _ => j
  | .isFalse _ => k

def emit {step : IR.Function → BlockId → Value × IR.Function}
    (hstep : ∀ f b, ∃ op ty name, step f b = f.push b op ty name) : Journey (emit step) :=
  .bind (.step .cursor) fun c => .step (.emitAt c hstep)

def slotType (c : Cursor) (value : Value) : Journey (slotType c value) :=
  .bind (.step .get) fun _ => .step (.pure _)

def materialize (value : Value) : Journey (materialize value) :=
  .bind (.step .cursor) fun c => .bind (slotType c value) fun
    | some _ => .step (.emitAt c fun _ _ => ⟨_, _, _, rfl⟩)
    | none => .step (.pure value)

def closingScope {x : LowerM α} (j : Journey x) : Journey (closingScope x) :=
  .bind (.tryCatch (j.map _) fun _ => .step (.pure _)) fun r => .bind (.step .popScope) fun _ =>
    match r with
    | .ok a => .step (.pure a)
    | .error e => .step (.throw e)

def recover (e : LowerError) : Journey (recover e) :=
  .bind (.step .get) fun _ =>
    either (.bind (.step (.throw e)) fun _ => .bind (.step (.recordError e)) fun _ =>
    .step (.pure _))
      (.bind (.step (.recordError e)) fun _ => .step (.pure _))

def recovering (j : Journey x) : Journey (recovering x) := .tryCatch j recover

def ofOption (context : String) : (value : Option Value) →
    Journey (match value with
      | some value => Pure.pure value
      | none => MonadExcept.throw (.missingValue context) : LowerM Value)
  | some value => .step (.pure value)
  | none => .step (.throw _)

def required (j : Journey x) (context : String) : Journey (required context x) :=
  .bind j (ofOption context)

def operand (j : Journey x) (context : String) : Journey (operand context x) :=
  .bind (j.required context) materialize

def lowerIdent (name : String) : Journey (lowerIdent name) :=
  .bind (.step .get) fun s => match s.scopes.resolve name with
    | some value => .step (.pure value)
    | none => .step (.throw _)

def lowerBinary (j : Journey x) (k : Journey y) (op : BinOp) : Journey (lowerBinary op x y) :=
  .bind (j.operand _) fun _ => .bind (k.operand _) fun _ => match lowerOp op with
    | some (.arith _) => emit fun _ _ => ⟨_, _, _, rfl⟩
    | some (.compare _) => emit fun _ _ => ⟨_, _, _, rfl⟩
    | none => .step (.throw _)

def lowerAssign (j : Journey x) (target : String) : Journey (lowerAssign target x) :=
  .bind (.step .get) fun s => match s.scopes.resolve target with
    | some slot => .bind (.step .cursor) fun c => .bind (slotType c slot) fun
      | none => .bind (.step .get) fun _ => .step (.throw _)
      | some _ => .bind (j.operand _) fun _ => emit fun _ _ => ⟨_, _, _, rfl⟩
    | none => .step (.throw _)

def lowerArg (j : Journey x) (key : Option String) : Journey (lowerArg key x) :=
  .bind (j.required _) fun value => match key with
    | some _ => .bind (.step .get) fun _ => either (materialize value) (.step (.pure value))
    | none => .step (.pure value)

def lowerCall {args : LowerM (List Value)} (j : Journey args) (callee : String) (count : Nat) :
    Journey (lowerCall callee count args) :=
  .bind (.step .get) fun s => match s.code.getFunction? callee with
    | some _ => .bind (.step .get) fun _ =>
      either (.bind j fun _ => emit fun _ _ => ⟨_, _, _, rfl⟩)
        (.bind (.step (.throw _)) fun _ => .bind j fun _ => emit fun _ _ => ⟨_, _, _, rfl⟩)
    | none => .step (.throw _)

def lowerRegion {x : LowerM α} (j : Journey x) (c : Cursor) : Journey (lowerRegion c x) :=
  .bind (.step (.pushScopeCopy c)) fun _ => j.closingScope

def lowerIf (j : Journey x) (k : Journey y) (l : Journey z) : Journey (lowerIf x y z) :=
  .bind (j.operand _) fun _ => .bind (.step .cursor) fun c =>
    .bind (.step (.createBlock _ _)) fun _ => .bind (.step (.createBlock _ _)) fun _ =>
    .bind (.step (.emitAt c fun _ _ => ⟨_, _, _, rfl⟩)) fun _ => .bind (k.lowerRegion _) fun _ =>
    .bind (l.lowerRegion _) fun _ => .step (.pure _)

def lowerLoopBody (j : Journey x) (k : Journey y) (before inside : Cursor) (start : Value) :
    Journey (lowerLoopBody before inside start x y) :=
  .bind (.step .get) fun _ => .bind (.step (.emitAt inside fun _ _ => ⟨_, _, _, rfl⟩)) fun _ =>
    .bind (.step (.addIncoming _ _ _ _)) fun _ => .bind (.step (.declare _ _ _)) fun _ =>
    .bind j fun _ => .bind (emit fun _ _ => ⟨_, _, _, rfl⟩) fun _ =>
    .bind (k.operand _) fun _ => .bind (.step .cursor) fun closing =>
    .bind (.step (.emitAt closing fun _ _ => ⟨_, _, _, rfl⟩)) fun _ =>
    .bind (.step (.nameValue _ _ _)) fun _ => .bind (.step (.nameValue _ _ _)) fun _ =>
    .bind (.step (.createBlock _ _)) fun _ =>
    .bind (.step (.emitAt closing fun _ _ => ⟨_, _, _, rfl⟩)) fun _ =>
    .bind (.step (.addIncoming _ _ _ _)) fun _ => .step (.pure _)

def lowerLoop (j : Journey x) (k : Journey y) (l : Journey z) : Journey (lowerLoop x y z) :=
  .bind (j.operand _) fun _ => .bind (.step .cursor) fun before =>
    .bind (.step (.createBlock _ _)) fun _ =>
    .bind (.step (.emitAt before fun _ _ => ⟨_, _, _, rfl⟩)) fun _ =>
    .bind ((k.lowerLoopBody l _ _ _).lowerRegion _) fun _ =>
    .bind (.step (.emitAt _ fun _ _ => ⟨_, _, _, rfl⟩)) fun _ => .step (.pure _)

def lowerReturn (j : Journey x) : Journey (lowerReturn (some x)) :=
  .bind (j.operand _) fun _ => emit fun _ _ => ⟨_, _, _, rfl⟩

def lowerVar (j : Journey x) (node : NodeId) (ty name : String) :
    Journey (lowerVar node ty name x) :=
  .bind (emit fun _ _ => ⟨_, _, _, rfl⟩) fun _ => .bind (.step (.addDecl _)) fun _ =>
    .bind (.step (.declare _ _ _)) fun _ => .bind (j.lowerAssign _) fun _ => .step (.pure _)

def declareParams : (i : Nat) → (params : List Param) → Journey (declareParams i params)
  | _, [] => .step (.pure _)
  | i, _ :: ps => .bind (.step (.addDecl _)) fun _ => .bind (.step (.declare _ _ _)) fun _ =>
    declareParams (i + 1) ps

def lowerFn (j : Journey x) (retTy : Option String) (name : String) (params : List Param)
    (returns : Bool) : Journey (lowerFn retTy name params returns x) :=
  .bind (.step (.addFunction name _ _)) fun func => .bind (.step (.nameParams func params)) fun _ =>
    .bind (.step (.createBlock _ _)) fun _ => .bind (.step (.pushScope _)) fun _ => closingScope <|
    .bind (declareParams 0 params) fun _ => .bind j fun _ =>
      either (.bind (emit fun _ _ => ⟨_, _, _, rfl⟩) fun _ => .step (.pure _)) (.step (.pure _))

end Constructs

end Journey

/-! ### The walk -/

mutual

def exprJourney (e : Expr) : Journey (lowerExpr e) :=
  .node (.expr e) <| match e with
    | .int .. | .double .. => .step (.pure _)
    | .string .. => .map (.step (.addGlobalString _ _)) _
    | .ident _ name => .map (.lowerIdent name) _
    | .call _ callee args => .map ((argsJourney args).lowerCall callee _) _
    | .binary _ op left right =>
      .map ((exprJourney left).lowerBinary (exprJourney right) op) _
    | .assign _ target value => .map ((exprJourney value).lowerAssign target) _
    | .ifElse _ cond thenBlock elseBlock =>
      .map ((exprJourney cond).lowerIf (blockJourney thenBlock) (blockJourney elseBlock))
        fun _ => none
    | .loop _ start limit body =>
      .map ((exprJourney start).lowerLoop (blockJourney body) (exprJourney limit)) fun _ => none
    | .block _ body => blockJourney body

def argsJourney : (args : List Expr) → Journey (lowerArgs args)
  | [] => .step (.pure _)
  | arg :: args => .bind ((exprJourney arg).lowerArg _) fun _ => .map (argsJourney args) _

def stmtJourney (stmt : Stmt) : Journey (lowerStmt stmt) :=
  .node (.stmt stmt) <| match stmt with
    | .expr _ value => exprJourney value
    | .ret _ none => .map (.emit fun _ _ => ⟨_, _, _, rfl⟩) _
    | .ret _ (some value) => .map (exprJourney value).lowerReturn _
    | .var _ _ name none => .map (.lowerIdent name) _
    | .var id ty name (some init) => .map ((exprJourney init).lowerVar id ty name) _
    | .fn _ retTy name params body =>
      .map ((blockJourney body).lowerFn retTy name params _) fun _ => none
    | .block _ body => blockJourney body

def blockJourney (block : Block) : Journey (lowerBlock block) :=
  .node (.block block) <| match block with
    | .mk _ stmts => stmtsJourney stmts none

def stmtsJourney : (stmts : List Stmt) → (last : Option Value) → Journey (lowerStmts last stmts)
  | [], _ => .step (.pure _)
  | stmt :: stmts, _ => .bind (stmtJourney stmt).recovering fun value => stmtsJourney stmts value

end

/-! ### Programs -/

/-- The state before the first region is opened. -/
def initial (options : Options) : Lowerer := { code := (openModule options).2, options }

/-- What is done for a program: the region of its statements is opened, filled and closed. -/
def programJourney (root : Block) (options : Options) :
    Journey (do
      pushScope (openModule options).1
      let _ ← lowerBlock root
      popScope) :=
  .bind (.step (.pushScope _)) fun _ => .bind (blockJourney root) fun _ => .step .popScope

/-- The states that the lowering of a program passes through, from the first to the last. -/
def passed (root : Block) (options : Options) : List Lowerer :=
  initial options :: (programJourney root options).passed (initial options)

/-- The nodes that the lowering of a program comes to, in order. -/
def arrivals (root : Block) (options : Options) : List Arrival :=
  (programJourney root options).arrivals (initial options)

/-- The body of an inner loop is lowered with three regions open. -/
example : ((passed (.mk 0 [.expr 1 (.loop 2 (.double 3 .one) (.double 4 .one) (.mk 5
    [.expr 6 (.loop 7 (.double 8 .one) (.double 9 .one) (.mk 10 []))]))]) {}).map
      (·.scopes.depth)).max? = some 3 := by
  decide +kernel

/-! ### What holds throughout -/

/-- Every state of a journey has `P`, the first one included, and the error that it may end with
has `E`. -/
structure Throughout (P : Lowerer → Prop) (E : LowerError → Prop) {α : Type} {x : LowerM α}
    (j : Journey x) (s : Lowerer) : Prop where
  before : P s
  passed : ∀ t ∈ j.passed s, P t
  raised : ∀ {e}, (outcome x s).1 = .error e → E e

namespace Throughout

variable {α β : Type} {P Q : Lowerer → Prop} {E : LowerError → Prop} {x : LowerM α}
  {k : α → LowerM β} {s t : Lowerer}

theorem after {j : Journey x} (h : Throughout P E j s) : P (outcome x s).2 :=
  h.passed _ (j.mem_passed s)

theorem step (hx : Elementary x) (before : P s) (after : P (outcome x s).2)
    (raised : ∀ e, (outcome x s).1 = .error e → E e) : Throughout P E (.step hx) s := by
  refine ⟨before, fun t ht => ?_, raised _⟩
  rw [Journey.passed, List.mem_singleton] at ht
  rwa [ht]

theorem bind {first : Journey x} {rest : ∀ a, Journey (k a)} (hfirst : Throughout P E first s)
    (hrest : ∀ a t, outcome x s = (.ok a, t) → Throughout P E (rest a) t) :
    Throughout P E (.bind first rest) s := by
  rcases hx : outcome x s with ⟨e | a, t⟩
  · refine ⟨hfirst.before, ?_, fun he => ?_⟩
    · rw [Journey.passed_bind_error _ _ hx]
      exact hfirst.passed
    · rw [outcome_bind_error s k hx] at he
      cases he
      exact hfirst.raised (by rw [hx])
  · have hnext := hrest a t hx
    refine ⟨hfirst.before, ?_, fun he => ?_⟩
    · rw [Journey.passed_bind_ok _ _ hx, List.forall_mem_append]
      exact ⟨hfirst.passed, hnext.passed⟩
    · rw [outcome_bind_ok s k hx] at he
      exact hnext.raised he

theorem tryCatch {handle : LowerError → LowerM α} {first : Journey x}
    {rest : ∀ e, Journey (handle e)} (hfirst : Throughout P E first s)
    (hrest : ∀ e t, outcome x s = (.error e, t) → Throughout P E (rest e) t) :
    Throughout P E (.tryCatch first rest) s := by
  have hout := outcome_tryCatch s x handle
  rcases hx : outcome x s with ⟨e | a, t⟩
  · have hnext := hrest e t hx
    rw [hx] at hout
    refine ⟨hfirst.before, ?_, fun he => ?_⟩
    · rw [Journey.passed_tryCatch_error _ _ hx, List.forall_mem_append]
      exact ⟨hfirst.passed, hnext.passed⟩
    · rw [hout] at he
      exact hnext.raised he
  · rw [hx] at hout
    refine ⟨hfirst.before, ?_, fun he => ?_⟩
    · rw [Journey.passed_tryCatch_ok _ _ hx]
      exact hfirst.passed
    · rw [hout] at he
      cases he

theorem node {n : Node} {way : Journey n.lower} (h : Throughout P E way s) :
    Throughout P E (.node n way) s :=
  ⟨h.before, h.passed, h.raised⟩

theorem pure (a : α) (hs : P s) : Throughout P E (.step (.pure a)) s :=
  .step (.pure a) hs hs fun _ he => by cases he

theorem throw {e : LowerError} (he : E e) (hs : P s) :
    Throughout P E (.step (.throw e) : Journey (throw e : LowerM α)) s :=
  .step (.throw e) hs hs fun _ h => by cases h; exact he

theorem get_bind {k : Lowerer → LowerM α} {rest : ∀ u, Journey (k u)}
    (h : Throughout P E (rest s) s) : Throughout P E (.bind (.step .get) rest) s := by
  refine .bind (.step .get h.before h.before fun _ he => by cases he) fun _ _ hget => ?_
  cases hget
  exact h

/-- A sequence; the state between its parts is one on the way. -/
theorem seq {first : Journey x} {rest : ∀ a, Journey (k a)} (hx : Throughout P E first s)
    (hk : ∀ a t, outcome x s = (.ok a, t) → P t → Throughout P E (rest a) t) :
    Throughout P E (.bind first rest) s := by
  refine .bind hx fun a t h => hk a t h ?_
  have hlast := hx.after
  rwa [h] at hlast

/-- A sequence whose first step is known to succeed. -/
theorem bind_ok {first : Journey x} {rest : ∀ a, Journey (k a)} {a : α}
    (hx : Throughout P E first s) (hok : outcome x s = (.ok a, t))
    (hk : Throughout P E (rest a) t) : Throughout P E (.bind first rest) s := by
  refine .bind hx fun a' t' hok' => ?_
  rw [hok] at hok'
  cases hok'
  exact hk

/-- A scope that is closed after a step, whether or not the step fails. -/
theorem closingScope {j : Journey x} (hx : Throughout P E j s)
    (hpop : Throughout P E (.step .popScope) (outcome x s).2) :
    Throughout P E j.closingScope s := by
  rcases h : outcome x s with ⟨r, t⟩
  rw [h] at hpop
  have ht : P t := hpop.before
  refine bind_ok (.tryCatch (.bind hx fun a u hu => ?_) fun e u hu => ?_) (outcome_caught h)
    (hpop.seq fun _ u _ hu => ?_)
  · rw [h] at hu
    cases hu
    exact .pure _ ht
  · rw [outcome_bind, h] at hu
    cases r <;> cases hu
    exact .pure _ ht
  · cases r with
    | ok a => exact .pure _ hu
    | error e => exact .throw (hx.raised (by rw [h])) hu

/-- Either of two steps. -/
theorem either {c : Prop} [h : Decidable c] {x y : LowerM α} {j : Journey x} {k : Journey y}
    (hx : c → Throughout P E j s) (hy : ¬c → Throughout P E k s) :
    Throughout P E (Journey.either (c := c) j k) s := by
  cases h with
  | isTrue hc => exact hx hc
  | isFalse hc => exact hy hc

/-- A statement that may be left out. -/
theorem recovering {x : LowerM (Option Value)} {j : Journey x} (hx : Throughout P E j s)
    (hrecord : ∀ e t, P t → E e → P { t with errors := t.errors ++ [e] }) :
    Throughout P E j.recovering s := by
  refine .tryCatch hx fun e t h => ?_
  have ht : P t := by
    have hlast := hx.after
    rwa [h] at hlast
  have he : E e := hx.raised (by rw [h])
  refine get_bind (either (fun _ => ?_) fun _ => ?_)
  · exact .bind (.throw he ht) fun _ _ hbad => by cases hbad
  · exact bind_ok (.step (.recordError e) ht (hrecord e t ht he) fun _ hbad => by cases hbad) rfl
      (.pure _ (hrecord e t ht he))

end Throughout

end TreeCompiler.Lowering
