/-
What lowering meets, in order.

There are three places in a program where the names of the module matter.  The constant of a string
literal and a declared function request a name from the module's supply, and a call looks a function
up by name.  `moments` lists these places in the order in which lowering comes to them, each with
the state that it comes in.

The list is read off a `Course`, which is a step taken apart into smaller ones.  A course is indexed
by the step, so it cannot be that of another step, and the states in the list are those that the
step really passes.  Most parts of a step give out no name and refuse no callee; they are `Quiet`
and their course says no more than that.

What a module knows of names is its `Directory`.  The events alone determine it: at each moment, and
at the end, the directory is what the events so far have made of the first one (`Course.chained`).
And every callee that is refused as unknown is that of a call in the list (`Course.refused`).
-/
import TreeCompiler.Proofs.Lowering.Start

namespace TreeCompiler

namespace IR

/-- The names of a module: its functions with their signatures, and the supply that the next name
comes from. -/
structure Directory where
  functions : List (String × Signature)
  names : NameSupply
  deriving DecidableEq, Repr

def Module.directory (m : Module) : Directory :=
  { functions := m.functions.map fun f => (f.name, f.sig), names := m.names }

/-- A function that keeps its name and its signature keeps its place in the directory. -/
theorem Module.directory_setFunction {m : Module} {id : FuncId} {f : Function}
    (hname : f.name = (m.function id).name) (hsig : f.sig = (m.function id).sig) :
    (m.setFunction id f).directory = m.directory := by
  have hfunctions : (m.functions.set id f).map (fun f => (f.name, f.sig))
      = m.functions.map fun f => (f.name, f.sig) := by
    refine List.ext_getElem? fun k => ?_
    rw [List.map_set, List.getElem?_set, List.length_map, List.getElem?_map]
    split
    · subst_vars
      split
      · rename_i hlt
        simp [hname, hsig, Module.function, List.getElem?_eq_getElem hlt]
      · rename_i hge
        simp [List.getElem?_eq_none (Nat.not_lt.mp hge)]
    · rfl
  unfold Module.directory Module.setFunction
  rw [hfunctions]

end IR

namespace Lowering

open IR (FuncId BlockId InstId Ty Value Op)
open Program (Expr Stmt Block BinOp NodeId Param)

variable {α β : Type}

/-! ### Quiet steps -/

/-- A step that was taken in `s` ended with no new name and without refusing a callee. -/
structure Still (s : Lowerer) (r : Except LowerError α × Lowerer) : Prop where
  directory : r.2.code.directory = s.code.directory
  errors : r.2.errors = s.errors
  raised : ∀ n, r.1 ≠ .error (.unknownCallee n)

theorem Still.ok {s t : Lowerer} {a : α} (hd : t.code.directory = s.code.directory)
    (he : t.errors = s.errors) : Still s (.ok a, t) :=
  ⟨hd, he, fun _ h => by cases h⟩

theorem Still.error {s : Lowerer} {e : LowerError} (he : ∀ n, e ≠ .unknownCallee n) :
    Still s ((.error e, s) : Except LowerError α × Lowerer) :=
  ⟨rfl, rfl, fun n h => he n (Except.error.inj h)⟩

theorem ne_unknownCallee_of_isInternal {e : LowerError} (he : e.isInternal = true) (n : String) :
    e ≠ .unknownCallee n := by
  rintro rfl
  cases he

/-- The step gives out no name and refuses no callee. -/
def Quiet (x : LowerM α) : Prop := ∀ s, Still s (outcome x s)

namespace Quiet

theorem bind {x : LowerM α} {k : α → LowerM β} (hx : Quiet x) (hk : ∀ a, Quiet (k a)) :
    Quiet (x >>= k) := by
  intro s
  have hfirst := hx s
  rw [outcome_bind]
  rcases h : outcome x s with ⟨e | a, t⟩
  · rw [h] at hfirst
    exact ⟨hfirst.directory, hfirst.errors,
      fun n hn => hfirst.raised n (by rw [Except.error.inj hn])⟩
  · rw [h] at hfirst
    have hrest := hk a t
    exact ⟨hrest.directory.trans hfirst.directory, hrest.errors.trans hfirst.errors, hrest.raised⟩

theorem get : Quiet (get : LowerM Lowerer) := fun _ => .ok rfl rfl

theorem pure (a : α) : Quiet (pure a : LowerM α) := fun _ => .ok rfl rfl

theorem throw {e : LowerError} (he : ∀ n, e ≠ .unknownCallee n) : Quiet (throw e : LowerM α) :=
  fun _ => .error he

theorem changeScopes {change : ScopeStack → Except LowerError ScopeStack}
    (hchange : ∀ scopes e, change scopes = .error e → e.isInternal = true) :
    Quiet (changeScopes change) := by
  intro s
  rw [outcome_changeScopes]
  split
  · exact .ok rfl rfl
  · rename_i e he
    exact .error (ne_unknownCallee_of_isInternal (hchange _ e he))

theorem pushScopeCopy (c : Cursor) : Quiet (pushScopeCopy c) := by
  refine changeScopes fun scopes e h => ?_
  unfold ScopeStack.pushCopy at h
  split at h <;> cases h
  rfl

theorem declare (name : String) (value : Value) (decl : Option DeclId) :
    Quiet (declare name value decl) := by
  refine changeScopes fun scopes e h => ?_
  unfold ScopeStack.declare at h
  split at h <;> cases h
  rfl

theorem cursor : Quiet cursor := by
  intro s
  obtain ⟨c, hc⟩ | hs := s.at_or_empty
  · rw [outcome_cursor hc]
    exact .ok rfl rfl
  · rw [outcome_cursor_empty hs]
    exact .error (ne_unknownCallee_of_isInternal rfl)

theorem addDecl (decl : Decl) : Quiet (addDecl decl) := fun _ => .ok rfl rfl

theorem updateFunction {change : IR.Function → α × IR.Function}
    (hname : ∀ f, (change f).2.name = f.name) (hsig : ∀ f, (change f).2.sig = f.sig)
    (func : FuncId) :
    Quiet (updateFunction func change) :=
  fun _ => .ok (IR.Module.directory_setFunction (hname _) (hsig _)) rfl

theorem createBlock (func : FuncId) (base : String) : Quiet (createBlock func base) :=
  updateFunction (fun _ => rfl) (fun _ => rfl) func

theorem emitAt {step : IR.Function → BlockId → Value × IR.Function}
    (hstep : ∀ f b, ∃ op ty name, step f b = f.push b op ty name) (c : Cursor) :
    Quiet (emitAt c step) := by
  refine updateFunction (fun f => ?_) (fun f => ?_) c.func
  all_goals
    obtain ⟨op, ty, name, heq⟩ := hstep f c.block
    rw [heq]
    rfl

theorem emit {step : IR.Function → BlockId → Value × IR.Function}
    (hstep : ∀ f b, ∃ op ty name, step f b = f.push b op ty name) : Quiet (emit step) :=
  cursor.bind (emitAt hstep)

theorem nameValue (func : FuncId) (value : Value) (name : String) :
    Quiet (nameValue func value name) :=
  updateFunction (fun _ => by cases value <;> rfl) (fun _ => by cases value <;> rfl) func

theorem addIncoming (func : FuncId) (phi value : Value) (source : BlockId) :
    Quiet (addIncoming func phi value source) := by
  intro s
  obtain ⟨g, hg, hout⟩ | ⟨_, hout⟩ := outcome_addIncoming_cases s func phi value source
  · obtain ⟨k, i, -, rfl⟩ := IR.Function.addIncoming_eq_ok hg
    rw [hout]
    exact .ok (IR.Module.directory_setFunction rfl rfl) rfl
  · rw [hout]
    exact .error (ne_unknownCallee_of_isInternal rfl)

theorem materialize (value : Value) : Quiet (materialize value) := by
  refine cursor.bind fun c => Quiet.bind (get.bind fun _ => .pure _) fun ty => ?_
  split
  · exact emitAt (fun _ _ => ⟨_, _, _, rfl⟩) c
  · exact .pure _

theorem ofOption (context : String) (value : Option Value) :
    Quiet (match value with
      | some value => Pure.pure value
      | none => MonadExcept.throw (.missingValue context) : LowerM Value) := by
  cases value
  · exact .throw fun _ h => by cases h
  · exact .pure _

theorem lowerIdent (name : String) : Quiet (lowerIdent name) := by
  refine get.bind fun s => ?_
  split
  · exact .pure _
  · exact .throw fun _ h => by cases h

theorem declareParams (i : Nat) (params : List Param) : Quiet (declareParams i params) := by
  induction params generalizing i with
  | nil => exact .pure _
  | cons p ps ih => exact (addDecl _).bind fun _ => (declare _ _ _).bind fun _ => ih _

theorem setParamNames (func : FuncId) (params : List Param) :
    Quiet (Lowering.updateFunction func fun f =>
      ((), params.zipIdx.foldl (fun f (p, i) => f.setParamName i p.name) f)) := by
  refine updateFunction (fun f => ?_) (fun f => ?_) func
  all_goals
    obtain ⟨names, heq⟩ := foldl_setParamName params.zipIdx f
    rw [heq]

end Quiet

/-! ### Courses -/

/-- What happens where the names of the module matter. -/
inductive Event where
  /-- A string literal is met. -/
  | literal
  /-- A function is declared. -/
  | declaration (name : String) (sig : IR.Signature)
  /-- A function is called with so many arguments. -/
  | call (callee : String) (count : Nat)
  deriving DecidableEq, Repr

/-- An event and the state in which it is met. -/
structure Moment where
  event : Event
  state : Lowerer

/-- A step taken apart as far as names matter. -/
inductive Course : {α : Type} → LowerM α → Type 1
  | quiet {α : Type} {x : LowerM α} (hx : Quiet x) : Course x
  | literal (text : String) : Course (addGlobalString "str" text)
  | declaration (name : String) (sig : IR.Signature) : Course (addFunction name sig .internal)
  | call (callee : String) (count : Nat) {args : LowerM (List Value)} (rest : Course args) :
      Course (lowerCall callee count args)
  | bind {α β : Type} {x : LowerM α} {k : α → LowerM β} (first : Course x)
      (rest : ∀ a, Course (k a)) : Course (x >>= k)
  | closingScope {α : Type} {x : LowerM α} (body : Course x) : Course (closingScope x)
  | recovering {x : LowerM (Option Value)} (body : Course x) : Course (recovering x)

namespace Course

/-- The moments of a step that is taken in a state.  The arguments of a call are only lowered if
there is a function that takes as many. -/
def moments : {α : Type} → {x : LowerM α} → Course x → Lowerer → List Moment
  | _, _, .quiet _, _ => []
  | _, _, .literal _, s => [⟨.literal, s⟩]
  | _, _, .declaration name sig, s => [⟨.declaration name sig, s⟩]
  | _, _, .call callee count rest, s =>
    ⟨.call callee count, s⟩ ::
      match s.code.getFunction? callee with
      | none => []
      | some func => if (s.code.function func).sig.accepts count then rest.moments s else []
  | _, _, @Course.bind _ _ x _ first rest, s =>
    first.moments s ++
      match outcome x s with
      | (.error _, _) => []
      | (.ok a, t) => (rest a).moments t
  | _, _, .closingScope body, s => body.moments s
  | _, _, .recovering body, s => body.moments s

/-! ### The courses of the constructs -/

variable {x y z : LowerM (Option Value)}

/-- A step whose value is passed on. -/
def map {x : LowerM α} (c : Course x) (g : α → β) : Course (do return g (← x)) :=
  .bind c fun _ => .quiet (.pure _)

def lowerRegion {x : LowerM α} (c : Course x) (d : Cursor) : Course (lowerRegion d x) :=
  .bind (.quiet (.pushScopeCopy d)) fun _ => c.closingScope

def required (c : Course x) (context : String) : Course (required context x) :=
  .bind c fun value => .quiet (.ofOption context value)

def operand (c : Course x) (context : String) : Course (operand context x) :=
  .bind (c.required context) fun value => .quiet (.materialize value)

def lowerBinary (c : Course x) (d : Course y) (op : BinOp) : Course (lowerBinary op x y) :=
  .bind (c.operand _) fun _ => .bind (d.operand _) fun _ => match lowerOp op with
    | some (.arith _) => .quiet (.emit fun _ _ => ⟨_, _, _, rfl⟩)
    | some (.compare _) => .quiet (.emit fun _ _ => ⟨_, _, _, rfl⟩)
    | none => .quiet (.throw fun _ h => by cases h)

def lowerAssign (c : Course x) (target : String) : Course (lowerAssign target x) :=
  .bind (.quiet .get) fun s => match s.scopes.resolve target with
    | some _ => .bind (.quiet .cursor) fun _ => .bind (.quiet (Quiet.get.bind fun _ => .pure _)) fun
      | none => .bind (.quiet .get) fun _ => .quiet (.throw fun _ h => by cases h)
      | some _ => .bind (c.operand _) fun _ => .quiet (.emit fun _ _ => ⟨_, _, _, rfl⟩)
    | none => .quiet (.throw fun _ h => by cases h)

def lowerArg (c : Course x) (key : Option String) : Course (lowerArg key x) :=
  .bind (c.required _) fun value => match key with
    | some name => .bind (.quiet .get) fun s => .quiet <| by
      split
      · exact .materialize value
      · exact .pure value
    | none => .quiet (.pure value)

def lowerIf (c : Course x) (d : Course y) (e : Course z) : Course (lowerIf x y z) :=
  .bind (c.operand _) fun _ => .bind (.quiet .cursor) fun _ =>
    .bind (.quiet (.createBlock _ _)) fun _ =>
    .bind (.quiet (.createBlock _ _)) fun _ =>
    .bind (.quiet (.emitAt (fun _ _ => ⟨_, _, _, rfl⟩) _)) fun _ =>
    .bind (d.lowerRegion _) fun _ => .bind (e.lowerRegion _) fun _ => .quiet (.pure _)

def lowerLoopBody (c : Course x) (d : Course y) (before inside : Cursor) (start : Value) :
    Course (lowerLoopBody before inside start x y) :=
  .bind (.quiet .get) fun _ => .bind (.quiet (.emitAt (fun _ _ => ⟨_, _, _, rfl⟩) _)) fun _ =>
    .bind (.quiet (.addIncoming _ _ _ _)) fun _ => .bind (.quiet (.declare _ _ _)) fun _ =>
    .bind c fun _ =>
    .bind (.quiet (.emit fun _ _ => ⟨_, _, _, rfl⟩)) fun _ => .bind (d.operand _) fun _ =>
    .quiet <| Quiet.cursor.bind fun _ => (Quiet.emitAt (fun _ _ => ⟨_, _, _, rfl⟩) _).bind fun _ =>
      (Quiet.nameValue _ _ _).bind fun _ => (Quiet.nameValue _ _ _).bind fun _ =>
      (Quiet.createBlock _ _).bind fun _ =>
      (Quiet.emitAt (fun _ _ => ⟨_, _, _, rfl⟩) _).bind fun _ =>
      (Quiet.addIncoming _ _ _ _).bind fun _ => .pure _

def lowerLoop (c : Course x) (d : Course y) (e : Course z) : Course (lowerLoop x y z) :=
  .bind (c.operand _) fun _ => .bind (.quiet .cursor) fun _ =>
    .bind (.quiet (.createBlock _ _)) fun _ =>
    .bind (.quiet (.emitAt (fun _ _ => ⟨_, _, _, rfl⟩) _)) fun _ =>
    .bind ((d.lowerLoopBody e _ _ _).lowerRegion _) fun _ =>
    .bind (.quiet (.emitAt (fun _ _ => ⟨_, _, _, rfl⟩) _)) fun _ => .quiet (.pure _)

def lowerVar (c : Course x) (node : NodeId) (ty name : String) : Course (lowerVar node ty name x) :=
  .bind (.quiet (.emit fun _ _ => ⟨_, _, _, rfl⟩)) fun _ => .bind (.quiet (.addDecl _)) fun _ =>
    .bind (.quiet (.declare _ _ _)) fun _ => .bind (c.lowerAssign _) fun _ => .quiet (.pure _)

def lowerFn (c : Course x) (retTy : Option String) (name : String) (params : List Param)
    (returns : Bool) :
    Course (lowerFn retTy name params returns x) :=
  .bind (.declaration name _) fun _ => .bind (.quiet (.setParamNames _ params)) fun _ =>
    .bind (.quiet (.createBlock _ _)) fun _ => .bind (.quiet fun _ => .ok rfl rfl) fun _ =>
    closingScope <|
      .bind (.quiet (.declareParams _ _)) fun _ => .bind c fun _ => .quiet <| by
        split
        · exact (Quiet.emit fun _ _ => ⟨_, _, _, rfl⟩).bind fun _ => .pure _
        · exact .pure _

end Course

/-! ### The walk -/

mutual

def exprCourse : (e : Expr) → Course (lowerExpr e)
  | .int .. | .double .. => .quiet (.pure _)
  | .string .. => (Course.literal _).map _
  | .ident _ name => .map (.quiet (.lowerIdent name)) _
  | .call _ callee args => .map (.call callee _ (argsCourse args)) _
  | .binary _ op left right => ((exprCourse left).lowerBinary (exprCourse right) op).map _
  | .assign _ target value => ((exprCourse value).lowerAssign target).map _
  | .ifElse _ cond thenBlock elseBlock =>
    ((exprCourse cond).lowerIf (blockCourse thenBlock) (blockCourse elseBlock)).map fun _ => none
  | .loop _ start limit body =>
    ((exprCourse start).lowerLoop (blockCourse body) (exprCourse limit)).map fun _ => none
  | .block _ body => blockCourse body

def argsCourse : (args : List Expr) → Course (lowerArgs args)
  | [] => .quiet (.pure _)
  | arg :: args => .bind ((exprCourse arg).lowerArg _) fun _ => (argsCourse args).map _

def stmtCourse : (stmt : Stmt) → Course (lowerStmt stmt)
  | .expr _ value => exprCourse value
  | .ret _ none => .map (.quiet (.emit fun _ _ => ⟨_, _, _, rfl⟩)) _
  | .ret _ (some value) =>
    .map (.bind ((exprCourse value).operand _) fun _ => .quiet (.emit fun _ _ => ⟨_, _, _, rfl⟩)) _
  | .var _ _ name none => .map (.quiet (.lowerIdent name)) _
  | .var id ty name (some init) => ((exprCourse init).lowerVar id ty name).map _
  | .fn _ retTy name params body =>
    ((blockCourse body).lowerFn retTy name params _).map fun _ => none
  | .block _ body => blockCourse body

def blockCourse : (block : Block) → Course (lowerBlock block)
  | .mk _ stmts => stmtsCourse stmts none

def stmtsCourse : (stmts : List Stmt) → (last : Option Value) → Course (lowerStmts last stmts)
  | [], _ => .quiet (.pure _)
  | stmt :: stmts, _ => .bind (stmtCourse stmt).recovering fun value => stmtsCourse stmts value

end

/-- The moments of a program: its literals, declarations and calls, in the order in which lowering
comes to them. -/
def moments (root : Block) (options : Options) : List Moment :=
  (blockCourse root).moments (start options)

/-! ### What the events make of the directory -/

/-- The directory after an event. -/
def Event.apply (d : IR.Directory) : Event → IR.Directory
  | .literal => { d with names := d.names.record "str" }
  | .declaration name sig =>
    { functions := d.functions ++ [(d.names.next "." name, sig)], names := d.names.record name }
  | .call .. => d

/-- Each moment is met with the directory that those before it have made of the first one. -/
inductive Chained : IR.Directory → List Moment → IR.Directory → Prop
  | nil (d : IR.Directory) : Chained d [] d
  | cons {ms : List Moment} {d : IR.Directory} (m : Moment)
      (rest : Chained (m.event.apply m.state.code.directory) ms d) :
      Chained m.state.code.directory (m :: ms) d

namespace Chained

variable {d d' d'' : IR.Directory} {ms ms' : List Moment}

theorem of_eq (h : d' = d) : Chained d [] d' := h ▸ .nil d

theorem append (h : Chained d ms d') (h' : Chained d' ms' d'') : Chained d (ms ++ ms') d'' := by
  induction h with
  | nil => exact h'
  | cons m _ ih => exact .cons m (ih h')

/-- What the events before a moment have made of the first directory. -/
theorem directory_eq (h : Chained d ms d') {i : Nat} {m : Moment} (hm : ms[i]? = some m) :
    m.state.code.directory = ((ms.take i).map (·.event)).foldl Event.apply d := by
  induction h generalizing i with
  | nil => simp at hm
  | cons first _ ih =>
    cases i with
    | zero =>
      simp only [List.getElem?_cons_zero, Option.some.injEq] at hm
      rw [← hm]
      rfl
    | succ i => exact ih hm

/-- What comes after a moment goes on from there. -/
theorem drop (h : Chained d ms d') {i : Nat} {m : Moment} (hm : ms[i]? = some m) :
    Chained (m.event.apply m.state.code.directory) (ms.drop (i + 1)) d' := by
  induction h generalizing i with
  | nil => simp at hm
  | cons first rest ih =>
    cases i with
    | zero =>
      simp only [List.getElem?_cons_zero, Option.some.injEq] at hm
      rw [← hm]
      exact rest
    | succ i => exact ih hm

end Chained

/-- A call is looked up and its arguments are counted before anything else. -/
theorem outcome_lowerCall (s : Lowerer) (callee : String) (count : Nat)
    (args : LowerM (List Value)) :
    outcome (lowerCall callee count args) s =
      match s.code.getFunction? callee with
      | none => (.error (.unknownCallee callee), s)
      | some func =>
        if (s.code.function func).sig.accepts count then
          outcome (do emit (·.call · func (s.code.function func).sig.ret (← args))) s
        else
          (.error (.arityMismatch callee (s.code.function func).sig.params.length count), s) := by
  rw [lowerCall, outcome_get_bind]
  cases s.code.getFunction? callee with
  | none => rfl
  | some func =>
    simp only [outcome_get_bind]
    cases (s.code.function func).sig.accepts count <;> rfl

/-- What follows quietly leaves the directory as the first step did. -/
theorem directory_bind {x : LowerM α} {k : α → LowerM β} (hk : ∀ a, Quiet (k a)) (s : Lowerer) :
    (outcome (x >>= k) s).2.code.directory = (outcome x s).2.code.directory := by
  rw [outcome_bind]
  rcases outcome x s with ⟨e | a, t⟩
  · rfl
  · exact (hk a t).directory

/-- A region ends as its body does, unless there is no scope to close. -/
theorem closingScope_cases {s t : Lowerer} {x : LowerM α} {r : Except LowerError α}
    (hx : outcome x s = (r, t)) :
    outcome (closingScope x) s = (r, t.leave) ∨
      outcome (closingScope x) s = (.error .scopeUnderflow, t) := by
  by_cases ht : t.scopes.scopes = []
  · exact .inr (outcome_closingScope_empty hx ht)
  · exact .inl (outcome_closingScope hx ht)

/-- **The directory of a module is made by what lowering meets.** -/
theorem Course.chained {x : LowerM α} (c : Course x) (s : Lowerer) :
    Chained s.code.directory (c.moments s) (outcome x s).2.code.directory := by
  induction c generalizing s with
  | quiet hx => exact .of_eq (hx s).directory
  | literal text => exact .cons ⟨.literal, s⟩ (.nil _)
  | declaration name sig =>
    refine .cons ⟨.declaration name sig, s⟩ (.of_eq ?_)
    simp [IR.Module.directory, IR.Module.addFunction, Event.apply, IR.Function.new]
  | @call callee count args rest ih =>
    refine .cons ⟨.call callee count, s⟩ ?_
    rw [outcome_lowerCall]
    cases s.code.getFunction? callee with
    | none => exact .nil _
    | some func =>
      dsimp only
      split
      · rw [directory_bind]
        · exact ih s
        · exact fun _ => .emit fun _ _ => ⟨_, _, _, rfl⟩
      · exact .nil _
  | @bind _ _ x k first rest ihfirst ihrest =>
    have hfirst := ihfirst s
    rw [moments, outcome_bind]
    rcases h : outcome x s with ⟨e | a, t⟩
    · rw [h] at hfirst
      exact hfirst.append (.nil _)
    · rw [h] at hfirst
      exact hfirst.append (ihrest a t)
  | @closingScope _ x body ih =>
    have hbody := ih s
    rcases h : outcome x s with ⟨r, t⟩
    rw [h] at hbody
    rcases closingScope_cases h with heq | heq <;> rw [heq] <;> exact hbody
  | @recovering x body ih =>
    have hbody := ih s
    rcases h : outcome x s with ⟨e | v, t⟩
    · rw [h] at hbody
      rw [outcome_recovering_error h]
      split <;> exact hbody
    · rw [h] at hbody
      rw [outcome_recovering_ok h]
      exact hbody

/-! ### Callees that are refused -/

/-- The outcome ends in the refusal of a callee, or one has been recorded. -/
def Refuses (n : String) (r : Except LowerError α × Lowerer) : Prop :=
  r.1 = .error (.unknownCallee n) ∨ .unknownCallee n ∈ r.2.errors

/-- A call is met where no function has the name. -/
def Moment.Unknown (m : Moment) (n : String) : Prop :=
  (∃ count, m.event = .call n count) ∧ m.state.code.getFunction? n = none

theorem Quiet.refuses {x : LowerM α} (hx : Quiet x) {s : Lowerer} {n : String}
    (h : Refuses n (outcome x s)) : .unknownCallee n ∈ s.errors := by
  rcases h with hraised | hrecorded
  · exact absurd hraised ((hx s).raised n)
  · rwa [(hx s).errors] at hrecorded

/-- What a sequence refuses was refused by its first part or by what follows. -/
theorem refuses_bind {x : LowerM α} {k : α → LowerM β} {s : Lowerer} {n : String}
    (h : Refuses n (outcome (x >>= k) s)) : Refuses n (outcome x s) ∨
      ∃ a t, outcome x s = (.ok a, t) ∧ Refuses n (outcome (k a) t) := by
  rw [outcome_bind] at h
  rcases hx : outcome x s with ⟨e | a, t⟩
  · rw [hx] at h
    refine .inl (h.imp_left fun hraised => ?_)
    rw [Except.error.inj hraised]
  · rw [hx] at h
    exact .inr ⟨a, t, rfl, h⟩

theorem refuses_of_bind_quiet {x : LowerM α} {k : α → LowerM β} (hk : ∀ a, Quiet (k a))
    {s : Lowerer} {n : String} (h : Refuses n (outcome (x >>= k) s)) : Refuses n (outcome x s) := by
  rcases refuses_bind h with hfirst | ⟨a, t, hx, hrest⟩
  · exact hfirst
  · rw [hx]
    exact .inr ((hk a).refuses hrest)

/-- **A callee is refused only where it is unknown.**  Every refusal that a step adds is that of a
call it meets. -/
theorem Course.refused {x : LowerM α} (c : Course x) {s : Lowerer} {n : String}
    (h : Refuses n (outcome x s)) :
    .unknownCallee n ∈ s.errors ∨ ∃ m ∈ c.moments s, m.Unknown n := by
  induction c generalizing s with
  | quiet hx => exact .inl (hx.refuses h)
  | literal text => exact .inl (h.resolve_left fun hraised => by cases hraised)
  | declaration name sig => exact .inl (h.resolve_left fun hraised => by cases hraised)
  | @call callee count args rest ih =>
    rw [outcome_lowerCall] at h
    rw [moments]
    rcases hfunc : s.code.getFunction? callee with _ | func
    · rw [hfunc] at h
      rcases h with hraised | hrecorded
      · cases hraised
        exact .inr ⟨_, List.mem_cons_self, ⟨count, rfl⟩, hfunc⟩
      · exact .inl hrecorded
    · rw [hfunc] at h
      dsimp only at h ⊢
      split at h
      · rename_i hcount
        rw [if_pos hcount]
        have hargs := refuses_of_bind_quiet (fun _ => .emit fun _ _ => ⟨_, _, _, rfl⟩) h
        rcases ih hargs with hrecorded | ⟨m, hm, hunknown⟩
        · exact .inl hrecorded
        · exact .inr ⟨m, List.mem_cons_of_mem _ hm, hunknown⟩
      · exact .inl (h.resolve_left fun hraised => by cases hraised)
  | @bind _ _ x k first rest ihfirst ihrest =>
    rw [moments]
    have hbefore : ∀ later : List Moment, Refuses n (outcome x s) →
        .unknownCallee n ∈ s.errors ∨ ∃ m ∈ first.moments s ++ later, m.Unknown n := by
      intro later hfirst
      rcases ihfirst hfirst with hrecorded | ⟨m, hm, hunknown⟩
      · exact .inl hrecorded
      · exact .inr ⟨m, List.mem_append_left _ hm, hunknown⟩
    rcases refuses_bind h with hfirst | ⟨a, t, hx, hrest⟩
    · exact hbefore _ hfirst
    · rcases ihrest a hrest with hrecorded | ⟨m, hm, hunknown⟩
      · exact hbefore _ (by rw [hx]; exact .inr hrecorded)
      · refine .inr ⟨m, List.mem_append_right _ ?_, hunknown⟩
        rw [hx]
        exact hm
  | @closingScope _ x body ih =>
    refine ih ?_
    rcases hx : outcome x s with ⟨r, t⟩
    rcases closingScope_cases hx with heq | heq
    · rwa [heq] at h
    · rw [heq] at h
      exact .inr (h.resolve_left fun hraised => by cases hraised)
  | @recovering x body ih =>
    refine ih ?_
    rcases hx : outcome x s with ⟨e | v, t⟩
    · rw [outcome_recovering_error hx] at h
      split at h
      · rcases h with hraised | hrecorded
        · exact .inl (by rw [Except.error.inj hraised])
        · exact .inr hrecorded
      · rcases h with hraised | hrecorded
        · cases hraised
        · rcases List.mem_append.mp hrecorded with hold | hnew
          · exact .inr hold
          · exact .inl (by rw [List.mem_singleton.mp hnew])
    · rwa [outcome_recovering_ok hx] at h

end Lowering

end TreeCompiler
