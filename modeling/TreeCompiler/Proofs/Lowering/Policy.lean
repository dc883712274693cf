/-
The two policies agree up to the first error.

Lowering that stops at the first error and lowering that leaves statements out do the same until a
statement fails.  Then the one ends with that error, which passes every region on its way out
unchanged, and the other records it before any other.  `Agrees` says this of a step, for every
state.

A region closes its scope also when its body fails, and closing is a step that can fail itself.  So
it has to be known that a step leaves as many scopes as it finds, however it ends; that is part of
`Agrees`.
-/
import TreeCompiler.Proofs.Lowering.Start

namespace TreeCompiler.Lowering

open IR (FuncId BlockId InstId Ty Value Op)
open Program (Expr Stmt Block BinOp NodeId Param)

variable {α β : Type} {s t : Lowerer} {c : Cursor}

namespace Lowerer

/-- The same state, with orders to stop at the first error. -/
def strict (s : Lowerer) : Lowerer :=
  { s with options := { s.options with policy := .failFast } }

@[simp] theorem strict_scopes (s : Lowerer) : s.strict.scopes = s.scopes := rfl

theorem strict_enter (s : Lowerer) (c : Cursor) : (s.enter c).strict = s.strict.enter c := by
  simp only [enter, strict_scopes]
  cases s.scopes.scopes <;> rfl

end Lowerer

/-- How a run that goes on after errors and one that stops may end, from a state `s` and its strict
twin: in the same way and without an error between, or the second ends with the first error that the
first run recorded. -/
inductive Parallel (s : Lowerer) :
    Except LowerError α × Lowerer → Except LowerError α × Lowerer → Prop
  | same {r : Except LowerError α} {t : Lowerer} (errors : t.errors = s.errors) :
      Parallel s (r, t) (r, t.strict)
  | stopped {r : Except LowerError α} {t u : Lowerer} {e : LowerError} {rest : List LowerError}
      (errors : t.errors = s.errors ++ e :: rest) : Parallel s (r, t) (.error e, u)

/-- A step that both policies take alike up to the first error, and that leaves the options and the
number of open scopes as they are. -/
structure Agrees (x : LowerM α) : Prop where
  depth : ∀ s, (outcome x s).2.scopes.depth = s.scopes.depth
  options : ∀ s, (outcome x s).2.options = s.options
  parallel : ∀ s, s.options.policy = .bestEffort → Parallel s (outcome x s) (outcome x s.strict)

namespace Agrees

variable {x : LowerM α} {k : α → LowerM β}

/-- A step that does not look at the policy. -/
theorem blind (hdepth : ∀ s, (outcome x s).2.scopes.depth = s.scopes.depth)
    (hoptions : ∀ s, (outcome x s).2.options = s.options)
    (herrors : ∀ s, (outcome x s).2.errors = s.errors)
    (hstrict : ∀ s : Lowerer, outcome x s.strict = ((outcome x s).1, (outcome x s).2.strict)) :
    Agrees x where
  depth := hdepth
  options := hoptions
  parallel s _ := by
    rw [hstrict s]
    exact .same (herrors s)

theorem pure (a : α) : Agrees (pure a : LowerM α) :=
  blind (fun _ => rfl) (fun _ => rfl) (fun _ => rfl) (fun _ => rfl)

theorem throw (e : LowerError) : Agrees (throw e : LowerM α) :=
  blind (fun _ => rfl) (fun _ => rfl) (fun _ => rfl) (fun _ => rfl)

theorem bind (hx : Agrees x) (hk : ∀ a, Agrees (k a)) : Agrees (x >>= k) where
  depth s := by
    rw [outcome_bind]
    rcases h : outcome x s with ⟨e | a, t⟩
    · simpa [h] using hx.depth s
    · simpa [h] using ((hk a).depth t).trans (by simpa [h] using hx.depth s)
  options s := by
    rw [outcome_bind]
    rcases h : outcome x s with ⟨e | a, t⟩
    · simpa [h] using hx.options s
    · simpa [h] using ((hk a).options t).trans (by simpa [h] using hx.options s)
  parallel s hs := by
    have hpar := hx.parallel s hs
    have hopt := hx.options s
    rw [outcome_bind, outcome_bind]
    generalize outcome x s = p at hpar hopt
    generalize outcome x s.strict = q at hpar
    cases hpar with
    | @same r t herrors =>
      cases r with
      | error e => exact .same herrors
      | ok a =>
        have hnext := (hk a).parallel t (by rw [hopt, hs])
        simp only
        generalize outcome (k a) t = p at hnext
        generalize outcome (k a) t.strict = q at hnext
        cases hnext with
        | same herrors' => exact .same (herrors'.trans herrors)
        | stopped herrors' => exact .stopped (herrors'.trans (by rw [herrors]))
    | @stopped r t u e rest herrors =>
      cases r with
      | error e' => exact .stopped herrors
      | ok a =>
        -- The strict run is over; the other one can only add to its record.
        have hnext := (hk a).parallel t (by rw [hopt, hs])
        simp only
        generalize outcome (k a) t = p at hnext
        generalize outcome (k a) t.strict = q at hnext
        cases hnext with
        | same herrors' => exact .stopped (herrors'.trans herrors)
        | stopped herrors' =>
          exact .stopped (herrors'.trans (by rw [herrors, List.append_assoc, List.cons_append]))

theorem get_bind {k : Lowerer → LowerM α} (hk : ∀ s, Agrees (k s))
    (hstrict : ∀ s : Lowerer, k s.strict = k s) : Agrees (get >>= k) where
  depth s := (hk s).depth s
  options s := (hk s).options s
  parallel s hs := by
    rw [outcome_get_bind, outcome_get_bind, hstrict]
    exact (hk s).parallel s hs

end Agrees

/-! ### The elementary steps -/

section Steps

theorem agrees_liftScopes (query : ScopeStack → Except LowerError α) : Agrees (liftScopes query) :=
  .blind (fun s => by rw [outcome_liftScopes]) (fun s => by rw [outcome_liftScopes])
    (fun s => by rw [outcome_liftScopes])
    (fun s => by rw [outcome_liftScopes, outcome_liftScopes]; rfl)

theorem agrees_cursor : Agrees cursor := agrees_liftScopes _

theorem agrees_declare (name : String) (value : Value) (decl : Option DeclId) :
    Agrees (declare name value decl) := by
  refine .blind ?_ ?_ ?_ ?_ <;> intro s
  all_goals
    simp only [declare, outcome_changeScopes, ScopeStack.declare, Lowerer.strict_scopes]
    rcases hs : s.scopes.scopes with _ | ⟨scope, rest⟩ <;>
      simp [Lowerer.strict, ScopeStack.depth, hs]

theorem agrees_addDecl (decl : Decl) : Agrees (addDecl decl) :=
  .blind (fun _ => rfl) (fun _ => rfl) (fun _ => rfl) (fun _ => rfl)

theorem agrees_updateFunction (func : FuncId) (change : IR.Function → α × IR.Function) :
    Agrees (updateFunction func change) :=
  .blind (fun _ => rfl) (fun _ => rfl) (fun _ => rfl) (fun _ => rfl)

theorem agrees_addFunction (name : String) (sig : IR.Signature) (linkage : IR.Linkage) :
    Agrees (addFunction name sig linkage) :=
  .blind (fun _ => rfl) (fun _ => rfl) (fun _ => rfl) (fun _ => rfl)

theorem agrees_addGlobalString (name text : String) : Agrees (addGlobalString name text) :=
  .blind (fun _ => rfl) (fun _ => rfl) (fun _ => rfl) (fun _ => rfl)

theorem agrees_emit (step : IR.Function → BlockId → Value × IR.Function) : Agrees (emit step) :=
  agrees_cursor.bind fun _ => agrees_updateFunction _ _

theorem agrees_addIncoming (func : FuncId) (phi value : Value) (source : BlockId) :
    Agrees (addIncoming func phi value source) := by
  refine .get_bind (fun s => ?_) (fun _ => rfl)
  split
  · exact .blind (fun _ => rfl) (fun _ => rfl) (fun _ => rfl) (fun _ => rfl)
  · exact .throw _

theorem agrees_slotType (c : Cursor) (value : Value) : Agrees (slotType c value) :=
  .get_bind (fun _ => .pure _) (fun _ => rfl)

theorem agrees_materialize (value : Value) : Agrees (materialize value) := by
  refine agrees_cursor.bind fun c => (agrees_slotType c value).bind fun ty => ?_
  split
  · exact agrees_updateFunction _ _
  · exact .pure _

end Steps

/-! ### Regions and statements -/

section Regions

variable {body : LowerM α}

/-- Closing the region around two runs that agree. -/
theorem Parallel.leave {p q : Except LowerError α × Lowerer} {o : Lowerer}
    (h : Parallel o p q) (ho : o.errors = s.errors) :
    Parallel s (p.1, p.2.leave) (q.1, q.2.leave) := by
  cases h with
  | @same r t herrors => exact .same (t := t.leave) (herrors.trans ho)
  | @stopped r t u e rest herrors => exact .stopped (t := t.leave) (herrors.trans (by rw [ho]))

/-- A region that is closed after its body has as many scopes as there were before it was opened. -/
theorem outcome_closingScope_agrees (hbody : Agrees body) {o : Lowerer}
    (ho : o.scopes.depth = s.scopes.depth + 1) :
    outcome (closingScope body) o = ((outcome body o).1, (outcome body o).2.leave) ∧
      (outcome body o).2.leave.scopes.depth = s.scopes.depth := by
  have hdepth : (outcome body o).2.scopes.depth = s.scopes.depth + 1 := (hbody.depth o).trans ho
  refine ⟨outcome_closingScope rfl (List.ne_nil_of_length_eq_add_one hdepth), ?_⟩
  simp only [ScopeStack.depth, Lowerer.leave, List.length_tail] at hdepth ⊢
  omega

theorem agrees_lowerRegion (hbody : Agrees body) (c : Cursor) : Agrees (lowerRegion c body) := by
  have hempty : ∀ s : Lowerer, s.scopes.scopes = [] →
      outcome (lowerRegion c body) s = (.error .noActiveScope, s) := by
    intro s hs
    refine outcome_bind_error s _ ?_
    rw [outcome_pushScopeCopy, if_pos hs]
  have hopen : ∀ s : Lowerer, s.scopes.scopes ≠ [] →
      outcome (lowerRegion c body) s
        = ((outcome body (s.enter c)).1, (outcome body (s.enter c)).2.leave) ∧
      (outcome body (s.enter c)).2.leave.scopes.depth = s.scopes.depth ∧
      (s.enter c).options = s.options ∧ (s.enter c).errors = s.errors := by
    intro s hs
    obtain ⟨scope, rest, hcons⟩ := List.exists_cons_of_ne_nil hs
    obtain ⟨_, -, henter⟩ := enter_eq (Lowerer.at_of_scopes hcons) c
    have hpush : outcome (pushScopeCopy c) s = (.ok (), s.enter c) := by
      rw [outcome_pushScopeCopy, if_neg hs]
    have hdepth : (s.enter c).scopes.depth = s.scopes.depth + 1 := by
      rw [henter]
      rfl
    obtain ⟨heq, hleave⟩ := outcome_closingScope_agrees hbody hdepth
    exact ⟨(outcome_bind_ok s _ hpush).trans heq, hleave, by rw [henter], by rw [henter]⟩
  refine ⟨fun s => ?_, fun s => ?_, fun s hpolicy => ?_⟩ <;> by_cases hs : s.scopes.scopes = []
  · rw [hempty s hs]
  · rw [(hopen s hs).1]
    exact (hopen s hs).2.1
  · rw [hempty s hs]
  · rw [(hopen s hs).1]
    exact (hbody.options _).trans (hopen s hs).2.2.1
  · rw [hempty s hs, hempty s.strict hs]
    exact .same rfl
  · obtain ⟨heq, -, hoptions, herrors⟩ := hopen s hs
    rw [heq, (hopen s.strict hs).1, ← Lowerer.strict_enter]
    exact (hbody.parallel _ (by rw [hoptions, hpolicy])).leave herrors

/-- The body of a function is lowered in a region with nothing around it. -/
theorem agrees_pushScope_closingScope (hbody : Agrees body) (c : Cursor) :
    Agrees (do pushScope c; closingScope body) := by
  have hopen : ∀ s : Lowerer, outcome (do pushScope c; closingScope body) s
      = ((outcome body (s.enterEmpty c)).1, (outcome body (s.enterEmpty c)).2.leave) ∧
      (outcome body (s.enterEmpty c)).2.leave.scopes.depth = s.scopes.depth := by
    intro s
    obtain ⟨heq, hleave⟩ := outcome_closingScope_agrees (s := s) (o := s.enterEmpty c) hbody rfl
    exact ⟨(outcome_bind_ok s _ (outcome_pushScope c)).trans heq, hleave⟩
  refine ⟨fun s => ?_, fun s => ?_, fun s hpolicy => ?_⟩
  · rw [(hopen s).1]
    exact (hopen s).2
  · rw [(hopen s).1]
    exact hbody.options (s.enterEmpty c)
  · rw [(hopen s).1, (hopen s.strict).1]
    exact (hbody.parallel (s.enterEmpty c) hpolicy).leave rfl

/-- **Leaving a statement out records its error where stopping ends with it.** -/
theorem agrees_recovering {x : LowerM (Option Value)} (hx : Agrees x) : Agrees (recovering x) := by
  have hafter : ∀ s : Lowerer, (outcome (recovering x) s).2.scopes = (outcome x s).2.scopes ∧
      (outcome (recovering x) s).2.options = (outcome x s).2.options ∧
      ∃ more, (outcome (recovering x) s).2.errors = (outcome x s).2.errors ++ more := by
    intro s
    rcases hr : outcome x s with ⟨e | v, t⟩
    · rw [outcome_recovering_error hr]
      split
      · exact ⟨rfl, rfl, [], by simp⟩
      · exact ⟨rfl, rfl, [e], rfl⟩
    · rw [outcome_recovering_ok hr]
      exact ⟨rfl, rfl, [], by simp⟩
  refine ⟨fun s => ?_, fun s => ?_, fun s hpolicy => ?_⟩
  · rw [(hafter s).1]
    exact hx.depth s
  · rw [(hafter s).2.1]
    exact hx.options s
  · have hpar := hx.parallel s hpolicy
    rcases hr : outcome x s with ⟨r, t⟩
    rcases hq : outcome x s.strict with ⟨r', u⟩
    have hlenient : t.options.policy = .bestEffort := by
      have hoptions := hx.options s
      rw [hr] at hoptions
      rw [hoptions, hpolicy]
    have hstrict : u.options.policy = .failFast := by
      have hoptions := hx.options s.strict
      rw [hq] at hoptions
      rw [hoptions]
      rfl
    rw [hr, hq] at hpar
    cases hpar with
    | same herrors =>
      cases r with
      | ok v =>
        rw [outcome_recovering_ok hr, outcome_recovering_ok hq]
        exact .same herrors
      | error e =>
        rw [outcome_recovering_error hr, outcome_recovering_error hq]
        simp only [hlenient, hstrict, reduceCtorEq, decide_false, decide_true, Bool.or_false,
          Bool.or_true, if_true]
        split
        · exact .same herrors
        · exact .stopped (show t.errors ++ [e] = s.errors ++ e :: [] by rw [herrors])
    | @stopped _ _ _ e rest herrors =>
      obtain ⟨more, hmore⟩ := (hafter s).2.2
      rw [hr] at hmore
      rw [outcome_recovering_error hq]
      simp only [hstrict, decide_true, Bool.or_true, if_true]
      generalize outcome (recovering x) s = p at hmore
      have herrors' : p.2.errors = s.errors ++ e :: (rest ++ more) := by
        rw [hmore, herrors, List.append_assoc, List.cons_append]
      exact .stopped (r := p.1) (t := p.2) herrors'

end Regions

/-! ### Constructs -/

section Constructs

variable {x y z : LowerM (Option Value)}

theorem agrees_required (hx : Agrees x) (context : String) : Agrees (required context x) := by
  refine hx.bind fun value => ?_
  split
  · exact .pure _
  · exact .throw _

theorem agrees_operand (hx : Agrees x) (context : String) : Agrees (operand context x) :=
  (agrees_required hx context).bind agrees_materialize

theorem agrees_lowerIdent (name : String) : Agrees (lowerIdent name) := by
  refine .get_bind (fun s => ?_) (fun _ => rfl)
  split
  · exact .pure _
  · exact .throw _

theorem agrees_lowerBinary (hx : Agrees x) (hy : Agrees y) (op : BinOp) :
    Agrees (lowerBinary op x y) := by
  refine (agrees_operand hx _).bind fun lhs => (agrees_operand hy _).bind fun rhs => ?_
  split
  · exact agrees_emit _
  · exact agrees_emit _
  · exact .throw _

theorem agrees_lowerAssign (hx : Agrees x) (target : String) : Agrees (lowerAssign target x) := by
  refine .get_bind (fun s => ?_) (fun _ => rfl)
  split
  · refine agrees_cursor.bind fun c => (agrees_slotType c _).bind fun ty => ?_
    split
    · exact .get_bind (fun _ => .throw _) (fun _ => rfl)
    · exact (agrees_operand hx _).bind fun _ => agrees_emit _
  · exact .throw _

theorem agrees_lowerArg (hx : Agrees x) (key : Option String) : Agrees (lowerArg key x) := by
  refine (agrees_required hx _).bind fun value => ?_
  split
  · refine .get_bind (fun s => ?_) (fun _ => rfl)
    split
    · exact agrees_materialize _
    · exact .pure _
  · exact .pure _

theorem agrees_lowerCall {args : LowerM (List Value)} (hargs : Agrees args) (callee : String)
    (count : Nat) : Agrees (lowerCall callee count args) := by
  refine .get_bind (fun s => ?_) (fun _ => rfl)
  split
  · refine .get_bind (fun s => ?_) (fun _ => rfl)
    dsimp only
    split
    · exact hargs.bind fun _ => agrees_emit _
    · exact (Agrees.throw _).bind fun _ => hargs.bind fun _ => agrees_emit _
  · exact .throw _

theorem agrees_lowerIf (hx : Agrees x) (hy : Agrees y) (hz : Agrees z) :
    Agrees (lowerIf x y z) :=
  (agrees_operand hx _).bind fun _ => agrees_cursor.bind fun _ =>
    (agrees_updateFunction _ _).bind fun _ => (agrees_updateFunction _ _).bind fun _ =>
    (agrees_updateFunction _ _).bind fun _ => (agrees_lowerRegion hy _).bind fun _ =>
    (agrees_lowerRegion hz _).bind fun _ => .pure _

theorem agrees_lowerLoopBody (hx : Agrees x) (hy : Agrees y) (before inside : Cursor)
    (start : Value) : Agrees (lowerLoopBody before inside start x y) := by
  refine .get_bind (fun s => ?_) (fun _ => rfl)
  refine (agrees_updateFunction _ _).bind fun counter => (agrees_addIncoming _ _ _ _).bind fun _ =>
    (agrees_declare _ _ _).bind fun _ => hx.bind fun _ => (agrees_emit _).bind fun next =>
    (agrees_operand hy _).bind fun bound => agrees_cursor.bind fun closing => ?_
  exact (agrees_updateFunction _ _).bind fun test => (agrees_updateFunction _ _).bind fun _ =>
    (agrees_updateFunction _ _).bind fun _ => (agrees_updateFunction _ _).bind fun after =>
    (agrees_updateFunction _ _).bind fun _ => (agrees_addIncoming _ _ _ _).bind fun _ => .pure _

theorem agrees_lowerLoop (hx : Agrees x) (hy : Agrees y) (hz : Agrees z) :
    Agrees (lowerLoop x y z) :=
  (agrees_operand hx _).bind fun _ => agrees_cursor.bind fun _ =>
    (agrees_updateFunction _ _).bind fun _ => (agrees_updateFunction _ _).bind fun _ =>
    (agrees_lowerRegion (agrees_lowerLoopBody hy hz _ _ _) _).bind fun _ =>
    (agrees_updateFunction _ _).bind fun _ => .pure _

theorem agrees_lowerVar (hx : Agrees x) (node : NodeId) (ty name : String) :
    Agrees (lowerVar node ty name x) :=
  (agrees_emit _).bind fun _ => (agrees_addDecl _).bind fun _ =>
    (agrees_declare _ _ _).bind fun _ =>
    (agrees_lowerAssign hx _).bind fun _ => .pure _

theorem agrees_declareParams (i : Nat) (params : List Param) : Agrees (declareParams i params) := by
  induction params generalizing i with
  | nil => exact .pure _
  | cons p ps ih =>
    exact (agrees_addDecl _).bind fun _ => (agrees_declare _ _ _).bind fun _ => ih _

theorem agrees_lowerFn (hx : Agrees x) (retTy : Option String) (name : String)
    (params : List Param) (returns : Bool) : Agrees (lowerFn retTy name params returns x) := by
  refine (agrees_addFunction _ _ _).bind fun func => (agrees_updateFunction _ _).bind fun _ =>
    (agrees_updateFunction _ _).bind fun entry => agrees_pushScope_closingScope ?_ _
  refine (agrees_declareParams _ _).bind fun _ => hx.bind fun _ => ?_
  split
  · exact (agrees_emit _).bind fun _ => .pure _
  · exact .pure _

end Constructs

mutual

/-- **The policies agree on every expression**, and likewise on arguments, statements and blocks. -/
theorem lowerExpr_agrees : ∀ e : Expr, Agrees (lowerExpr e)
  | .int _ _ => .pure _
  | .double _ _ => .pure _
  | .string _ _ => (agrees_addGlobalString _ _).bind fun _ => .pure _
  | .ident _ name => (agrees_lowerIdent name).bind fun _ => .pure _
  | .call _ callee args => (agrees_lowerCall (lowerArgs_agrees args) callee _).bind fun _ => .pure _
  | .binary _ op left right =>
    (agrees_lowerBinary (lowerExpr_agrees left) (lowerExpr_agrees right) op).bind fun _ => .pure _
  | .assign _ target value =>
    (agrees_lowerAssign (lowerExpr_agrees value) target).bind fun _ => .pure _
  | .ifElse _ cond thenBlock elseBlock =>
    (agrees_lowerIf (lowerExpr_agrees cond) (lowerBlock_agrees thenBlock)
      (lowerBlock_agrees elseBlock)).bind fun _ => .pure _
  | .loop _ start limit body =>
    (agrees_lowerLoop (lowerExpr_agrees start) (lowerBlock_agrees body)
      (lowerExpr_agrees limit)).bind fun _ => .pure _
  | .block _ body => lowerBlock_agrees body

theorem lowerArgs_agrees : ∀ args : List Expr, Agrees (lowerArgs args)
  | [] => .pure _
  | arg :: args => (agrees_lowerArg (lowerExpr_agrees arg) _).bind fun _ =>
    (lowerArgs_agrees args).bind fun _ => .pure _

theorem lowerStmt_agrees : ∀ stmt : Stmt, Agrees (lowerStmt stmt)
  | .expr _ value => lowerExpr_agrees value
  | .ret _ none => (agrees_emit _).bind fun _ => .pure _
  | .ret _ (some value) =>
    ((agrees_operand (lowerExpr_agrees value) _).bind fun _ => agrees_emit _).bind fun _ => .pure _
  | .var _ _ name none => (agrees_lowerIdent name).bind fun _ => .pure _
  | .var id ty name (some init) =>
    (agrees_lowerVar (lowerExpr_agrees init) id ty name).bind fun _ => .pure _
  | .fn _ retTy name params body =>
    (agrees_lowerFn (lowerBlock_agrees body) retTy name params _).bind fun _ => .pure _
  | .block _ body => lowerBlock_agrees body

theorem lowerBlock_agrees : ∀ block : Block, Agrees (lowerBlock block)
  | .mk _ stmts => lowerStmts_agrees stmts none

theorem lowerStmts_agrees :
    ∀ (stmts : List Stmt) (last : Option Value), Agrees (lowerStmts last stmts)
  | [], _ => .pure _
  | stmt :: stmts, _ =>
    (agrees_recovering (lowerStmt_agrees stmt)).bind fun value => lowerStmts_agrees stmts value

end

/-! ### Programs -/

/-- Faults of the compiler are never recorded. -/
theorem Runs.errors_isInternal (h : Runs s t) (hs : ∀ e ∈ s.errors, e.isInternal = false) :
    ∀ e ∈ t.errors, e.isInternal = false := by
  induction h with
  | refl | string | plain => exact hs
  | trans _ _ ih ih' => exact ih' (ih hs)
  | @error s e he =>
    intro e' hmem
    rcases List.mem_append.mp hmem with hold | hnew
    · exact hs e' hold
    · rw [List.mem_singleton.mp hnew]
      exact he
  | slot hc node ty name => rwa [Lowerer.declareVariable, bindName_errors]
  | branch _ _ _ _ ihthen ihelse => exact ihelse (by simpa using ihthen (by simpa using hs))
  | branchBroken _ _ _ ih => exact ih (by simpa using hs)
  | loop _ _ _ _ _ ihbody ihlimit => exact ihlimit (ihbody (by simpa using hs))
  | loopBroken _ _ _ ih => exact ih (by simpa using hs)
  | function name params ret _ ih => exact ih (by simpa using hs)

/-- Under the best-effort policy a statement cannot stop lowering. -/
theorem recovering_ok {x : LowerM (Option Value)} (hx : Yields x) (hv : s.Valid) (hc : s.At c)
    (hpolicy : s.options.policy = .bestEffort) :
    ∃ value t, outcome (recovering x) s = (.ok value, t) ∧ Advances s t := by
  obtain ⟨value, t, hok, hrun, -⟩ | ⟨e, t, herr, hrun, hfault⟩ := (hx s hv).cases
  · exact ⟨value, t, outcome_recovering_ok hok, hrun.advances hv⟩
  · have ha := hrun.advances hv
    have he : e.isInternal = false := by
      cases hi : e.isInternal
      · rfl
      · exact absurd (hfault hi) hc.ne_nil
    have hgo : ¬ (e.isInternal || decide (t.options.policy = .failFast)) = true := by
      simp [he, ha.options, hpolicy]
    have hrec := outcome_recovering_error herr
    rw [if_neg hgo] at hrec
    exact ⟨none, _, hrec, (hrun.trans (.error t he)).advances hv⟩

theorem lowerStmts_ok (stmts : List Stmt) (last : Option Value) (hv : s.Valid) (hc : s.At c)
    (hpolicy : s.options.policy = .bestEffort) :
    ∃ value t, outcome (lowerStmts last stmts) s = (.ok value, t) := by
  induction stmts generalizing last s with
  | nil => exact ⟨last, s, rfl⟩
  | cons stmt stmts ih =>
    obtain ⟨value, t, hok, ha⟩ := recovering_ok (lowerStmt_yields stmt) hv hc hpolicy
    rw [lowerStmts, outcome_bind_ok s _ hok]
    exact ih value (ha.valid hv) (ha.at_iff.mpr hc) (by rw [ha.options, hpolicy])

/-- **The two policies.**  Leaving statements out, lowering always ends with a module; stopping at
the first error, it ends with the same module if there is no error, and otherwise with the error
that is recorded first.  No recorded error is a fault of the compiler. -/
theorem lowerProgram_policies (root : Block) (options : Options) :
    ∃ l, lowerProgram root { options with policy := .bestEffort } = .ok l ∧
      (∀ e ∈ l.errors, e.isInternal = false) ∧
      lowerProgram root { options with policy := .failFast } =
        match l.errors with
        | [] => .ok l
        | e :: _ => .error e := by
  obtain ⟨id, stmts⟩ := root
  let lenient : Options := { options with policy := .bestEffort }
  obtain ⟨value, t, hok⟩ : ∃ value t, outcome (lowerBlock (.mk id stmts)) (start lenient)
      = (.ok value, t) :=
    lowerStmts_ok stmts none (start_valid lenient) (start_at lenient) rfl
  have hrun := (lowerBlock_yields (.mk id stmts) (start lenient) (start_valid lenient)).runs
  have hpar := (lowerBlock_agrees (.mk id stmts)).parallel (start lenient) rfl
  rw [hok] at hrun hpar
  refine ⟨{ code := closeModule entryCursor t.code, errors := t.errors }, ?_, ?_, ?_⟩
  · rw [lowerProgram_eq, hok]
  · exact hrun.errors_isInternal (by simp [start])
  · have hstart : start { options with policy := .failFast } = (start lenient).strict := rfl
    rw [lowerProgram_eq, hstart]
    generalize outcome (lowerBlock (.mk id stmts)) (start lenient).strict = q at hpar
    cases hpar with
    | same herrors =>
      have hnil : t.errors = [] := herrors
      show Except.ok (Lowered.mk (closeModule entryCursor t.code) t.errors) = _
      simp only [hnil]
    | stopped herrors =>
      rename_i e rest
      have hcons : t.errors = e :: rest := herrors
      simp only [hcons]

end TreeCompiler.Lowering
