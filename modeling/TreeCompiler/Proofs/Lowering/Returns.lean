/-
Where a function returns.

Three things in a program become a return instruction: a return statement, a loop, whose last block
returns, and the end of a function that returns nothing and has no return among its statements.
Nothing else does, and none of them is lost, not even one that control cannot reach.  So the return
instructions of a function can be counted in the tree.

`Counts x n` says that a step that succeeds adds `n` return instructions to the function that it
works on.  What a step does in a region is done in the same function, so the counts of the parts of
a construct add up; only what is lowered inside a nested function is added elsewhere.
-/
import Mathlib.Data.List.Perm.Basic
import TreeCompiler.Proofs.Lowering.Declarations
import TreeCompiler.Proofs.Lowering.Sound

namespace TreeCompiler.Program

mutual

/-- How many return statements and loops an expression has outside of nested functions. -/
def Expr.exits : Expr → Nat
  | .int .. | .double .. | .string .. | .ident .. => 0
  | .call _ _ args => argsExits args
  | .binary _ _ left right => left.exits + right.exits
  | .assign _ _ value => value.exits
  | .ifElse _ cond thenBlock elseBlock => cond.exits + (thenBlock.exits + elseBlock.exits)
  | .loop _ start limit body => start.exits + (body.exits + limit.exits) + 1
  | .block _ body => body.exits

def argsExits : List Expr → Nat
  | [] => 0
  | arg :: args => arg.exits + argsExits args

def Stmt.exits : Stmt → Nat
  | .expr _ value => value.exits
  | .ret _ none => 1
  | .ret _ (some value) => value.exits + 1
  | .var _ _ _ none => 0
  | .var _ _ _ (some init) => init.exits
  | .fn .. => 0
  | .block _ body => body.exits

def Block.exits : Block → Nat
  | .mk _ stmts => stmtsExits stmts

def stmtsExits : List Stmt → Nat
  | [] => 0
  | stmt :: stmts => stmt.exits + stmtsExits stmts

end

end TreeCompiler.Program

namespace TreeCompiler.IR

def Op.isReturn : Op → Bool
  | .ret _ => true
  | _ => false

namespace Function

variable {f : Function}

/-- The number of return instructions in the blocks of a function. -/
def returnCount (f : Function) : Nat :=
  (((List.range f.blocks.length).flatMap f.blockInsts).map (·.2.op)).countP Op.isReturn

/-- The number of return instructions that were ever added to a function. -/
def returns (f : Function) : Nat := (f.insts.map (·.op)).countP Op.isReturn

/-- The blocks of a function together have its instructions, each once. -/
theorem Placement.perm_insts (hf : f.Placement) :
    (((List.range f.blocks.length).flatMap f.blockInsts).map (·.2)).Perm f.insts := by
  have hblock (b : BlockId) : (f.blockInsts b).map (·.2) = (f.ids b).filterMap (f.insts[·]?) := by
    rw [blockInsts_eq, List.map_filterMap]
    refine List.filterMap_congr fun k _ => ?_
    cases f.insts[k]? <;> rfl
  have hall : (List.range f.insts.length).filterMap (f.insts[·]?) = f.insts := by
    induction f.insts with
    | nil => rfl
    | cons i insts ih =>
      rw [List.length_cons, List.range_succ_eq_map, List.filterMap_cons]
      simpa [List.filterMap_map] using ih
  have hperm := hf.perm_ids.filterMap (f.insts[·]?)
  rw [hall, List.filterMap_flatMap] at hperm
  rwa [List.map_flatMap, List.flatMap_congr fun b _ => hblock b]

theorem Placement.returnCount_eq (hf : f.Placement) : f.returnCount = f.returns := by
  have hperm := (hf.perm_insts.map (·.op)).countP_eq Op.isReturn
  rwa [List.map_map] at hperm

theorem isTerminated_eq_any (b : BlockId) :
    f.isTerminated b = (f.blockInsts b).getLast?.any (·.2.op.isTerminator) := by
  unfold isTerminated terminator
  rcases (f.blockInsts b).getLast? with _ | ⟨k, i⟩
  · rfl
  · cases hop : i.op.isTerminator <;> simp [hop]

@[simp] theorem returns_push (b : BlockId) (op : Op) (ty : Ty) (name : Option String) :
    (f.push b op ty name).2.returns = f.returns + op.isReturn.toNat := by
  cases h : op.isReturn <;> simp [returns, List.countP_append, h]

@[simp] theorem returns_createBlock (base : String) :
    (f.createBlock base).2.returns = f.returns := rfl

@[simp] theorem returns_setValueName (v : Value) (name : String) :
    (f.setValueName v name).returns = f.returns := by
  cases v with
  | inst k =>
    have hops : (f.insts.modify k ({ · with name := some name })).map (·.op)
        = f.insts.map (·.op) := by
      refine List.ext_getElem? fun j => ?_
      rw [List.getElem?_map, List.getElem?_map, List.getElem?_modify]
      by_cases hj : k = j
      · subst hj
        rcases f.insts[k]? with _ | i <;> simp
      · simp [hj]
    exact congrArg (List.countP Op.isReturn) hops
  | _ => rfl

/-- A phi is no return, and neither is what is put in its place. -/
theorem returns_set {k : InstId} {i phi : Inst} (hi : f.insts[k]? = some i)
    (hold : i.op.isReturn = false) (hnew : phi.op.isReturn = false) :
    ({ f with insts := f.insts.set k phi } : Function).returns = f.returns := by
  obtain ⟨hk, rfl⟩ := List.getElem?_eq_some_iff.mp hi
  rw [returns, List.map_set, List.countP_set (by simpa using hk)]
  simp [hold, hnew, returns]

end Function

end TreeCompiler.IR

namespace TreeCompiler.Lowering

open IR (FuncId BlockId InstId Ty Value Op)
open Program (Expr Stmt Block BinOp NodeId Param Declaration argsExits stmtsExits)

variable {α β : Type} {s t u : Lowerer} {c d : Cursor}

/-! ### States -/

namespace Lowerer

theorem returns_emit (hf : c.func < s.code.functions.length) (hd : d.func = c.func) (op : Op)
    (ty : Ty) (name : Option String) :
    ((s.emit d op ty name).body c).returns = (s.body c).returns + op.isReturn.toNat := by
  rw [emit, hd, body_update _ hf, IR.Function.returns_push]

theorem body_leave (c : Cursor) : s.leave.body c = s.body c := rfl

theorem returns_fork (hf : c.func < s.code.functions.length) (cond : Value) :
    ((s.fork c cond).body c).returns = (s.body c).returns := by
  rw [body_fork hf]
  simp [Op.isReturn]

theorem returns_openLoop (hf : c.func < s.code.functions.length) (start : Value) :
    ((s.openLoop c start).body c).returns = (s.body c).returns := by
  have hjump : c.func < ((s.jump c).enter (s.nextCursor c)).code.functions.length := by
    rw [enter_code]
    simpa [jump] using hf
  have hcode : (s.openLoop c start).body c
      = (((s.jump c).enter (s.nextCursor c)).emit (s.nextCursor c)
      (.phi [(start, c.block)]) .f64 (some s.options.inductionName)).body c := by
    rw [openLoop, body, bindName_code]
    rfl
  rw [hcode, returns_emit (d := s.nextCursor c) hjump rfl, body_enter, body_jump hf]
  simp [Op.isReturn]

theorem closeLoop_functions_length (d : Cursor) (k next : InstId) (name : String)
    (incoming : List (Value × BlockId)) (bound : Value) :
    (s.closeLoop d k next name incoming bound).code.functions.length = s.code.functions.length := by
  simp [closeLoop, testLoop]

/-- The end of a loop adds a test and a branch, and the counter gets its second input. -/
theorem returns_closeLoop (hf : d.func < s.code.functions.length) {k next : InstId} {name : String}
    {incoming : List (Value × BlockId)} {bound : Value} {i : IR.Inst}
    (hk : (s.body d).insts[k]? = some i) (hphi : i.op.isReturn = false) (hnext : k ≠ next) :
    ((s.closeLoop d k next name incoming bound).body d).returns = (s.body d).returns := by
  have htest : d.func < (s.testLoop d next bound).code.functions.length := by
    simpa [testLoop] using hf
  have hk' : (((s.testLoop d next bound).body d).push d.block
      (.condBr (.inst (s.body d).insts.length) d.block
      (s.body d).blocks.length) .void none).2.insts[k]? = some i :=
    (IR.Function.GrowsAt.push _ _ _ _ _).some_of_some (getElem?_testLoop hf hk hnext bound)
  rw [closeLoop, body_update _ (by simpa using htest), body_update _ htest,
    IR.Function.returns_set hk' hphi rfl, body_testLoop hf]
  simp [Op.isReturn]

/-- The block after a loop returns. -/
theorem returns_leaveLoop (hf : d.func < s.code.functions.length) {k next : InstId} {name : String}
    {incoming : List (Value × BlockId)} {bound : Value} {i : IR.Inst}
    (hk : (s.body d).insts[k]? = some i) (hphi : i.op.isReturn = false) (hnext : k ≠ next)
    (hc : c.func = d.func) :
    (((s.closeLoop d k next name incoming bound).leave.emit c
      (.ret none) .void none).body d).returns
      = (s.body d).returns + 1 := by
  have hlen : d.func < (s.closeLoop d k next name incoming bound).leave.code.functions.length := by
    show d.func < (s.closeLoop d k next name incoming bound).code.functions.length
    rw [closeLoop_functions_length]
    exact hf
  rw [returns_emit hlen hc, body_leave, returns_closeLoop hf hk hphi hnext]
  rfl

theorem returns_declareVariable (hf : c.func < s.code.functions.length) (node : NodeId) (ty : Ty)
    (name : String) :
    ((s.declareVariable c node ty name).body c).returns = (s.body c).returns := by
  rw [declareVariable, body, bindName_code]
  exact returns_emit hf rfl _ _ _

/-- A new function has no returns yet. -/
theorem returns_openFunction (name : String) (params : List Param) (ret : Ty) :
    ((s.openFunction name params ret).body s.nextFunction).returns = 0 := by
  obtain ⟨names, hbody⟩ := body_addFunction s name params ret
  have hcode : (s.openFunction name params ret).body s.nextFunction
      = (s.addFunction name params ret).body s.nextFunction := by
    rw [openFunction, body, bindParams_code]
    rfl
  rw [hcode, hbody]
  rfl

theorem returns_endFunction (hf : c.func < s.code.functions.length) (ret : Ty) (returns : Bool) :
    ((s.endFunction c ret returns).body c).returns
      = (s.body c).returns + (ret.isVoid && !returns).toNat := by
  unfold endFunction
  cases hend : ret.isVoid && !returns with
  | true => exact returns_emit hf rfl _ _ _
  | false => rfl

end Lowerer

/-- What a construct emits after its parts is added to the function that it started in. -/
theorem Advances.returns_emit (ha : Advances s u) (hv : s.Valid) (hc : s.At c) (hd : u.At d)
    (op : Op) (ty : Ty) (name : Option String) :
    ((u.emit d op ty name).body c).returns = (u.body c).returns + op.isReturn.toNat := by
  obtain rfl := (ha.at_iff.mpr hc).unique hd
  exact Lowerer.returns_emit ((ha.valid hv).cursor hd).1 rfl op ty name

/-! ### Constructs -/

/-- Under orders to stop at the first error, a step that succeeds adds this many returns to the
function at its cursor. -/
structure Counts (x : LowerM α) (n : Nat) : Prop where
  adds : ∀ {s t : Lowerer} {a : α} {c : Cursor}, s.Valid → s.options.policy = .failFast → s.At c →
    outcome x s = (.ok a, t) → (t.body c).returns = (s.body c).returns + n

section Constructs

variable {x y z : LowerM (Option Value)} {n n₁ n₂ n₃ : Nat}

theorem Counts.pure (a : α) : Counts (pure a : LowerM α) 0 := by
  constructor
  intro s t b c _ _ _ h
  cases h
  rfl

theorem Counts.map {x : LowerM α} (hx : Counts x n) (g : α → β) : Counts (do return g (← x)) n := by
  constructor
  intro s t b c hv hs hc h
  obtain ⟨a, u, hok, hk⟩ := (outcome_bind_eq_ok s).mp h
  cases hk
  exact hx.adds hv hs hc hok

theorem returns_materialize {v w : Value} (hv : s.Valid) (hc : s.At c)
    (h : outcome (materialize v) s = (.ok w, t)) :
    (t.body c).returns = (s.body c).returns := by
  obtain ⟨d, hd, ⟨-, -, rfl⟩ | ⟨ty, -, -, rfl⟩⟩ := materialize_succeeds h
  · rfl
  · obtain rfl := hc.unique hd
    exact Lowerer.returns_emit (hv.cursor hc).1 rfl _ _ _

theorem counts_operand (hx : Counts x n) (hy : Yields x) (context : String) :
    Counts (operand context x) n := by
  constructor
  intro s t v c hv hs hc h
  obtain ⟨w, u, hok, hmat⟩ := operand_succeeds h
  have ha := (hy s hv).advances hv hok
  rw [returns_materialize (ha.valid hv) (ha.at_iff.mpr hc) hmat]
  exact hx.adds hv hs hc hok

theorem counts_lowerIdent (name : String) : Counts (lowerIdent name) 0 := by
  constructor
  intro s t v c _ _ _ h
  obtain ⟨-, rfl⟩ := lowerIdent_succeeds h
  rfl

/-- No operator is a return. -/
theorem LoweredOp.isReturn_inst (f : IR.Function) (lhs rhs : Value) (op : LoweredOp) :
    (op.inst f lhs rhs).1.isReturn = false := by
  cases op <;> rfl

theorem counts_lowerBinary (hx : Counts x n₁) (hy : Counts y n₂) (hxy : Yields x) (hyy : Yields y)
    (op : BinOp) :
    Counts (lowerBinary op x y) (n₁ + n₂) := by
  constructor
  intro s t v c hv hs hc h
  obtain ⟨lhs, u, rhs, u', lowered, d, hl, hr, -, hd, -, rfl⟩ := lowerBinary_succeeds h
  have ha := (walks_operand hxy hv _).advances hv hl
  have ha' := (walks_operand hyy (ha.valid hv) _).advances (ha.valid hv) hr
  have hc' := ha.at_iff.mpr hc
  have hleft := (counts_operand hx hxy _).adds hv hs hc hl
  have hright := (counts_operand hy hyy _).adds (ha.valid hv) (by rw [ha.options, hs]) hc' hr
  rw [ha'.returns_emit (ha.valid hv) hc' hd, LoweredOp.isReturn_inst, hright, hleft]
  show (s.body c).returns + n₁ + n₂ = _
  exact Nat.add_assoc _ _ _

theorem counts_lowerAssign (hx : Counts x n) (hxy : Yields x) (target : String) :
    Counts (lowerAssign target x) n := by
  constructor
  intro s t w c hv hs hc h
  obtain ⟨slot, e, ty, v, u, d, -, -, -, hval, hd, -, rfl⟩ := lowerAssign_succeeds h
  have ha := (walks_operand hxy hv _).advances hv hval
  rw [ha.returns_emit hv hc hd]
  exact (counts_operand hx hxy _).adds hv hs hc hval

theorem counts_lowerArg (hx : Counts x n) (hxy : Yields x) (key : Option String) :
    Counts (lowerArg key x) n := by
  constructor
  intro s t w c hv hs hc h
  obtain ⟨v, u, hok, ⟨-, rfl⟩ | hmat⟩ := lowerArg_succeeds h
  · exact hx.adds hv hs hc hok
  · have ha := (hxy s hv).advances hv hok
    rw [returns_materialize (ha.valid hv) (ha.at_iff.mpr hc) hmat]
    exact hx.adds hv hs hc hok

theorem counts_lowerCall {args : LowerM (List Value)} {Q : Lowerer → List Value → Prop}
    (hargs : Counts args n) (hwalk : ∀ s : Lowerer, s.Valid → Walks s args Q) (callee : String)
    (count : Nat) :
    Counts (lowerCall callee count args) n := by
  constructor
  intro s t v c hv hs hc h
  obtain ⟨func, values, u, d, hok, hd, -, rfl⟩ := lowerCall_succeeds h
  have ha := (hwalk s hv).advances hv hok
  rw [ha.returns_emit hv hc hd]
  exact hargs.adds hv hs hc hok

/-- Both arms are added to the function around them. -/
theorem counts_lowerIf (hx : Counts x n₁) (hy : Counts y n₂) (hz : Counts z n₃) (hxy : Yields x)
    (hyy : Yields y) :
    Counts (lowerIf x y z) (n₁ + (n₂ + n₃)) := by
  constructor
  intro s t _ c hv hs hc h
  obtain ⟨cond, u, d, result, t₁, result', t₂, hcond, hd, hthen, helse, rfl⟩ :=
    lowerIf_succeeds hxy hv h
  have ha := (walks_operand hxy hv _).advances hv hcond
  have huv := ha.valid hv
  have hus : u.options.policy = .failFast := by rw [ha.options, hs]
  obtain rfl := (ha.at_iff.mpr hc).unique hd
  have ho := opens_then huv hd cond
  have ha₁ := (hyy _ (ho.valid huv)).advances (ho.valid huv) hthen
  have ho' := opens_else huv hd ha₁
  have hfirst : (u.body c).returns = (s.body c).returns + n₁ :=
    (counts_operand hx hxy _).adds hv hs hc hcond
  have hsecond : (t₁.body c).returns
      = (((u.fork c cond).enter (u.nextCursor c)).body c).returns + n₂ :=
    hy.adds (c := u.nextCursor c) (ho.valid huv) (by rw [ho.options, hus]) ho.opened hthen
  have hthird : (t₂.body c).returns
      = ((t₁.leave.enter { c with block := u.nextBlock c + 1 }).body c).returns + n₃ :=
    hz.adds (c := { c with block := u.nextBlock c + 1 }) (ho'.valid huv) (by rw [ho'.options, hus])
      ho'.opened helse
  rw [body_enter, Lowerer.returns_fork (huv.cursor hd).1] at hsecond
  rw [body_enter, Lowerer.body_leave] at hthird
  rw [Lowerer.body_leave, hthird, hsecond, hfirst]
  omega

theorem counts_lowerLoop (hx : Counts x n₁) (hy : Counts y n₂) (hz : Counts z n₃) (hxy : Yields x)
    (hyy : Yields y) (hzy : Yields z) : Counts (lowerLoop x y z) (n₁ + (n₂ + n₃) + 1) := by
  constructor
  intro s t _ c hv hs hc h
  obtain ⟨start, u, d, result, t₁, bound, t₂, hstart, hd, hbody, hbound, rfl⟩ :=
    lowerLoop_succeeds hxy hyy hzy hv h
  have ha := (walks_operand hxy hv _).advances hv hstart
  have huv := ha.valid hv
  have hus : u.options.policy = .failFast := by rw [ha.options, hs]
  obtain rfl := (ha.at_iff.mpr hc).unique hd
  have ho := opens_loop huv hd start
  have hrun : Runs (u.openLoop c start) t₁ := by simpa [hbody] using (hyy _ (ho.valid huv)).runs
  have ha₁ := hrun.advances (ho.valid huv)
  have hbegin := hrun.loopEnd huv hd (.refl _)
  have hrun' : Runs (t₁.advance (u.nextCursor c) (u.counter c)) t₂ := by
    simpa [hbound] using (walks_operand hzy hbegin.bound_valid "loop bound").runs
  have hlast := hrun.loopEnd huv hd hrun'
  have hstep : Advances t₁ (t₁.advance (u.nextCursor c) (u.counter c)) :=
    advances_emit hbegin.body_at _ _ _
  have hf₁ := ((ha₁.valid (ho.valid huv)).cursor hbegin.body_at).1
  have hf₂ := (hlast.bound_valid.cursor hlast.bound_at).1
  have hfirst : (u.body c).returns = (s.body c).returns + n₁ :=
    (counts_operand hx hxy _).adds hv hs hc hstart
  have hsecond : (t₁.body c).returns = ((u.openLoop c start).body c).returns + n₂ :=
    hy.adds (c := u.nextCursor c) (ho.valid huv) (by rw [ho.options, hus]) ho.opened hbody
  have hthird : (t₂.body c).returns
      = ((t₁.advance (u.nextCursor c) (u.counter c)).body c).returns + n₃ :=
    (counts_operand hz hzy _).adds (c := u.nextCursor c) hbegin.bound_valid
      (by rw [hstep.options, ha₁.options, ho.options, hus]) hbegin.bound_at hbound
  have hnext : ((t₁.advance (u.nextCursor c) (u.counter c)).body c).returns = (t₁.body c).returns :=
    Lowerer.returns_emit (d := u.nextCursor c) hf₁ rfl _ _ _
  have hexit : (((t₂.closeLoop (u.nextCursor c) (u.counter c) (t₁.body c).insts.length
      u.options.inductionName [(start, c.block)] bound).leave.emit
      { c with block := (t₂.body c).blocks.length } (.ret none) .void none).body c).returns
      = (t₂.body c).returns + 1 :=
    Lowerer.returns_leaveLoop (d := u.nextCursor c) hf₂ hlast.counter
      rfl (Nat.ne_of_lt hlast.counter_lt) rfl
  rw [Lowerer.returns_openLoop (huv.cursor hd).1] at hsecond
  rw [hexit, hthird, hnext, hsecond, hfirst]
  omega

/-! ### Statements -/

theorem counts_lowerReturn (hx : Counts x n) (hxy : Yields x) :
    Counts (lowerReturn (some x)) (n + 1) := by
  constructor
  intro s t w c hv hs hc h
  obtain ⟨v, u, d, hval, hd, -, rfl⟩ := lowerReturn_succeeds h
  have ha := (walks_operand hxy hv _).advances hv hval
  rw [ha.returns_emit hv hc hd, (counts_operand hx hxy _).adds hv hs hc hval]
  rfl

theorem counts_lowerReturn_none : Counts (lowerReturn none) 1 := by
  constructor
  intro s t w c hv hs hc h
  obtain ⟨d, hd, -, rfl⟩ := lowerReturn_none_succeeds h
  obtain rfl := hc.unique hd
  exact Lowerer.returns_emit (hv.cursor hc).1 rfl _ _ _

theorem counts_lowerVar (hx : Counts x n) (hxy : Yields x) (node : NodeId) (ty name : String) :
    Counts (lowerVar node ty name x) n := by
  constructor
  intro s t v c hv hs hc h
  obtain ⟨d, w, hd, -, hassign⟩ := lowerVar_succeeds h
  obtain rfl := hc.unique hd
  have ha := advances_declareVariable hc node (typeOf ty) name
  rw [(counts_lowerAssign hx hxy name).adds (ha.valid hv) (by rw [ha.options, hs])
    (ha.at_iff.mpr hc) hassign, Lowerer.returns_declareVariable (hv.cursor hc).1]

/-- What is lowered inside a nested function is added to that one. -/
theorem counts_lowerFn (hxy : Yields x) (retTy : Option String) (name : String)
    (params : List Param) (returns : Bool) : Counts (lowerFn retTy name params returns x) 0 := by
  constructor
  intro s t _ c hv hs hc h
  obtain ⟨result, u, hbody, rfl⟩ := lowerFn_succeeds hxy hv h
  have hf := (hv.cursor hc).1
  have ho := opens_function s name params (returnType retTy)
  have ha := (hxy _ (ho.valid hv)).advances (ho.valid hv) hbody
  have hne : c.func ≠ s.nextFunction.func := Nat.ne_of_lt hf
  have hopen : (s.openFunction name params (returnType retTy)).code.function c.func
      = s.code.function c.func := by
    rw [Lowerer.openFunction, bindParams_code]
    exact function_addFunction_of_lt s name params _ hf
  have hinner : u.code.function c.func
      = (s.openFunction name params (returnType retTy)).code.function c.func := by
    refine ha.code.others _ (Nat.lt_of_lt_of_le hf ho.code.functions) ?_
    rw [ho.opened.cursor?]
    simpa using hne
  have hend : (u.endFunction s.nextFunction (returnType retTy) returns).code.function c.func
      = u.code.function c.func := by
    unfold Lowerer.endFunction
    split
    · exact Lowerer.function_update_ne _ hne
    · rfl
  rw [Lowerer.body_leave, Lowerer.body, hend, hinner, hopen]
  rfl

end Constructs

/-! ### The walk -/

mutual

theorem lowerExpr_counts : ∀ e : Expr, Counts (lowerExpr e) e.exits
  | .int .. | .double .. => .pure _
  | .string _ raw => by
    constructor
    intro s t v c _ _ _ h
    rw [lowerExpr, outcome_bind_ok s _ (outcome_addGlobalString _ _)] at h
    cases h
    rfl
  | .ident _ name => (counts_lowerIdent name).map _
  | .call _ callee args =>
    (counts_lowerCall (lowerArgs_counts args) (lowerArgs_walks args) callee _).map _
  | .binary _ op left right =>
    (counts_lowerBinary (lowerExpr_counts left) (lowerExpr_counts right) (lowerExpr_yields left)
      (lowerExpr_yields right) op).map _
  | .assign _ target value =>
    (counts_lowerAssign (lowerExpr_counts value) (lowerExpr_yields value) target).map _
  | .ifElse _ cond thenBlock elseBlock =>
    (counts_lowerIf (lowerExpr_counts cond) (lowerBlock_counts thenBlock)
      (lowerBlock_counts elseBlock)
      (lowerExpr_yields cond) (lowerBlock_yields thenBlock)).map fun _ => none
  | .loop _ start limit body =>
    (counts_lowerLoop (lowerExpr_counts start) (lowerBlock_counts body) (lowerExpr_counts limit)
      (lowerExpr_yields start) (lowerBlock_yields body) (lowerExpr_yields limit)).map fun _ => none
  | .block _ body => lowerBlock_counts body

theorem lowerArgs_counts : ∀ args : List Expr, Counts (lowerArgs args) (argsExits args)
  | [] => .pure _
  | arg :: args => by
    constructor
    intro s t values c hv hs hc h
    rw [lowerArgs] at h
    obtain ⟨v, u, harg, hk⟩ := (outcome_bind_eq_ok s).mp h
    obtain ⟨vs, u', hrest, hend⟩ := (outcome_bind_eq_ok u).mp hk
    cases hend
    have ha := (walks_lowerArg (lowerExpr_yields arg) hv _).advances hv harg
    have hfirst := (counts_lowerArg (lowerExpr_counts arg) (lowerExpr_yields arg) _).adds
      hv hs hc harg
    have hlater := (lowerArgs_counts args).adds (ha.valid hv) (by rw [ha.options, hs])
      (ha.at_iff.mpr hc) hrest
    rw [hlater, hfirst, argsExits, Nat.add_assoc]

theorem lowerStmt_counts : ∀ stmt : Stmt, Counts (lowerStmt stmt) stmt.exits
  | .expr _ value => lowerExpr_counts value
  | .ret _ none => counts_lowerReturn_none.map _
  | .ret _ (some value) =>
    (counts_lowerReturn (lowerExpr_counts value) (lowerExpr_yields value)).map _
  | .var _ _ name none => (counts_lowerIdent name).map _
  | .var id ty name (some init) =>
    (counts_lowerVar (lowerExpr_counts init) (lowerExpr_yields init) id ty name).map _
  | .fn _ retTy name params body =>
    (counts_lowerFn (lowerBlock_yields body) retTy name params _).map fun _ => none
  | .block _ body => lowerBlock_counts body

theorem lowerBlock_counts : ∀ block : Block, Counts (lowerBlock block) block.exits
  | .mk _ stmts => lowerStmts_counts stmts none

theorem lowerStmts_counts : ∀ (stmts : List Stmt) (last : Option Value),
    Counts (lowerStmts last stmts) (stmtsExits stmts)
  | [], _ => .pure _
  | stmt :: stmts, last => by
    constructor
    intro s t r c hv hs hc h
    obtain ⟨value, u, hstmt, hrest⟩ := lowerStmts_succeeds hs h
    have ha := (lowerStmt_yields stmt s hv).advances hv hstmt
    have hfirst := (lowerStmt_counts stmt).adds hv hs hc hstmt
    have hlater := (lowerStmts_counts stmts value).adds (ha.valid hv) (by rw [ha.options, hs])
      (ha.at_iff.mpr hc) hrest
    rw [hlater, hfirst, stmtsExits, Nat.add_assoc]

end

/-! ### Programs -/

/-- A function returns where its body does, and once more at its end if it has to. -/
theorem Defines.returns {d : Declaration} {f : FuncId} {m : IR.Module} (h : Defines d f m) :
    (m.function f).returns
      = d.body.exits + ((returnType d.retTy).isVoid && !d.body.hasTopLevelReturn).toNat := by
  obtain @⟨s, t, result, hv, hs, rfl, hbody, hfun, -⟩ := h
  have ho := opens_function s d.name d.params (returnType d.retTy)
  have ha := (lowerBlock_yields d.body _ (ho.valid hv)).advances (ho.valid hv) hbody
  have hlt := Nat.lt_of_lt_of_le ho.exists_block.1 ha.code.functions
  have hcount := (lowerBlock_counts d.body).adds (ho.valid hv) (by rw [ho.options, hs])
    ho.opened hbody
  rw [Lowerer.returns_openFunction, Nat.zero_add] at hcount
  rw [hfun]
  show (Lowerer.body _ s.nextFunction).returns = _
  rw [Lowerer.returns_endFunction hlt, hcount]

/-- The entry function returns where the program does, and once more if its first block is still
open then. -/
theorem returns_closeModule (hf : entryCursor.func < t.code.functions.length) :
    ((closeModule entryCursor t.code).function entryCursor.func).returns
      = (t.body entryCursor).returns
        + (!(t.body entryCursor).isTerminated entryCursor.block).toNat := by
  unfold closeModule
  cases hend : (t.code.function entryCursor.func).isTerminated entryCursor.block with
  | true =>
    rw [if_pos rfl, Lowerer.body, hend]
    rfl
  | false =>
    rw [if_neg Bool.false_ne_true, Lowerer.body, hend]
    exact Lowerer.returns_emit hf rfl (.ret none) .void none

/-- **Returns.**  If a program lowers without an error, the function of a declaration returns once
for each return statement and each loop in its body outside of nested functions, and once more if it
returns nothing and none of its statements is a return.  The entry function returns once for each
return statement and each loop of the program outside of functions, and once more unless lowering
the statements left an instruction at the end of its first block that ends it. -/
theorem lowerProgram_returns {root : Block} {options : Options} {l : Lowered}
    (h : lowerProgram root options = .ok l) (herrors : l.errors = []) :
    (∀ i d, root.declarations[i]? = some d → Defines d (3 + i) l.code ∧
      (l.code.function (3 + i)).returnCount = d.body.exits +
        if returnType d.retTy = .void ∧ ∀ stmt ∈ d.body.stmts, stmt.isReturn = false
          then 1 else 0) ∧
    ∃ r t, outcome (lowerBlock root) (start options) = (.ok r, t) ∧
      (l.code.function entryCursor.func).returnCount = root.exits +
        if ((t.body entryCursor).blockInsts entryCursor.block).getLast?.any (·.2.op.isTerminator)
          then 0 else 1 := by
  have hcount : ∀ f, f < l.code.functions.length →
      (l.code.function f).returnCount = (l.code.function f).returns :=
    fun f hf => (lowerProgram_laid h hf).1.placement.returnCount_eq
  obtain ⟨hlen, hdefines⟩ := lowerProgram_declares h herrors
  refine ⟨fun i d hd => ⟨hdefines hd, ?_⟩, ?_⟩
  · have hi : i < root.declarations.length := (List.getElem?_eq_some_iff.mp hd).1
    rw [hcount _ (by rw [hlen]; exact Nat.add_lt_add_left hi 3), (hdefines hd).returns]
    congr 1
    cases hend : (returnType d.retTy).isVoid && !d.body.hasTopLevelReturn with
    | true =>
      rw [if_pos (by simpa [IR.Ty.isVoid, Block.hasTopLevelReturn] using hend)]
      rfl
    | false =>
      rw [if_neg (by simpa [IR.Ty.isVoid, Block.hasTopLevelReturn] using hend)]
      rfl
  · obtain ⟨r, t, hout, hstrict, hcode⟩ := lowerProgram_strict h herrors
    have hf : entryCursor.func < t.code.functions.length :=
      Nat.lt_of_lt_of_le (Nat.lt_succ_self 2)
        ((lowerBlock_yields root _ (start_valid options)).advances (start_valid options)
          hout).code.functions
    have hbody : (t.body entryCursor).returns = 0 + root.exits :=
      (lowerBlock_counts root).adds (s := (start options).strict) (t := t.strict) (c := entryCursor)
        (start_valid options) rfl (start_at options) hstrict
    refine ⟨r, t, hout, ?_⟩
    rw [hcount _ (by rw [hlen]; exact Nat.lt_add_right _ (Nat.lt_succ_self 2)), hcode,
      returns_closeModule hf, hbody, Nat.zero_add, IR.Function.isTerminated_eq_any]
    cases Option.any _ _ <;> rfl

/-- A function that returns nothing and has a loop, a return in a branch and a nested function. -/
def leavingOften : Block :=
  .mk 0 [
    .fn 1 none "f" [] (.mk 2 [
      .fn 3 (some "int") "g" [] (.mk 4 [.ret 5 (some (.int 6 1))]),
      .expr 7 (.ifElse 8 (.binary 9 .lt (.double 10 .one) (.double 11 .one)) (.mk 12 [.ret 13 none])
      (.mk 14 [])), .expr 15 (.loop 16 (.double 17 .one) (.double 18 .one) (.mk 19 []))]),
    .expr 20 (.call 21 "f" [])]

theorem lowerProgram_returns_leavingOften :
    ∃ l, lowerProgram leavingOften {} = .ok l ∧ l.errors = [] ∧
      (l.code.function 3).returnCount = 3 ∧
      (l.code.function 4).returnCount = 1 ∧ (l.code.function 2).returnCount = 1 := by
  have hrun : ((lowerProgram leavingOften {}).toOption.any fun l => decide (l.errors = []))
      = true := by
    decide +kernel
  have hopen : (((outcome (lowerBlock leavingOften) (start {})).2.body entryCursor).blockInsts
      entryCursor.block).getLast?.any (·.2.op.isTerminator) = false := by decide +kernel
  rcases h : lowerProgram leavingOften {} with e | l
  · simp [h, Except.toOption] at hrun
  · simp only [h, Except.toOption, Option.any_some, decide_eq_true_eq] at hrun
    obtain ⟨hfunctions, r, t, hout, hentry⟩ := lowerProgram_returns h hrun
    rw [hout] at hopen
    rw [hopen] at hentry
    exact ⟨l, rfl, hrun, (hfunctions 0 _ rfl).2, (hfunctions 1 _ rfl).2, hentry⟩

end TreeCompiler.Lowering
