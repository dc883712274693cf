/-
Which function of a module a declaration becomes.

Lowering adds a function to the module when it meets a declaration, before it looks into the body,
and never removes or moves one.  So the functions of a module are, after the three that are there
from the start, the declarations of the program in the order in which they are met: operands from
left to right, the condition of a conditional before its arms, the bounds of a loop around its body,
and a declaration before those inside it.  `declarations` lists them, and `lowerProgram_declares`
says that the function at each position of the list is the one that lowering that declaration gave
(`Defines`).

What is lowered later cannot touch a function that is finished: it grows the function at its cursor,
and that one is older (`Declares.append`).
-/
import TreeCompiler.Proofs.Lowering.Success

namespace TreeCompiler.Program

/-- A function declaration. -/
structure Declaration where
  retTy : Option String
  name : String
  params : List Param
  body : Block

mutual

/-- The function declarations in an expression, in the order in which they are lowered. -/
def Expr.declarations : Expr → List Declaration
  | .int .. | .double .. | .string .. | .ident .. => []
  | .call _ _ args => argsDeclarations args
  | .binary _ _ left right => left.declarations ++ right.declarations
  | .assign _ _ value => value.declarations
  | .ifElse _ cond thenBlock elseBlock =>
    cond.declarations ++ (thenBlock.declarations ++ elseBlock.declarations)
  | .loop _ start limit body => start.declarations ++ (body.declarations ++ limit.declarations)
  | .block _ body => body.declarations

def argsDeclarations : List Expr → List Declaration
  | [] => []
  | arg :: args => arg.declarations ++ argsDeclarations args

/-- A declaration comes before those in its body. -/
def Stmt.declarations : Stmt → List Declaration
  | .expr _ value => value.declarations
  | .ret _ none => []
  | .ret _ (some value) => value.declarations
  | .var _ _ _ none => []
  | .var _ _ _ (some init) => init.declarations
  | .fn _ retTy name params body => { retTy, name, params, body } :: body.declarations
  | .block _ body => body.declarations

def Block.declarations : Block → List Declaration
  | .mk _ stmts => stmtsDeclarations stmts

def stmtsDeclarations : List Stmt → List Declaration
  | [] => []
  | stmt :: stmts => stmt.declarations ++ stmtsDeclarations stmts

end

end TreeCompiler.Program

namespace TreeCompiler.Lowering

open IR (FuncId BlockId InstId Ty Value Op)
open Program (Expr Stmt Block BinOp NodeId Param Declaration argsDeclarations stmtsDeclarations)

variable {α : Type} {s t u : Lowerer} {c : Cursor} {d : Declaration} {ds ds' : List Declaration}
  {m m' m'' : IR.Module}

/-! ### Functions that are finished -/

/-- Function `f` of a module is what lowering a declaration gives: its body was lowered without an
error from the state in which that function is opened. -/
inductive Defines (d : Declaration) (f : FuncId) (m : IR.Module) : Prop
  | intro {s t : Lowerer} {result : Option Value} (valid : s.Valid)
      (strict : s.options.policy = .failFast) (next : s.code.functions.length = f)
      (body : outcome (lowerBlock d.body) (s.openFunction d.name d.params (returnType d.retTy))
        = (.ok result, t))
      (function : m.function f = ((t.endFunction s.nextFunction (returnType d.retTy)
        d.body.hasTopLevelReturn).code.function f))
      (globals : t.code.globals <+: m.globals)

/-- The functions that `m'` has after those of `m` are what these declarations give, in this
order. -/
structure Declares (m m' : IR.Module) (ds : List Declaration) : Prop where
  count : m'.functions.length = m.functions.length + ds.length
  defines : ∀ {i d}, ds[i]? = some d → Defines d (m.functions.length + i) m'

/-- What is added at a cursor in another function leaves a finished function as it is. -/
theorem Defines.grows {f : FuncId} {c : Option Cursor} (h : Defines d f m) (hg : CodeGrows c m m')
    (hf : f < m.functions.length) (hne : ∀ e ∈ c, f ≠ e.func) : Defines d f m' := by
  obtain ⟨hv, hs, hnext, hbody, hfun, hglobals⟩ := h
  refine .intro hv hs hnext hbody ?_ (hglobals.trans hg.globals)
  rw [hg.others f hf hne, hfun]

namespace Declares

theorem nil (h : m'.functions.length = m.functions.length) : Declares m m' [] :=
  ⟨h, by simp⟩

theorem append {c : Option Cursor} (h : Declares m m' ds) (h' : Declares m' m'' ds')
    (hg : CodeGrows c m' m'') (hc : ∀ e ∈ c, e.func < m.functions.length) :
    Declares m m'' (ds ++ ds') where
  count := by
    rw [h'.count, h.count, List.length_append, Nat.add_assoc]
  defines := by
    intro i d hi
    rcases Nat.lt_or_ge i ds.length with hlt | hge
    · rw [List.getElem?_append_left hlt] at hi
      refine (h.defines hi).grows hg ?_ ?_
      · rw [h.count]
        exact Nat.add_lt_add_left hlt _
      · intro e he
        exact Nat.ne_of_gt (Nat.lt_of_lt_of_le (hc e he) (Nat.le_add_right _ _))
    · rw [List.getElem?_append_right hge] at hi
      have hlater := h'.defines hi
      rw [h.count] at hlater
      rwa [show m.functions.length + i = m.functions.length + ds.length + (i - ds.length) by omega]

/-- The same functions are there before, and perhaps more in them. -/
theorem of_length (h : Declares m' m'' ds) (hm : m'.functions.length = m.functions.length) :
    Declares m m'' ds := by
  refine ⟨h.count.trans (by rw [hm]), ?_⟩
  intro i d hi
  have hdef := h.defines hi
  rwa [hm] at hdef

/-- A change to an older function. -/
theorem update (h : Declares m s.code ds) {func : FuncId} (hf : func < m.functions.length)
    (change : IR.Function → IR.Function) : Declares m (s.update func change).code ds := by
  refine ⟨by simpa using h.count, ?_⟩
  intro i d hi
  obtain ⟨hv, hs, hnext, hbody, hfun, hglobals⟩ := h.defines hi
  refine .intro hv hs hnext hbody ?_ hglobals
  have hne : m.functions.length + i ≠ func :=
    Nat.ne_of_gt (Nat.lt_of_lt_of_le hf (Nat.le_add_right _ _))
  rw [Lowerer.function_update_ne change hne, hfun]

/-- What is done in the same region comes after what was done before. -/
theorem sequence (h : Declares s.code t.code ds) (h' : Declares t.code u.code ds') (hv : s.Valid)
    (ha : Advances s t) (ha' : Advances t u) : Declares s.code u.code (ds ++ ds') := by
  refine h.append h' ha'.code ?_
  intro e he
  rw [ha.cursor?] at he
  exact (hv.cursor (Lowerer.mem_cursor?.mp he)).1

end Declares

/-! ### Constructs -/

/-- A step that adds functions for these declarations whenever it succeeds. -/
structure Collects (x : LowerM α) (ds : List Declaration) : Prop where
  declares : ∀ {s t : Lowerer} {a : α}, s.Valid → s.options.policy = .failFast →
    outcome x s = (.ok a, t) → Declares s.code t.code ds

section Constructs

variable {x y z : LowerM (Option Value)} {ds₁ ds₂ ds₃ : List Declaration}

theorem Collects.pure (a : α) : Collects (pure a : LowerM α) [] := by
  constructor
  intro s t b _ _ h
  cases h
  exact .nil rfl

theorem Collects.map {β : Type} {x : LowerM α} (hx : Collects x ds) (g : α → β) :
    Collects (do return g (← x)) ds := by
  constructor
  intro s t b hv hs h
  obtain ⟨a, u, hok, hk⟩ := (outcome_bind_eq_ok s).mp h
  cases hk
  exact hx.declares hv hs hok

theorem collects_operand (hx : Collects x ds) (hy : Yields x) (context : String) :
    Collects (operand context x) ds := by
  constructor
  intro s t v hv hs h
  obtain ⟨w, u, hok, hmat⟩ := operand_succeeds h
  have ha := (hy s hv).advances hv hok
  obtain ⟨c, hc, ⟨-, -, rfl⟩ | ⟨ty, -, -, rfl⟩⟩ := materialize_succeeds hmat
  · exact hx.declares hv hs hok
  · exact (hx.declares hv hs hok).update (hv.cursor (ha.at_iff.mp hc)).1 _

theorem collects_lowerIdent (name : String) : Collects (lowerIdent name) [] := by
  constructor
  intro s t v hv hs h
  obtain ⟨-, rfl⟩ := lowerIdent_succeeds h
  exact .nil rfl

theorem collects_lowerBinary (hx : Collects x ds₁) (hy : Collects y ds₂) (hxy : Yields x)
    (hyy : Yields y) (op : BinOp) : Collects (lowerBinary op x y) (ds₁ ++ ds₂) := by
  constructor
  intro s t v hv hs h
  obtain ⟨lhs, u, rhs, u', lowered, c, hl, hr, -, hc, -, rfl⟩ := lowerBinary_succeeds h
  have ha := (walks_operand hxy hv _).advances hv hl
  have ha' := (walks_operand hyy (ha.valid hv) _).advances (ha.valid hv) hr
  have hlt := (hv.cursor (ha.at_iff.mp (ha'.at_iff.mp hc))).1
  have hleft := (collects_operand hx hxy _).declares hv hs hl
  have hright := (collects_operand hy hyy _).declares (ha.valid hv) (by rw [ha.options, hs]) hr
  exact (hleft.sequence hright hv ha ha').update hlt _

theorem collects_lowerAssign (hx : Collects x ds) (hxy : Yields x) (target : String) :
    Collects (lowerAssign target x) ds := by
  constructor
  intro s t w hv hs h
  obtain ⟨slot, c, ty, v, u, d, -, -, -, hval, hd, -, rfl⟩ := lowerAssign_succeeds h
  have ha := (walks_operand hxy hv _).advances hv hval
  exact ((collects_operand hx hxy _).declares hv hs hval).update (hv.cursor (ha.at_iff.mp hd)).1 _

theorem collects_lowerArg (hx : Collects x ds) (hxy : Yields x) (key : Option String) :
    Collects (lowerArg key x) ds := by
  constructor
  intro s t w hv hs h
  obtain ⟨v, u, hok, ⟨-, rfl⟩ | hmat⟩ := lowerArg_succeeds h
  · exact hx.declares hv hs hok
  · have ha := (hxy s hv).advances hv hok
    obtain ⟨c, hc, ⟨-, -, rfl⟩ | ⟨ty, -, -, rfl⟩⟩ := materialize_succeeds hmat
    · exact hx.declares hv hs hok
    · exact (hx.declares hv hs hok).update (hv.cursor (ha.at_iff.mp hc)).1 _

theorem collects_lowerCall {args : LowerM (List Value)} {Q : Lowerer → List Value → Prop}
    (hargs : Collects args ds) (hwalk : ∀ s : Lowerer, s.Valid → Walks s args Q) (callee : String)
    (count : Nat) : Collects (lowerCall callee count args) ds := by
  constructor
  intro s t v hv hs h
  obtain ⟨func, values, u, c, hok, hc, -, rfl⟩ := lowerCall_succeeds h
  have ha := (hwalk s hv).advances hv hok
  exact (hargs.declares hv hs hok).update (hv.cursor (ha.at_iff.mp hc)).1 _

theorem collects_lowerIf (hx : Collects x ds₁) (hy : Collects y ds₂) (hz : Collects z ds₃)
    (hxy : Yields x) (hyy : Yields y) (hzy : Yields z) :
    Collects (lowerIf x y z) (ds₁ ++ (ds₂ ++ ds₃)) := by
  constructor
  intro s t _ hv hs h
  obtain ⟨cond, u, c, result, t₁, result', t₂, hcond, hc, hthen, helse, rfl⟩ :=
    lowerIf_succeeds hxy hv h
  have ha := (walks_operand hxy hv _).advances hv hcond
  have huv := ha.valid hv
  have hus : u.options.policy = .failFast := by rw [ha.options, hs]
  have ho := opens_then huv hc cond
  have ha₁ := (hyy _ (ho.valid huv)).advances (ho.valid huv) hthen
  have ho' := opens_else huv hc ha₁
  have ha₂ := (hzy _ (ho'.valid huv)).advances (ho'.valid huv) helse
  have harm : Declares u.code t₁.code ds₂ :=
    (hy.declares (ho.valid huv) (by rw [ho.options, hus]) hthen).of_length (by simp [Lowerer.fork])
  have harm' : Declares t₁.code t₂.code ds₃ :=
    (hz.declares (ho'.valid huv) (by rw [ho'.options, hus]) helse).of_length
      (by simp [Lowerer.leave])
  have hgrows : CodeGrows (some { c with block := u.nextBlock c + 1 }) t₁.code t₂.code := by
    have hcode := ha₂.code
    rwa [ho'.opened.cursor?, enter_code] at hcode
  have harms := harm.append harm' hgrows (by simpa using (huv.cursor hc).1)
  exact ((collects_operand hx hxy _).declares hv hs hcond).sequence harms hv ha (ho'.close ha₂)

/-- What ends a loop changes the function around it and no other. -/
theorem Declares.closeLoop (h : Declares m s.code ds) (inside : Cursor)
    (hf : inside.func < m.functions.length) (counter next : InstId) (induction : String)
    (incoming : List (Value × BlockId)) (bound : Value) :
    Declares m (s.closeLoop inside counter next induction incoming bound).code ds := by
  unfold Lowerer.closeLoop Lowerer.testLoop
  exact (((((h.update hf _).update hf _).update hf _).update hf _).update hf _).update hf _

theorem collects_lowerLoop (hx : Collects x ds₁) (hy : Collects y ds₂) (hz : Collects z ds₃)
    (hxy : Yields x) (hyy : Yields y) (hzy : Yields z) :
    Collects (lowerLoop x y z) (ds₁ ++ (ds₂ ++ ds₃)) := by
  constructor
  intro s t _ hv hs h
  obtain ⟨start, u, c, result, t₁, bound, t₂, hstart, hc, hbody, hbound, rfl⟩ :=
    lowerLoop_succeeds hxy hyy hzy hv h
  have ha := (walks_operand hxy hv _).advances hv hstart
  have huv := ha.valid hv
  have hus : u.options.policy = .failFast := by rw [ha.options, hs]
  have hlt := (hv.cursor (ha.at_iff.mp hc)).1
  have ho := opens_loop huv hc start
  have ha₁ := (hyy _ (ho.valid huv)).advances (ho.valid huv) hbody
  have hinside : t₁.At (u.nextCursor c) := ha₁.at_iff.mpr ho.opened
  have hstep : Advances t₁ (t₁.advance (u.nextCursor c) (u.counter c)) :=
    advances_emit hinside _ _ _
  have hv₁ := hstep.valid (ha₁.valid (ho.valid huv))
  have ha₂ := (walks_operand hzy hv₁ _).advances hv₁ hbound
  have hopen : (u.openLoop c start).code.functions.length = u.code.functions.length := by
    rw [Lowerer.openLoop, bindName_code]
    simp [Lowerer.jump]
  have hcount : Declares u.code t₁.code ds₂ :=
    (hy.declares (ho.valid huv) (by rw [ho.options, hus]) hbody).of_length hopen
  have hlimit : Declares t₁.code t₂.code ds₃ := by
    refine ((collects_operand hz hzy _).declares hv₁ ?_ hbound).of_length
      (by simp [Lowerer.advance])
    rw [hstep.options, ha₁.options, ho.options, hus]
  have hgrows : CodeGrows (some (u.nextCursor c)) t₁.code t₂.code := by
    have hcode := (hstep.trans ha₂).code
    rwa [hinside.cursor?] at hcode
  have hinner : Declares u.code t₂.leave.code (ds₂ ++ ds₃) :=
    hcount.append hlimit hgrows (by simpa [Lowerer.nextCursor] using (huv.cursor hc).1)
  have hall := ((collects_operand hx hxy _).declares hv hs hstart).sequence hinner hv ha
    (ho.close ((ha₁.trans hstep).trans ha₂))
  have hclosed := hall.closeLoop (u.nextCursor c) hlt (u.counter c)
    (t₁.body c).insts.length u.options.inductionName [(start, c.block)] bound
  exact Declares.update (s := Lowerer.leave _) hclosed hlt _

/-! ### Statements -/

theorem collects_lowerReturn (hx : Collects x ds) (hxy : Yields x) :
    Collects (lowerReturn (some x)) ds := by
  constructor
  intro s t w hv hs h
  obtain ⟨v, u, c, hval, hc, -, rfl⟩ := lowerReturn_succeeds h
  have ha := (walks_operand hxy hv _).advances hv hval
  exact ((collects_operand hx hxy _).declares hv hs hval).update (hv.cursor (ha.at_iff.mp hc)).1 _

theorem collects_lowerReturn_none : Collects (lowerReturn none) [] := by
  constructor
  intro s t w hv hs h
  obtain ⟨c, -, -, rfl⟩ := lowerReturn_none_succeeds h
  exact .nil (by simp)

theorem collects_lowerVar (hx : Collects x ds) (hxy : Yields x) (node : NodeId) (ty name : String) :
    Collects (lowerVar node ty name x) ds := by
  constructor
  intro s t v hv hs h
  obtain ⟨c, w, hc, -, hassign⟩ := lowerVar_succeeds h
  have ha := advances_declareVariable hc node (typeOf ty) name
  have hassigned := (collects_lowerAssign hx hxy name).declares (ha.valid hv)
    (by rw [ha.options, hs]) hassign
  refine hassigned.of_length ?_
  rw [Lowerer.declareVariable, bindName_code]
  simp [Lowerer.record]

theorem collects_lowerFn {block : Block} (hx : Collects (lowerBlock block) ds)
    (retTy : Option String) (name : String) (params : List Param) :
    Collects (lowerFn retTy name params block.hasTopLevelReturn (lowerBlock block))
      ({ retTy, name, params, body := block } :: ds) := by
  constructor
  intro s t _ hv hs h
  obtain ⟨result, u, hbody, rfl⟩ := lowerFn_succeeds (lowerBlock_yields block) hv h
  have ho := opens_function s name params (returnType retTy)
  have hopen : (s.openFunction name params (returnType retTy)).code.functions.length
      = s.code.functions.length + 1 := by
    rw [Lowerer.openFunction, bindParams_code]
    simp [Lowerer.enterEmpty]
  have hinner : Declares (s.openFunction name params (returnType retTy)).code
      (u.endFunction s.nextFunction (returnType retTy) block.hasTopLevelReturn).code ds := by
    have hnested := hx.declares (ho.valid hv) (by rw [ho.options, hs]) hbody
    unfold Lowerer.endFunction
    split
    · exact hnested.update ho.exists_block.1 _
    · exact hnested
  have hglobals : u.code.globals
      <+: (u.endFunction s.nextFunction
        (returnType retTy) block.hasTopLevelReturn).code.globals := by
    unfold Lowerer.endFunction
    split <;> exact List.prefix_refl _
  refine ⟨?_, ?_⟩
  · show (u.endFunction s.nextFunction (returnType retTy)
      block.hasTopLevelReturn).code.functions.length = _
    rw [hinner.count, hopen, List.length_cons]
    omega
  · intro i d hi
    cases i with
    | zero =>
      obtain rfl : { retTy, name, params, body := block } = d := by simpa using hi
      exact .intro hv hs rfl hbody rfl hglobals
    | succ i =>
      have hlater := hinner.defines (i := i) (by simpa using hi)
      rw [hopen] at hlater
      rwa [show s.code.functions.length + (i + 1) = s.code.functions.length + 1 + i by omega]

end Constructs

/-! ### The walk -/

mutual

theorem lowerExpr_collects : ∀ e : Expr, Collects (lowerExpr e) e.declarations
  | .int .. | .double .. => .pure _
  | .string _ raw => by
    constructor
    intro s t v hv hs h
    rw [lowerExpr, outcome_bind_ok s _ (outcome_addGlobalString _ _)] at h
    cases h
    exact .nil rfl
  | .ident _ name => (collects_lowerIdent name).map _
  | .call _ callee args =>
    (collects_lowerCall (lowerArgs_collects args) (lowerArgs_walks args) callee _).map _
  | .binary _ op left right =>
    (collects_lowerBinary (lowerExpr_collects left) (lowerExpr_collects right)
      (lowerExpr_yields left)
      (lowerExpr_yields right) op).map _
  | .assign _ target value =>
    (collects_lowerAssign (lowerExpr_collects value) (lowerExpr_yields value) target).map _
  | .ifElse _ cond thenBlock elseBlock =>
    (collects_lowerIf (lowerExpr_collects cond) (lowerBlock_collects thenBlock)
      (lowerBlock_collects elseBlock) (lowerExpr_yields cond) (lowerBlock_yields thenBlock)
      (lowerBlock_yields elseBlock)).map fun _ => none
  | .loop _ start limit body =>
    (collects_lowerLoop (lowerExpr_collects start) (lowerBlock_collects body)
      (lowerExpr_collects limit) (lowerExpr_yields start) (lowerBlock_yields body)
      (lowerExpr_yields limit)).map fun _ => none
  | .block _ body => lowerBlock_collects body

theorem lowerArgs_collects : ∀ args : List Expr, Collects (lowerArgs args) (argsDeclarations args)
  | [] => .pure _
  | arg :: args => by
    constructor
    intro s t values hv hs h
    rw [lowerArgs] at h
    obtain ⟨v, u, harg, hk⟩ := (outcome_bind_eq_ok s).mp h
    obtain ⟨vs, u', hrest, hend⟩ := (outcome_bind_eq_ok u).mp hk
    cases hend
    have ha := (walks_lowerArg (lowerExpr_yields arg) hv _).advances hv harg
    have hfirst := (collects_lowerArg (lowerExpr_collects arg) (lowerExpr_yields arg) _).declares
      hv hs harg
    have hlater := (lowerArgs_collects args).declares (ha.valid hv) (by rw [ha.options, hs]) hrest
    exact hfirst.sequence hlater hv ha
      ((lowerArgs_walks args u (ha.valid hv)).advances (ha.valid hv) hrest)

theorem lowerStmt_collects : ∀ stmt : Stmt, Collects (lowerStmt stmt) stmt.declarations
  | .expr _ value => lowerExpr_collects value
  | .ret _ none => collects_lowerReturn_none.map _
  | .ret _ (some value) =>
    (collects_lowerReturn (lowerExpr_collects value) (lowerExpr_yields value)).map _
  | .var _ _ name none => (collects_lowerIdent name).map _
  | .var id ty name (some init) =>
    (collects_lowerVar (lowerExpr_collects init) (lowerExpr_yields init) id ty name).map _
  | .fn _ retTy name params body =>
    (collects_lowerFn (lowerBlock_collects body) retTy name params).map fun _ => none
  | .block _ body => lowerBlock_collects body

theorem lowerBlock_collects : ∀ block : Block, Collects (lowerBlock block) block.declarations
  | .mk _ stmts => lowerStmts_collects stmts none

theorem lowerStmts_collects : ∀ (stmts : List Stmt) (last : Option Value),
    Collects (lowerStmts last stmts) (stmtsDeclarations stmts)
  | [], _ => .pure _
  | stmt :: stmts, last => by
    constructor
    intro s t r hv hs h
    obtain ⟨value, u, hstmt, hrest⟩ := lowerStmts_succeeds hs h
    have ha := (lowerStmt_yields stmt s hv).advances hv hstmt
    have hfirst := (lowerStmt_collects stmt).declares hv hs hstmt
    have hlater := (lowerStmts_collects stmts value).declares (ha.valid hv)
      (by rw [ha.options, hs]) hrest
    have hvalue : ∀ v ∈ value, Usable u v := by
      have hu := (lowerStmt_yields stmt s hv).value value
      rw [hstmt] at hu
      exact hu rfl
    exact hfirst.sequence hlater hv ha
      ((lowerStmts_walks stmts value u (ha.valid hv) hvalue).advances (ha.valid hv) hrest)

end

/-! ### Programs -/

/-- **Declarations and functions.**  If a program lowers without an error, the functions of its
module are the three from the start and then what its declarations give, in order. -/
theorem lowerProgram_declares {root : Block} {options : Options} {l : Lowered}
    (h : lowerProgram root options = .ok l) (herrors : l.errors = []) :
    l.code.functions.length = 3 + root.declarations.length ∧
      ∀ {i d}, root.declarations[i]? = some d → Defines d (3 + i) l.code := by
  obtain ⟨r, t, hok, hcode⟩ := lowerProgram_succeeds h herrors
  have hdeclares := (lowerBlock_collects root).declares (start_valid _) rfl hok
  have hclosed : Declares (start { options with policy := .failFast }).code l.code
      root.declarations := by
    rw [hcode, closeModule]
    split
    · exact hdeclares
    · exact hdeclares.update (Nat.lt_succ_self 2) fun f => (f.ret entryCursor.block none).2
  exact ⟨hclosed.count, hclosed.defines⟩

end TreeCompiler.Lowering
