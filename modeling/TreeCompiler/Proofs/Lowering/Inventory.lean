/-
What a module holds.

Functions and strings are added to a module from anywhere in a tree: from inside an operand, a
condition, the bound of a loop.  A program that lowers without an error is lowered completely, so
the module holds exactly what the program has of both, in the order in which lowering comes to it.

For functions the order and the origin of each is known already (`lowerProgram_declares`).  Here it
is worked out what such a function looks like from outside: its signature and the names of its
parameters are those of the declaration (`Realizes`).  For strings `Pools x texts` says that a step
that succeeds adds strings with these texts and no others.  Only a literal adds one, so for each
construct the texts of its parts come one after the other, in the order in which it lowers them.
-/
import Mathlib.Data.List.Forall2
import TreeCompiler.Proofs.Lowering.Declarations

namespace TreeCompiler.Program

mutual

/-- The string literals of an expression as they are written, in the order in which they are
lowered. -/
def Expr.literals : Expr → List String
  | .int .. | .double .. | .ident .. => []
  | .string _ raw => [raw]
  | .call _ _ args => argsLiterals args
  | .binary _ _ left right => left.literals ++ right.literals
  | .assign _ _ value => value.literals
  | .ifElse _ cond thenBlock elseBlock =>
    cond.literals ++ (thenBlock.literals ++ elseBlock.literals)
  | .loop _ start limit body => start.literals ++ (body.literals ++ limit.literals)
  | .block _ body => body.literals

def argsLiterals : List Expr → List String
  | [] => []
  | arg :: args => arg.literals ++ argsLiterals args

def Stmt.literals : Stmt → List String
  | .expr _ value => value.literals
  | .ret _ none => []
  | .ret _ (some value) => value.literals
  | .var _ _ _ none => []
  | .var _ _ _ (some init) => init.literals
  | .fn _ _ _ _ body => body.literals
  | .block _ body => body.literals

def Block.literals : Block → List String
  | .mk _ stmts => stmtsLiterals stmts

def stmtsLiterals : List Stmt → List String
  | [] => []
  | stmt :: stmts => stmt.literals ++ stmtsLiterals stmts

end

end TreeCompiler.Program

namespace TreeCompiler.Lowering

open IR (FuncId BlockId InstId Ty Value Op)
open Program (Expr Stmt Block BinOp NodeId Param Declaration argsLiterals stmtsLiterals)

/-! ### Strings -/

/-- The texts of the strings of a state's module. -/
def Lowerer.texts (s : Lowerer) : List String := s.code.globals.map (·.text)

/-- Under orders to stop at the first error, the step, if it succeeds, has added strings with the
texts of these literals. -/
structure Pools {α : Type} (x : LowerM α) (literals : List String) : Prop where
  adds : ∀ {s t : Lowerer} {a : α}, s.options.policy = .failFast → outcome x s = (.ok a, t) →
    t.options.policy = .failFast ∧ t.texts = s.texts ++ literals.map literalText

namespace Pools

variable {α β : Type} {x : LowerM α} {k : α → LowerM β} {ls ls' : List String}

theorem bind (hx : Pools x ls) (hk : ∀ a, Pools (k a) ls') : Pools (x >>= k) (ls ++ ls') := by
  constructor
  intro s t b hs h
  obtain ⟨a, u, hfirst, hrest⟩ := (outcome_bind_eq_ok s).mp h
  obtain ⟨hu, htexts⟩ := hx.adds hs hfirst
  obtain ⟨ht, htexts'⟩ := (hk a).adds hu hrest
  exact ⟨ht, by rw [htexts', htexts, List.map_append, List.append_assoc]⟩

/-- A step after which no string is added. -/
theorem first (hx : Pools x ls) (hk : ∀ a, Pools (k a) []) : Pools (x >>= k) ls := by
  have h := hx.bind hk
  rwa [List.append_nil] at h

/-- A step before which no string is added. -/
theorem last (hx : Pools x []) (hk : ∀ a, Pools (k a) ls) : Pools (x >>= k) ls := hx.bind hk

/-- A step that touches neither the strings nor the options. -/
theorem nothing (hglobals : ∀ s, (outcome x s).2.code.globals = s.code.globals)
    (hoptions : ∀ s, (outcome x s).2.options = s.options) : Pools x [] := by
  constructor
  intro s t a hs h
  have hg := hglobals s
  have ho := hoptions s
  rw [h] at hg ho
  exact ⟨by rw [ho, hs], by rw [Lowerer.texts, hg]; simp [Lowerer.texts]⟩

theorem pure (a : α) : Pools (pure a : LowerM α) [] := nothing (fun _ => rfl) (fun _ => rfl)

/-- A step that never succeeds. -/
theorem throw (e : LowerError) : Pools (throw e : LowerM α) ls := ⟨fun _ h => by cases h⟩

theorem get_bind {k : Lowerer → LowerM α} (hk : ∀ s, Pools (k s) ls) : Pools (get >>= k) ls :=
  ⟨fun {s _ _} hs h => (hk s).adds hs h⟩

/-- A step whose value is passed on. -/
theorem map (hx : Pools x ls) (g : α → β) :
    Pools (do return g (← x)) ls := hx.first fun _ => .pure _

theorem closingScope (hx : Pools x ls) : Pools (closingScope x) ls := by
  constructor
  intro s t a hs h
  obtain ⟨u, hbody, rfl⟩ := closingScope_succeeds h
  obtain ⟨hu, htexts⟩ := hx.adds hs hbody
  exact ⟨hu, htexts⟩

theorem changeScopes (change : ScopeStack → Except LowerError ScopeStack) :
    Pools (changeScopes change) [] := by
  refine nothing (fun s => ?_) (fun s => ?_) <;> rw [outcome_changeScopes] <;> split <;> rfl

theorem cursor : Pools cursor [] := by
  refine nothing (fun s => ?_) (fun s => ?_) <;> rw [Lowering.cursor, outcome_liftScopes]

theorem pushScope (c : Cursor) : Pools (pushScope c) [] := nothing (fun _ => rfl) (fun _ => rfl)

theorem addDecl (decl : Decl) : Pools (addDecl decl) [] := nothing (fun _ => rfl) (fun _ => rfl)

theorem updateFunction (func : FuncId) (change : IR.Function → α × IR.Function) :
    Pools (updateFunction func change) [] := nothing (fun _ => rfl) (fun _ => rfl)

theorem addFunction (name : String) (sig : IR.Signature) (linkage : IR.Linkage) :
    Pools (addFunction name sig linkage) [] := nothing (fun _ => rfl) (fun _ => rfl)

theorem emit (step : IR.Function → BlockId → Value × IR.Function) : Pools (emit step) [] :=
  cursor.last fun _ => updateFunction _ _

theorem addIncoming (func : FuncId) (phi value : Value) (source : BlockId) :
    Pools (addIncoming func phi value source) [] := by
  refine nothing (fun s => ?_) (fun s => ?_)
  all_goals
    obtain ⟨_, -, hout⟩ | ⟨_, hout⟩ := outcome_addIncoming_cases s func phi value source
    all_goals rw [hout]
    rfl

/-- The string of a literal is the only one that is ever added. -/
theorem addGlobalString (name raw : String) :
    Pools (addGlobalString name (literalText raw)) [raw] := by
  constructor
  intro s t a hs h
  cases h
  exact ⟨hs, by simp [Lowerer.texts]⟩

theorem materialize (value : Value) : Pools (materialize value) [] := by
  refine cursor.last fun c => Pools.last (get_bind fun _ => .pure _) fun ty => ?_
  split
  · exact updateFunction _ _
  · exact .pure _

end Pools

section Constructs

variable {x y z : LowerM (Option Value)} {ls ls₁ ls₂ ls₃ : List String}

namespace Pools

theorem required (hx : Pools x ls) (context : String) : Pools (required context x) ls := by
  refine hx.first fun value => ?_
  split
  · exact .pure _
  · exact .throw _

theorem operand (hx : Pools x ls) (context : String) : Pools (operand context x) ls :=
  (hx.required context).first materialize

theorem lowerIdent (name : String) : Pools (lowerIdent name) [] := by
  refine .get_bind fun s => ?_
  split
  · exact .pure _
  · exact .throw _

theorem lowerBinary (hx : Pools x ls₁) (hy : Pools y ls₂) (op : BinOp) :
    Pools (lowerBinary op x y) (ls₁ ++ ls₂) := by
  refine (hx.operand _).bind fun lhs => (hy.operand _).first fun rhs => ?_
  split
  · exact emit _
  · exact emit _
  · exact .throw _

theorem lowerAssign (hx : Pools x ls) (target : String) : Pools (lowerAssign target x) ls := by
  refine .get_bind fun s => ?_
  split
  · refine cursor.last fun c => Pools.last (.get_bind fun _ => .pure _) fun ty => ?_
    split
    · exact .get_bind fun _ => .throw _
    · exact (hx.operand _).first fun _ => emit _
  · exact .throw _

theorem lowerArg (hx : Pools x ls) (key : Option String) : Pools (lowerArg key x) ls := by
  refine (hx.required _).first fun value => ?_
  split
  · refine .get_bind fun s => ?_
    split
    · exact materialize _
    · exact .pure _
  · exact .pure _

theorem lowerCall {args : LowerM (List Value)} (hargs : Pools args ls) (callee : String)
    (count : Nat) :
    Pools (lowerCall callee count args) ls := by
  refine .get_bind fun s => ?_
  split
  · refine .get_bind fun s => ?_
    dsimp only
    split
    · exact hargs.first fun _ => emit _
    · exact Pools.last (.throw _) fun _ => hargs.first fun _ => emit _
  · exact .throw _

theorem lowerRegion {α : Type} {x : LowerM α} (hx : Pools x ls) (c : Cursor) :
    Pools (lowerRegion c x) ls :=
  (changeScopes _).last fun _ => hx.closingScope

theorem lowerIf (hx : Pools x ls₁) (hy : Pools y ls₂) (hz : Pools z ls₃) :
    Pools (lowerIf x y z) (ls₁ ++ (ls₂ ++ ls₃)) :=
  (hx.operand _).bind fun _ => cursor.last fun _ => (updateFunction _ _).last fun _ =>
    (updateFunction _ _).last fun _ => (updateFunction _ _).last fun _ =>
    (hy.lowerRegion _).bind fun _ =>
    (hz.lowerRegion _).first fun _ => .pure _

/-- The bound is lowered after the body. -/
theorem lowerLoopBody (hx : Pools x ls₁) (hy : Pools y ls₂) (before inside : Cursor)
    (start : Value) :
    Pools (lowerLoopBody before inside start x y) (ls₁ ++ ls₂) := by
  refine .get_bind fun s => ?_
  refine (updateFunction _ _).last fun counter => (addIncoming _ _ _ _).last fun _ =>
    (changeScopes _).last fun _ => hx.bind fun _ => (emit _).last fun next =>
    (hy.operand _).first fun bound => ?_
  exact cursor.last fun closing => (updateFunction _ _).last fun test =>
    (updateFunction _ _).last fun _ =>
    (updateFunction _ _).last fun _ => (updateFunction _ _).last fun after =>
    (updateFunction _ _).last fun _ =>
    (addIncoming _ _ _ _).last fun _ => .pure _

theorem lowerLoop (hx : Pools x ls₁) (hy : Pools y ls₂) (hz : Pools z ls₃) :
    Pools (lowerLoop x y z) (ls₁ ++ (ls₂ ++ ls₃)) :=
  (hx.operand _).bind fun _ => cursor.last fun _ => (updateFunction _ _).last fun _ =>
    (updateFunction _ _).last fun _ => ((hy.lowerLoopBody hz _ _ _).lowerRegion _).first fun _ =>
    (updateFunction _ _).last fun _ => .pure _

theorem lowerVar (hx : Pools x ls) (node : NodeId) (ty name : String) :
    Pools (lowerVar node ty name x) ls :=
  (emit _).last fun _ => (addDecl _).last fun _ => (changeScopes _).last fun _ =>
    (hx.lowerAssign _).first fun _ => .pure _

theorem declareParams (i : Nat) (params : List Param) : Pools (declareParams i params) [] := by
  induction params generalizing i with
  | nil => exact .pure _
  | cons p ps ih => exact (addDecl _).last fun _ => (changeScopes _).last fun _ => ih _

theorem lowerFn (hx : Pools x ls) (retTy : Option String) (name : String) (params : List Param)
    (returns : Bool) :
    Pools (lowerFn retTy name params returns x) ls := by
  refine (addFunction _ _ _).last fun func => (updateFunction _ _).last fun _ =>
    (updateFunction _ _).last fun entry =>
    (pushScope _).last fun _ => closingScope ?_
  refine (declareParams _ _).last fun _ => hx.first fun _ => ?_
  split
  · exact (emit _).last fun _ => .pure _
  · exact .pure _

end Pools

end Constructs

mutual

theorem lowerExpr_pools : ∀ e : Expr, Pools (lowerExpr e) e.literals
  | .int .. | .double .. => .pure _
  | .string _ raw => (Pools.addGlobalString _ raw).map _
  | .ident _ name => (Pools.lowerIdent name).map _
  | .call _ callee args => ((lowerArgs_pools args).lowerCall callee _).map _
  | .binary _ op left right => ((lowerExpr_pools left).lowerBinary (lowerExpr_pools right) op).map _
  | .assign _ target value => ((lowerExpr_pools value).lowerAssign target).map _
  | .ifElse _ cond thenBlock elseBlock =>
    ((lowerExpr_pools cond).lowerIf (lowerBlock_pools thenBlock) (lowerBlock_pools elseBlock)).map
      fun _ => none
  | .loop _ start limit body =>
    ((lowerExpr_pools start).lowerLoop (lowerBlock_pools body) (lowerExpr_pools limit)).map
      fun _ => none
  | .block _ body => lowerBlock_pools body

theorem lowerArgs_pools : ∀ args : List Expr, Pools (lowerArgs args) (argsLiterals args)
  | [] => .pure _
  | arg :: args => ((lowerExpr_pools arg).lowerArg _).bind fun _ => (lowerArgs_pools args).map _

theorem lowerStmt_pools : ∀ stmt : Stmt, Pools (lowerStmt stmt) stmt.literals
  | .expr _ value => lowerExpr_pools value
  | .ret _ none => (Pools.emit _).map _
  | .ret _ (some value) => (((lowerExpr_pools value).operand _).first fun _ => .emit _).map _
  | .var _ _ name none => (Pools.lowerIdent name).map _
  | .var id ty name (some init) => ((lowerExpr_pools init).lowerVar id ty name).map _
  | .fn _ retTy name params body =>
    ((lowerBlock_pools body).lowerFn retTy name params _).map fun _ => none
  | .block _ body => lowerBlock_pools body

theorem lowerBlock_pools : ∀ block : Block, Pools (lowerBlock block) block.literals
  | .mk _ stmts => lowerStmts_pools stmts none

theorem lowerStmts_pools : ∀ (stmts : List Stmt) (last : Option Value),
    Pools (lowerStmts last stmts) (stmtsLiterals stmts)
  | [], _ => .pure _
  | stmt :: stmts, last => by
    constructor
    intro s t r hs h
    obtain ⟨value, u, hstmt, hrest⟩ := lowerStmts_succeeds hs h
    obtain ⟨hu, htexts⟩ := (lowerStmt_pools stmt).adds hs hstmt
    obtain ⟨ht, htexts'⟩ := (lowerStmts_pools stmts value).adds hu hrest
    refine ⟨ht, ?_⟩
    rw [htexts', htexts, List.append_assoc, ← List.map_append]
    rfl

end

/-! ### Functions -/

/-- What can be seen of a declaration in the function that it becomes. -/
structure Realizes (d : Declaration) (f : IR.Function) : Prop where
  linkage : f.linkage = .internal
  sig : f.sig = { params := d.params.map fun p => typeOf p.ty, ret := returnType d.retTy }
  paramNames : f.paramNames = d.params.map (·.name)
  blocks : f.blocks ≠ []

/-- Naming parameters from position `i` on replaces the names that are there. -/
theorem paramNames_foldl (params : List Param) (i : Nat) (f : IR.Function)
    (h : i + params.length ≤ f.paramNames.length) :
    ((params.zipIdx i).foldl (fun f q => f.setParamName q.2 q.1.name) f).paramNames
      = f.paramNames.take i ++ params.map (·.name) ++ f.paramNames.drop (i + params.length) := by
  induction params generalizing i f with
  | nil => simp
  | cons p ps ih =>
    rw [List.length_cons] at h
    have hi : i < f.paramNames.length := by omega
    have hnames : (f.setParamName i p.name).paramNames
        = f.paramNames.take i ++ p.name :: f.paramNames.drop (i + 1) :=
      List.set_eq_take_append_cons_drop.trans (if_pos hi)
    have hlen : (f.paramNames.take i).length = i := List.length_take_of_le (Nat.le_of_lt hi)
    have htake : (f.setParamName i p.name).paramNames.take (i + 1)
        = f.paramNames.take i ++ [p.name] := by
      rw [hnames, List.take_append, hlen, List.take_of_length_le (by omega)]
      simp
    have hdrop : (f.setParamName i p.name).paramNames.drop (i + 1 + ps.length)
        = f.paramNames.drop (i + (ps.length + 1)) := by
      simp only [IR.Function.setParamName, List.drop_set]
      rw [if_pos (by omega)]
      congr 1
      omega
    rw [List.zipIdx_cons, List.foldl_cons, ih _ _ (by simp [IR.Function.setParamName]; omega),
      htake, hdrop]
    simp

theorem paramNames_openFunction (s : Lowerer) (name : String) (params : List Param) (ret : Ty) :
    ((s.openFunction name params ret).body s.nextFunction).paramNames = params.map (·.name) := by
  have hnew :
      ({ s with code := (s.code.addFunction name (Lowerer.signature params ret) .internal).2 } :
        Lowerer).body s.nextFunction
      = .new (s.code.names.next "." name) (Lowerer.signature params ret) .internal :=
    IR.Module.function_addFunction_self _ _ _
  have hbody : ((s.addFunction name params ret).body s.nextFunction).paramNames
      = (params.zipIdx.foldl (fun f q => IR.Function.setParamName f q.2 q.1.name)
          (.new (s.code.names.next "." name) (Lowerer.signature params ret)
            .internal)).paramNames := by
    rw [Lowerer.addFunction, Lowerer.body_update _ (by simp [Lowerer.nextFunction]),
      Lowerer.declareFunction, Lowerer.body_update _ (by simp [Lowerer.nextFunction]), hnew]
    rfl
  rw [Lowerer.openFunction, Lowerer.body, bindParams_code]
  refine hbody.trans ((paramNames_foldl params 0 _ ?_).trans ?_)
  all_goals simp [IR.Function.new, Lowerer.signature]

/-- A function keeps what it was opened with while its body is lowered. -/
theorem Defines.realizes {d : Declaration} {f : FuncId} {m : IR.Module} (h : Defines d f m) :
    Realizes d (m.function f) := by
  obtain @⟨s, t, result, hv, -, rfl, hbody, hfun, -⟩ := h
  have ho := opens_function s d.name d.params (returnType d.retTy)
  have ha := (lowerBlock_yields d.body _ (ho.valid hv)).advances (ho.valid hv) hbody
  have hgrows : ((s.openFunction d.name d.params (returnType d.retTy)).body
      s.nextFunction).GrowsAt 0 (t.body s.nextFunction) :=
    ha.body (ho.valid hv) ho.opened
  have hend : ((s.openFunction d.name d.params (returnType d.retTy)).body s.nextFunction).GrowsAt 0
      (m.function s.code.functions.length) := by
    rw [hfun]
    unfold Lowerer.endFunction
    split
    · have hlt := Nat.lt_of_lt_of_le ho.exists_block.1 ha.code.functions
      refine hgrows.trans ?_
      show (t.body s.nextFunction).GrowsAt 0 (Lowerer.body _ s.nextFunction)
      rw [Lowerer.body_update _ hlt]
      exact .push _ _ _ _ _
    · exact hgrows
  obtain ⟨names, hopened⟩ := body_addFunction s d.name d.params (returnType d.retTy)
  have hcode : (s.openFunction d.name d.params (returnType d.retTy)).body s.nextFunction
      = (s.addFunction d.name d.params (returnType d.retTy)).body s.nextFunction := by
    rw [Lowerer.openFunction, Lowerer.body, bindParams_code]
    rfl
  refine ⟨?_, ?_, ?_, ?_⟩
  · rw [hend.linkage, hcode, hopened]
    rfl
  · rw [hend.sig, hcode, hopened]
    rfl
  · rw [hend.paramNames, paramNames_openFunction]
  · have hlen := hend.blocks
    rw [hcode, hopened, IR.Function.createBlock_blocks_length] at hlen
    exact List.ne_nil_of_length_pos (Nat.lt_of_lt_of_le (Nat.succ_pos _) hlen)

/-! ### Programs -/

/-- The helper that prints a line. -/
def helperFunction (options : Options) : IR.Function :=
  (helperBody 0 (.global 0) (.new
    (IR.NameSupply.next ⟨["new_line", "printf"]⟩ "." options.helperName)
    { params := [.str], ret := .void } .concealed)).2

/-- What is left at the end of the three functions that are there from the start: the first two as
they were, and the entry function, which may have grown. -/
theorem lowerProgram_opening {root : Block} {options : Options} {l : Lowered}
    (h : lowerProgram root options = .ok l) (herrors : l.errors = []) :
    l.code.function 0 = printfFunction ∧ l.code.function 1 = helperFunction options ∧
      ((openModule options).2.function 2).GrowsAt 0 (l.code.function 2) := by
  obtain ⟨r, t, hok, hcode⟩ := lowerProgram_succeeds h herrors
  have hvalid := start_valid { options with policy := .failFast }
  have hgrows : CodeGrows (some entryCursor) (openModule options).2 t.code :=
    ((lowerBlock_yields root _ hvalid).advances hvalid hok).code
  have hclosed : CodeGrows (some entryCursor) (openModule options).2 l.code := by
    rw [hcode, closeModule]
    split
    · exact hgrows
    · exact hgrows.trans (.emit t entryCursor (.ret none) .void none)
  refine ⟨?_, ?_, hclosed.here entryCursor rfl (Nat.lt_succ_self 2)⟩
  · exact hclosed.others 0 (Nat.succ_pos 2) (by simp [entryCursor])
  · exact hclosed.others 1 (Nat.lt_of_succ_lt (Nat.lt_succ_self 2)) (by simp [entryCursor])

/-- **Nothing is lost and nothing is there twice.**  If a program lowers without an error, the
functions of its module are the printing function, the helper, the entry function and then one for
each declaration, which comes from the body of that declaration and has its signature and parameter
names; and the texts of its strings are a line break and then those of the literals, one for
each. -/
theorem lowerProgram_inventory {root : Block} {options : Options} {l : Lowered}
    (h : lowerProgram root options = .ok l) (herrors : l.errors = []) :
    (∃ entry declared, l.code.functions = printfFunction :: helperFunction options :: entry
      :: declared ∧
      (entry.linkage = .external ∧ entry.sig = { params := [], ret := .void } ∧ entry.blocks ≠ []) ∧
      List.Forall₂ Realizes root.declarations declared) ∧
    (∀ i d, root.declarations[i]? = some d → Defines d (3 + i) l.code) ∧
    l.code.globals.map (·.text) = "\n" :: root.literals.map literalText := by
  obtain ⟨hcount, hdefines⟩ := lowerProgram_declares h herrors
  obtain ⟨hprintf, hhelper, hentry⟩ := lowerProgram_opening h herrors
  refine ⟨⟨l.code.function 2, l.code.functions.drop 3, ?_, ⟨hentry.linkage, hentry.sig, ?_⟩, ?_⟩,
    fun i d hd => hdefines hd, ?_⟩
  · have hthree : ∀ j : Nat, j < 3 → l.code.functions[j]? = some (l.code.function j) :=
      fun j hj => IR.Module.getElem?_functions
        (Nat.lt_of_lt_of_le hj (hcount ▸ Nat.le_add_right 3 _))
    rw [← hprintf, ← hhelper]
    refine List.ext_getElem? fun i => ?_
    rcases i with _ | _ | _ | i
    · exact hthree 0 (by decide)
    · exact hthree 1 (by decide)
    · exact hthree 2 (by decide)
    · simp [Nat.add_comm 3 i]
  · exact List.ne_nil_of_length_pos (Nat.lt_of_lt_of_le (Nat.succ_pos 0) hentry.blocks)
  · refine List.forall₂_iff_get.mpr ⟨by rw [List.length_drop, hcount]; omega, fun i hi hi' => ?_⟩
    have hlt : 3 + i < l.code.functions.length := by rw [hcount]; omega
    have hfun : (l.code.functions.drop 3).get ⟨i, hi'⟩ = l.code.function (3 + i) := by
      simp [IR.Module.function, hlt]
    rw [hfun]
    exact (hdefines (List.getElem?_eq_getElem hi)).realizes
  · obtain ⟨r, t, hok, hcode⟩ := lowerProgram_succeeds h herrors
    have htexts := ((lowerBlock_pools root).adds rfl hok).2
    have hlast : (closeModule entryCursor t.code).globals = t.code.globals := by
      unfold closeModule
      split <;> rfl
    rw [hcode, hlast]
    exact htexts

/-- Functions and literals in an argument and in the bounds of a loop. -/
def scattered : Block :=
  .mk 0 [
    .expr 1 (.call 2 "printf" [.string 3 "\"%s\\n\"", .block 4 (.mk 5 [
      .fn 6 (some "int") "f" [⟨7, "int", "n"⟩]
      (.mk 8 [.fn 9 none "g" [] (.mk 10 []), .ret 11 (some (.ident 12 "n"))]),
      .expr 13 (.string 14 "\"argument\"")])]),
    .expr 15 (.loop 16
      (.block 17 (.mk 18 [.expr 19 (.string 20 "\"from\""), .expr 21 (.double 22 .one)]))
      (.block 23 (.mk 24 [.expr 25 (.string 26 "\"until\""), .expr 27 (.double 28 .one)]))
      (.mk 29 [.expr 30 (.string 31 "\"body\"")]))]

theorem lowerProgram_inventory_scattered :
    ∃ l entry f g, lowerProgram scattered {} = .ok l ∧ l.errors = [] ∧
      l.code.functions = [printfFunction, helperFunction {}, entry, f, g] ∧
      f.sig = { params := [.i64], ret := .i64 } ∧ f.paramNames = ["n"] ∧
      g.sig = { params := [], ret := .void } ∧ g.paramNames = [] ∧
      l.code.globals.map (·.text) = ["\n", "%s\n", "argument", "from", "body", "until"] := by
  have hrun : (match lowerProgram scattered {} with
      | .ok l => decide (l.errors = [])
      | .error _ => false) = true := by decide +kernel
  rcases h : lowerProgram scattered {} with e | l
  · simp [h] at hrun
  · simp only [h, decide_eq_true_eq] at hrun
    obtain ⟨⟨entry, declared, hfunctions, -, hrealizes⟩, -, htexts⟩ := lowerProgram_inventory h hrun
    obtain ⟨f, g, rfl, hf, hg⟩ : ∃ f g, declared = [f, g] ∧
        Realizes ⟨some "int", "f", [⟨7, "int", "n"⟩],
          .mk 8 [.fn 9 none "g" [] (.mk 10 []), .ret 11 (some (.ident 12 "n"))]⟩ f ∧
        Realizes ⟨none, "g", [], .mk 10 []⟩ g := by
      rcases hrealizes with _ | ⟨hf, _ | ⟨hg, _ | _⟩⟩
      exact ⟨_, _, rfl, hf, hg⟩
    exact ⟨l, entry, f, g, rfl, hrun, hfunctions, hf.sig, hf.paramNames, hg.sig, hg.paramNames,
      htexts.trans (by decide +kernel)⟩

end TreeCompiler.Lowering
