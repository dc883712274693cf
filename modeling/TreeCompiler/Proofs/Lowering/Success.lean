/-
Steps that succeed.

Under orders to stop at the first error, lowering that ends well has met none: every step of it has
succeeded.  So a construct that succeeds can be taken apart again.  For each construct the lemma
here says which parts it was made of, from which state each part was lowered, and how the state
after it comes from the states after its parts.

Properties of programs that lower without an error are proved along these lemmas, by recursion on
the tree.
-/
import TreeCompiler.Proofs.Lowering.Policy

namespace TreeCompiler.Lowering

open IR (FuncId BlockId InstId Ty Value Op)
open Program (Expr Stmt Block BinOp NodeId Param)

variable {α : Type} {s t : Lowerer} {c d : Cursor} {v w : Value} {r : Option Value}
  {x y z : LowerM (Option Value)}

/-- What a walk ends in advances the state it started from. -/
theorem Walks.advances {x : LowerM α} {Q : Lowerer → α → Prop} {result : Except LowerError α}
    (h : Walks s x Q) (hv : s.Valid) (hx : outcome x s = (result, t)) : Advances s t := by
  have hrun := h.runs
  rw [hx] at hrun
  exact hrun.advances hv

/-! ### Operands -/

theorem required_succeeds {context : String} (h : outcome (required context x) s = (.ok v, t)) :
    outcome x s = (.ok (some v), t) := by
  obtain ⟨result, u, hx, hk⟩ := (outcome_bind_eq_ok s).mp h
  cases result with
  | none => simp at hk
  | some w =>
    obtain ⟨rfl, rfl⟩ : w = v ∧ u = t := by simpa using hk
    exact hx

theorem cursor_succeeds (h : outcome cursor s = (.ok c, t)) : s.At c ∧ t = s := by
  rw [cursor, outcome_liftScopes] at h
  obtain ⟨hc, rfl⟩ := Prod.mk.inj h
  exact ⟨hc, rfl⟩

theorem emit_succeeds {step : IR.Function → BlockId → Value × IR.Function} {op : Op}
    (ty : IR.Function → Ty) (hstep : ∀ f b, step f b = f.push b op (ty f) none)
    (h : outcome (emit step) s = (.ok v, t)) :
    ∃ c, s.At c ∧ v = .inst (s.body c).insts.length ∧ t = s.emit c op (ty (s.body c)) none := by
  obtain ⟨c, u, hcur, hk⟩ := (outcome_bind_eq_ok s).mp h
  obtain ⟨hc, rfl⟩ := cursor_succeeds hcur
  rw [outcome_emitAt (hstep _ _)] at hk
  obtain ⟨rfl, rfl⟩ : .inst (u.body c).insts.length = v ∧ u.emit c op (ty (u.body c)) none = t := by
    simpa using hk
  exact ⟨c, hc, rfl, rfl⟩

/-- A slot is loaded; any other value is its own. -/
theorem materialize_succeeds (h : outcome (materialize v) s = (.ok w, t)) :
    ∃ c, s.At c ∧ ((s.body c).slotType v = none ∧ w = v ∧ t = s ∨
      ∃ ty, (s.body c).slotType v = some ty ∧ w = .inst (s.body c).insts.length ∧
        t = s.emit c (.load ty v) ty none) := by
  obtain ⟨c, u, hcur, hk⟩ := (outcome_bind_eq_ok s).mp h
  obtain ⟨hc, rfl⟩ := cursor_succeeds hcur
  refine ⟨c, hc, ?_⟩
  rw [outcome_bind_ok u _ (outcome_slotType c v)] at hk
  rcases hslot : (u.body c).slotType v with _ | ty
  · obtain ⟨rfl, rfl⟩ : v = w ∧ u = t := by simpa [hslot] using hk
    exact .inl ⟨rfl, rfl, rfl⟩
  · simp only [hslot] at hk
    have hload : outcome (emitAt c (·.load · ty v)) u
        = (.ok (.inst (u.body c).insts.length), u.emit c (.load ty v) ty none) := outcome_emitAt rfl
    rw [hload] at hk
    obtain ⟨rfl, rfl⟩ : .inst (u.body c).insts.length = w ∧ u.emit c (.load ty v) ty none = t := by
      simpa using hk
    exact .inr ⟨ty, rfl, rfl, rfl⟩

theorem operand_succeeds {context : String} (h : outcome (operand context x) s = (.ok w, t)) :
    ∃ v u, outcome x s = (.ok (some v), u) ∧ outcome (materialize v) u = (.ok w, t) := by
  obtain ⟨v, u, hreq, hmat⟩ := (outcome_bind_eq_ok s).mp h
  exact ⟨v, u, required_succeeds hreq, hmat⟩

theorem lowerIdent_succeeds {name : String} (h : outcome (lowerIdent name) s = (.ok v, t)) :
    s.scopes.resolve name = some v ∧ t = s := by
  rw [lowerIdent, outcome_get_bind] at h
  rcases hname : s.scopes.resolve name with _ | w
  · simp [hname] at h
  · obtain ⟨rfl, rfl⟩ : w = v ∧ s = t := by simpa [hname] using h
    exact ⟨rfl, rfl⟩

/-! ### Operators, assignments and calls -/

/-- What an operator becomes, with the type of its result. -/
def LoweredOp.inst (f : IR.Function) (lhs rhs : Value) : LoweredOp → Op × Ty
  | .arith op => (.arith op lhs rhs, f.valueType lhs)
  | .compare pred => (.fcmp pred lhs rhs, .i1)

theorem lowerBinary_succeeds {op : BinOp} (h : outcome (lowerBinary op x y) s = (.ok v, t)) :
    ∃ lhs u rhs u' lowered c, outcome (operand "left operand" x) s = (.ok lhs, u) ∧
      outcome (operand "right operand" y) u = (.ok rhs, u') ∧ lowerOp op = some lowered ∧ u'.At c ∧
      v = .inst (u'.body c).insts.length ∧
      t = u'.emit c (lowered.inst (u'.body c) lhs rhs).1
        (lowered.inst (u'.body c) lhs rhs).2 none := by
  obtain ⟨lhs, u, hl, hk⟩ := (outcome_bind_eq_ok s).mp h
  obtain ⟨rhs, u', hr, hk⟩ := (outcome_bind_eq_ok u).mp hk
  rcases hop : lowerOp op with _ | lowered
  · simp [hop] at hk
  · cases lowered with
    | arith a =>
      simp only [hop] at hk
      obtain ⟨c, hc, hv, ht⟩ := emit_succeeds (·.valueType lhs) (fun _ _ => rfl) hk
      exact ⟨lhs, u, rhs, u', _, c, hl, hr, rfl, hc, hv, ht⟩
    | compare pred =>
      simp only [hop] at hk
      obtain ⟨c, hc, hv, ht⟩ := emit_succeeds (fun _ => .i1) (fun _ _ => rfl) hk
      exact ⟨lhs, u, rhs, u', _, c, hl, hr, rfl, hc, hv, ht⟩

/-- The slot is looked up before the value is lowered. -/
theorem lowerAssign_succeeds {target : String} (h : outcome (lowerAssign target x) s = (.ok w, t)) :
    ∃ slot c ty v u d, s.scopes.resolve target = some slot ∧ s.At c ∧
      (s.body c).slotType slot = some ty ∧ outcome (operand "assigned value" x) s = (.ok v, u) ∧
      u.At d ∧ w = .inst (u.body d).insts.length ∧
      t = u.emit d (.store v slot true) .void none := by
  rw [lowerAssign, outcome_get_bind] at h
  rcases hname : s.scopes.resolve target with _ | slot
  · simp [hname] at h
  · simp only [hname] at h
    obtain ⟨c, u, hcur, hk⟩ := (outcome_bind_eq_ok s).mp h
    obtain ⟨hc, rfl⟩ := cursor_succeeds hcur
    rw [outcome_bind_ok u _ (outcome_slotType c slot)] at hk
    rcases hslot : (u.body c).slotType slot with _ | ty
    · simp [hslot] at hk
    · simp only [hslot] at hk
      obtain ⟨v, u', hx, hk⟩ := (outcome_bind_eq_ok u).mp hk
      obtain ⟨d, hd, hw, ht⟩ := emit_succeeds (fun _ => .void) (fun _ _ => rfl) hk
      exact ⟨slot, c, ty, v, u', d, rfl, hc, hslot, hx, hd, hw, ht⟩

theorem lowerArg_succeeds {key : Option String} (h : outcome (lowerArg key x) s = (.ok w, t)) :
    ∃ v u, outcome x s = (.ok (some v), u) ∧
      (w = v ∧ t = u ∨ outcome (materialize v) u = (.ok w, t)) := by
  obtain ⟨v, u, hreq, hk⟩ := (outcome_bind_eq_ok s).mp h
  refine ⟨v, u, required_succeeds hreq, ?_⟩
  cases key with
  | none =>
    obtain ⟨rfl, rfl⟩ : v = w ∧ u = t := by simpa using hk
    exact .inl ⟨rfl, rfl⟩
  | some name =>
    simp only [outcome_get_bind] at hk
    by_cases hdecl : (u.scopes.declOf name).isSome = true
    · simp only [hdecl, if_true] at hk
      exact .inr hk
    · obtain ⟨rfl, rfl⟩ : v = w ∧ u = t := by simpa [hdecl] using hk
      exact .inl ⟨rfl, rfl⟩

theorem lowerCall_succeeds {args : LowerM (List Value)} {callee : String} {count : Nat}
    (h : outcome (lowerCall callee count args) s = (.ok v, t)) :
    ∃ func values u c, outcome args s = (.ok values, u) ∧ u.At c ∧
      v = .inst (u.body c).insts.length ∧
      t = u.emit c (.call func values) (s.code.function func).sig.ret none := by
  rw [lowerCall, outcome_get_bind] at h
  rcases hfun : s.code.getFunction? callee with _ | func
  · simp [hfun] at h
  · simp only [hfun, outcome_get_bind] at h
    by_cases hcount : (s.code.function func).sig.accepts count = true
    · simp only [hcount, if_true] at h
      obtain ⟨values, u, hargs, hk⟩ := (outcome_bind_eq_ok s).mp h
      obtain ⟨c, hc, hv, ht⟩ :=
        emit_succeeds (fun _ => (s.code.function func).sig.ret) (fun _ _ => rfl) hk
      exact ⟨func, values, u, c, hargs, hc, hv, ht⟩
    · simp only [hcount] at h
      cases h

/-! ### Regions -/

theorem closingScope_succeeds {x : LowerM α} {a : α} (h : outcome (closingScope x) s = (.ok a, t)) :
    ∃ u, outcome x s = (.ok a, u) ∧ t = u.leave := by
  rcases hx : outcome x s with ⟨result, u⟩
  by_cases hu : u.scopes.scopes = []
  · rw [outcome_closingScope_empty hx hu] at h
    cases h
  · rw [outcome_closingScope hx hu] at h
    cases h
    exact ⟨u, rfl, rfl⟩

theorem lowerRegion_succeeds {x : LowerM α} {a : α} (h : outcome (lowerRegion d x) s = (.ok a, t)) :
    ∃ u, outcome x (s.enter d) = (.ok a, u) ∧ t = u.leave := by
  obtain ⟨_, u, hpush, hk⟩ := (outcome_bind_eq_ok s).mp h
  rw [outcome_pushScopeCopy] at hpush
  by_cases hs : s.scopes.scopes = []
  · simp [hs] at hpush
  · obtain rfl : s.enter d = u := by simpa [hs] using hpush
    exact closingScope_succeeds hk

theorem lowerIf_succeeds (hx : Yields x) (hv : s.Valid)
    (h : outcome (lowerIf x y z) s = (.ok (), t)) :
    ∃ cond u c result t₁ result' t₂, outcome (operand "condition" x) s = (.ok cond, u) ∧ u.At c ∧
      outcome y ((u.fork c cond).enter (u.nextCursor c)) = (.ok result, t₁) ∧
      outcome z (t₁.leave.enter { c with block := u.nextBlock c + 1 }) = (.ok result', t₂) ∧
      t = t₂.leave := by
  obtain ⟨cond, u, hcond, hk⟩ := (outcome_bind_eq_ok s).mp h
  have huv : u.Valid := ((walks_operand hx hv _).advances hv hcond).valid hv
  obtain ⟨c, u', hcur, harms⟩ := (outcome_bind_eq_ok u).mp hk
  obtain ⟨hc, rfl⟩ := cursor_succeeds hcur
  rw [outcome_fork (huv.cursor hc).1] at harms
  obtain ⟨result, left, hregion, hlater⟩ := (outcome_bind_eq_ok _).mp harms
  obtain ⟨t₁, hthen, rfl⟩ := lowerRegion_succeeds hregion
  obtain ⟨result', right, hregion', hend⟩ := (outcome_bind_eq_ok _).mp hlater
  obtain ⟨t₂, helse, rfl⟩ := lowerRegion_succeeds hregion'
  obtain rfl : t₂.leave = t := by simpa using hend
  exact ⟨cond, u', c, result, t₁, result', t₂, hcond, hc, hthen, helse, rfl⟩

theorem lowerLoop_succeeds (hx : Yields x) (hy : Yields y) (hz : Yields z) (hv : s.Valid)
    (h : outcome (lowerLoop x y z) s = (.ok (), t)) :
    ∃ start u c result t₁ bound t₂, outcome (operand "loop start" x) s = (.ok start, u) ∧ u.At c ∧
      outcome y (u.openLoop c start) = (.ok result, t₁) ∧
      outcome (operand "loop bound" z) (t₁.advance (u.nextCursor c) (u.counter c))
        = (.ok bound, t₂) ∧
      t = ((t₂.closeLoop (u.nextCursor c) (u.counter c) (t₁.body c).insts.length
        u.options.inductionName [(start, c.block)] bound).leave).emit
          { c with block := (t₂.body c).blocks.length } (.ret none) .void none := by
  obtain ⟨start, u, hstart, hk⟩ := (outcome_bind_eq_ok s).mp h
  have huv : u.Valid := ((walks_operand hx hv _).advances hv hstart).valid hv
  obtain ⟨c, u', hcur, hopen⟩ := (outcome_bind_eq_ok u).mp hk
  obtain ⟨hc, rfl⟩ := cursor_succeeds hcur
  rw [outcome_bind_ok u' _ (outcome_createBlock c.func "loop"),
    outcome_bind_ok _ _ (outcome_emitAt rfl)] at hopen
  obtain ⟨after, inner, hregion, hend⟩ := (outcome_bind_eq_ok (u'.jump c)).mp hopen
  obtain ⟨closed, hinside, rfl⟩ := lowerRegion_succeeds hregion
  have hloop := (outcome_lowerLoopBody huv hc start).symm.trans hinside
  have hov := (opens_loop huv hc start).valid huv
  obtain ⟨result, t₁, hbody, hstep⟩ := (outcome_bind_eq_ok _).mp hloop
  have hrun : Runs (u'.openLoop c start) t₁ := by simpa [hbody] using (hy _ hov).runs
  have hbegin := hrun.loopEnd huv hc (.refl _)
  have hnext : outcome (emit (·.arith · .fadd (.inst (u'.counter c)) (.float .one))) t₁
      = (.ok (.inst (t₁.body c).insts.length), t₁.advance (u'.nextCursor c) (u'.counter c)) :=
    outcome_emit hbegin.body_at rfl
  rw [outcome_bind_ok t₁ _ hnext] at hstep
  obtain ⟨bound, t₂, hbound, htest⟩ := (outcome_bind_eq_ok _).mp hstep
  have hrun' : Runs (t₁.advance (u'.nextCursor c) (u'.counter c)) t₂ := by
    simpa [hbound] using (walks_operand hz hbegin.bound_valid "loop bound").runs
  have hlast := hrun.loopEnd huv hc hrun'
  rw [outcome_bind_ok t₂ _ (outcome_cursor hlast.bound_at)] at htest
  have hclosed : ((.ok (t₂.body c).blocks.length : Except LowerError BlockId),
      t₂.closeLoop (u'.nextCursor c) (u'.counter c) (t₁.body c).insts.length
        u'.options.inductionName [(start, c.block)] bound) = (.ok after, closed) :=
    (outcome_closeLoop (hlast.bound_valid.cursor hlast.bound_at).1 hlast.counter
      (Nat.ne_of_lt hlast.counter_lt)).symm.trans htest
  cases hclosed
  rw [outcome_bind_ok _ _ (outcome_emitAt rfl)] at hend
  cases hend
  exact ⟨start, u', c, result, t₁, bound, t₂, hstart, hc, hbody, hbound, rfl⟩

/-! ### Statements -/

theorem lowerReturn_succeeds (h : outcome (lowerReturn (some x)) s = (.ok w, t)) :
    ∃ v u c, outcome (operand "return value" x) s = (.ok v, u) ∧ u.At c ∧
      w = .inst (u.body c).insts.length ∧ t = u.emit c (.ret (some v)) .void none := by
  obtain ⟨v, u, hx, hk⟩ := (outcome_bind_eq_ok s).mp h
  obtain ⟨c, hc, hw, ht⟩ := emit_succeeds (fun _ => .void) (fun _ _ => rfl) hk
  exact ⟨v, u, c, hx, hc, hw, ht⟩

theorem lowerReturn_none_succeeds (h : outcome (lowerReturn none) s = (.ok w, t)) :
    ∃ c, s.At c ∧ w = .inst (s.body c).insts.length ∧ t = s.emit c (.ret none) .void none := by
  obtain ⟨c, hc, hw, ht⟩ := emit_succeeds (fun _ => .void) (fun _ _ => rfl) h
  exact ⟨c, hc, hw, ht⟩

theorem lowerVar_succeeds {node : NodeId} {ty name : String}
    (h : outcome (lowerVar node ty name x) s = (.ok v, t)) :
    ∃ c w, s.At c ∧ v = .inst (s.body c).insts.length ∧
      outcome (lowerAssign name x) (s.declareVariable c node (typeOf ty) name) = (.ok w, t) := by
  obtain ⟨c, hc⟩ | hs := s.at_or_empty
  · rw [lowerVar, outcome_declareVariable hc] at h
    obtain ⟨w, u, hassign, hk⟩ := (outcome_bind_eq_ok _).mp h
    obtain ⟨rfl, rfl⟩ : .inst (s.body c).insts.length = v ∧ u = t := by simpa using hk
    exact ⟨c, w, hc, rfl, hassign⟩
  · rw [lowerVar, outcome_bind_error s _ (outcome_emit_empty hs)] at h
    cases h

/-- The end of a function body: a return, if the function has none of its own where one is looked
for. -/
def Lowerer.endFunction (s : Lowerer) (c : Cursor) (ret : Ty) (returns : Bool) : Lowerer :=
  if ret.isVoid && !returns then s.emit c (.ret none) .void none else s

theorem lowerFn_succeeds (hx : Yields x) (hv : s.Valid) {retTy : Option String} {name : String}
    {params : List Param} {returns : Bool}
    (h : outcome (lowerFn retTy name params returns x) s = (.ok (), t)) :
    ∃ result u, outcome x (s.openFunction name params (returnType retTy)) = (.ok result, u) ∧
      t = (u.endFunction s.nextFunction (returnType retTy) returns).leave := by
  have ho := opens_function s name params (returnType retTy)
  rw [outcome_openFunction] at h
  obtain ⟨u', hbody, rfl⟩ := closingScope_succeeds h
  rw [outcome_bind_ok _ _ (outcome_declareParams (by simp [Lowerer.enterEmpty, ScopeStack.push])
    0 params)] at hbody
  obtain ⟨result, u, hok, hk⟩ := (outcome_bind_eq_ok _).mp hbody
  refine ⟨result, u, hok, ?_⟩
  have hu : u.At s.nextFunction :=
    ((hx _ (ho.valid hv)).advances (ho.valid hv) hok).at_iff.mpr ho.opened
  unfold Lowerer.endFunction
  by_cases hend : ((returnType retTy).isVoid && !returns) = true
  · rw [if_pos hend] at hk ⊢
    rw [outcome_bind_ok u _ (outcome_emit hu rfl)] at hk
    cases hk
    rfl
  · rw [if_neg hend] at hk ⊢
    cases hk
    rfl

/-- Under orders to stop, a statement that is not left out has succeeded. -/
theorem recovering_succeeds (hx : Agrees x) (hs : s.options.policy = .failFast)
    (h : outcome (recovering x) s = (.ok r, t)) : outcome x s = (.ok r, t) := by
  rcases hout : outcome x s with ⟨e | a, u⟩
  · have hpolicy : u.options.policy = .failFast := by
      have hopt := hx.options s
      rw [hout] at hopt
      rw [show u.options = s.options from hopt, hs]
    rw [outcome_recovering_error hout, if_pos (by simp [hpolicy])] at h
    cases h
  · rw [outcome_recovering_ok hout] at h
    exact h

theorem lowerStmts_succeeds {stmt : Stmt} {stmts : List Stmt} {last : Option Value}
    (hs : s.options.policy = .failFast)
    (h : outcome (lowerStmts last (stmt :: stmts)) s = (.ok r, t)) :
    ∃ value u, outcome (lowerStmt stmt) s = (.ok value, u) ∧
      outcome (lowerStmts value stmts) u = (.ok r, t) := by
  rw [lowerStmts] at h
  obtain ⟨value, u, hstmt, hk⟩ := (outcome_bind_eq_ok s).mp h
  exact ⟨value, u, recovering_succeeds (lowerStmt_agrees stmt) hs hstmt, hk⟩

/-! ### Programs -/

/-- A program that is lowered without an error is lowered alike under orders to stop at the first
one. -/
theorem lowerProgram_strict {root : Block} {options : Options} {l : Lowered}
    (h : lowerProgram root options = .ok l) (herrors : l.errors = []) :
    ∃ r t, outcome (lowerBlock root) (start options) = (.ok r, t) ∧
      outcome (lowerBlock root) (start options).strict = (.ok r, t.strict) ∧
      l.code = closeModule entryCursor t.code := by
  rw [lowerProgram_eq] at h
  rcases hout : outcome (lowerBlock root) (start options) with ⟨e | r, t⟩
  · simp [hout] at h
  · obtain rfl : { code := closeModule entryCursor t.code, errors := t.errors } = l := by
      simpa [hout] using h
    refine ⟨r, t, rfl, ?_, rfl⟩
    cases hpolicy : options.policy with
    | failFast =>
      have hoptions : t.options = options := by
        have hopt := (lowerBlock_agrees root).options (start options)
        rwa [hout] at hopt
      have hstart : (start options).strict = start options := by
        rw [Lowerer.strict, show (start options).options = options from rfl, ← hpolicy]
        rfl
      have hend : t.strict = t := by
        rw [Lowerer.strict, hoptions, ← hpolicy, ← hoptions]
      rw [hstart, hend, hout]
    | bestEffort =>
      have hpar := (lowerBlock_agrees root).parallel (start options) hpolicy
      rw [hout] at hpar
      generalize outcome (lowerBlock root) (start options).strict = q at hpar
      cases hpar with
      | same => rfl
      | stopped hstopped =>
        rw [show t.errors = [] from herrors] at hstopped
        simp at hstopped

/-- A program that is lowered without an error is lowered by steps that all succeed, whatever the
policy. -/
theorem lowerProgram_succeeds {root : Block} {options : Options} {l : Lowered}
    (h : lowerProgram root options = .ok l) (herrors : l.errors = []) :
    ∃ r t, outcome (lowerBlock root) (start { options with policy := .failFast }) = (.ok r, t) ∧
      l.code = closeModule entryCursor t.code := by
  obtain ⟨r, t, -, hstrict, hcode⟩ := lowerProgram_strict h herrors
  exact ⟨r, t.strict, hstrict, hcode⟩

end TreeCompiler.Lowering
