/-
Walking a tree only does what a run can do.

Here the tree comes in, once and for all later properties.  Whatever a step of lowering is taken
for, an expression, an argument, a statement or a block, and whether it succeeds or fails, the state
it leaves is reached by a run (`Runs`); the value it has is at hand there (`Usable`); and it does
not fail by a fault of the compiler itself unless there is no region to work in.  `Walks` says this
of one step in one state.

Each construct has its lemma, which takes what is known of the parts and gives it for the whole.
The walk over the tree is then nothing but the list of constructs.
-/
import TreeCompiler.Proofs.Lowering.Advance

namespace TreeCompiler.Lowering

open IR (FuncId BlockId InstId Ty Value Op)
open Program (Expr Stmt Block BinOp NodeId Param)

variable {α β : Type} {s t : Lowerer} {c : Cursor}

/-- What holds of a step taken in a state: it does only what a run can do, its result satisfies `Q`
in the state after it, and it meets a fault of the compiler only if no region is open. -/
structure Walks (s : Lowerer) (x : LowerM α) (Q : Lowerer → α → Prop) : Prop where
  runs : Runs s (outcome x s).2
  value : ∀ a, (outcome x s).1 = .ok a → Q (outcome x s).2 a
  fault : ∀ e, (outcome x s).1 = .error e → e.isInternal = true → s.scopes.scopes = []

namespace Walks

variable {x : LowerM α} {Q : Lowerer → α → Prop}

theorem of_ok {a : α} (hx : outcome x s = (.ok a, t)) (hr : Runs s t) (hq : Q t a) :
    Walks s x Q where
  runs := by rwa [hx]
  value b hb := by
    rw [hx] at hb ⊢
    cases hb
    exact hq
  fault e he := by
    rw [hx] at he
    cases he

theorem of_error {e : LowerError} (hx : outcome x s = (.error e, t)) (hr : Runs s t)
    (hf : e.isInternal = true → s.scopes.scopes = []) : Walks s x Q where
  runs := by rwa [hx]
  value b hb := by
    rw [hx] at hb
    cases hb
  fault e' he := by
    rw [hx] at he
    cases he
    exact hf

theorem pure {a : α} (h : Q s a) : Walks s (pure a : LowerM α) Q := of_ok rfl (.refl s) h

/-- A step that fails because of the program. -/
theorem throw {e : LowerError} (h : e.isInternal = false) : Walks s (throw e : LowerM α) Q :=
  of_error rfl (.refl s) fun he => by rw [h] at he; cases he

/-- A step that fails because no region is open. -/
theorem of_empty {e : LowerError} (hx : outcome x s = (.error e, s)) (hs : s.scopes.scopes = []) :
    Walks s x Q :=
  of_error hx (.refl s) fun _ => hs

/-- How a step may end. -/
theorem cases (h : Walks s x Q) :
    (∃ a t, outcome x s = (.ok a, t) ∧ Runs s t ∧ Q t a) ∨
      ∃ e t, outcome x s = (.error e, t) ∧ Runs s t ∧
        (e.isInternal = true → s.scopes.scopes = []) := by
  rcases hx : outcome x s with ⟨e | a, t⟩
  · exact .inr ⟨e, t, rfl, by simpa [hx] using h.runs, h.fault e (by rw [hx])⟩
  · exact .inl ⟨a, t, rfl, by simpa [hx] using h.runs, by simpa [hx] using h.value a (by rw [hx])⟩

theorem bind {k : α → LowerM β} {R : Lowerer → β → Prop} (hx : Walks s x Q) (hv : s.Valid)
    (hk : ∀ a t, Advances s t → t.Valid → Q t a → Walks t (k a) R) : Walks s (x >>= k) R := by
  obtain ⟨a, t, hok, hr, hq⟩ | ⟨e, t, herr, hr, hf⟩ := hx.cases
  · have ha := hr.advances hv
    have hnext := hk a t ha (ha.valid hv) hq
    have hbind := outcome_bind_ok s k hok
    constructor
    · rw [hbind]
      exact hr.trans hnext.runs
    · rw [hbind]
      exact hnext.value
    · rw [hbind]
      exact fun e he hi => ha.scopes.nil_iff.mp (hnext.fault e he hi)
  · exact of_error (outcome_bind_error s k herr) hr hf

theorem congr {y : LowerM α} (h : Walks s y Q) (heq : outcome x s = outcome y s) :
    Walks s x Q :=
  ⟨heq ▸ h.runs, heq ▸ h.value, heq ▸ h.fault⟩

theorem get_bind {k : Lowerer → LowerM α} (h : Walks s (k s) Q) : Walks s (get >>= k) Q :=
  h.congr rfl

/-- A step that only looks at the state. -/
theorem look_bind {x : LowerM β} {b : β} {k : β → LowerM α} (hx : outcome x s = (.ok b, s))
    (h : Walks s (k b) Q) : Walks s (x >>= k) Q :=
  h.congr (outcome_bind_ok s k hx)

end Walks

/-- Either some region is open or none is. -/
theorem Lowerer.at_or_empty (s : Lowerer) : (∃ c, s.At c) ∨ s.scopes.scopes = [] := by
  rcases hs : s.scopes.scopes with _ | ⟨scope, rest⟩
  · exact .inr rfl
  · exact .inl ⟨scope.cursor, Lowerer.at_of_scopes hs⟩

theorem Lowerer.At.ne_nil (hc : s.At c) : s.scopes.scopes ≠ [] := by
  obtain ⟨scope, rest, hs, -⟩ := hc.scopes
  simp [hs]

/-! ### Adding an instruction -/

theorem getElem?_emit (hf : c.func < s.code.functions.length) (op : Op) (ty : Ty)
    (name : Option String) :
    ((s.emit c op ty name).body c).insts[(s.body c).insts.length]?
      = some { op, ty, name, block := c.block } := by
  rw [Lowerer.body_update _ hf]
  simp

/-- The result of the latest instruction is at hand. -/
theorem usable_emit (hv : s.Valid) (hc : s.At c) (op : Op) (ty : Ty) (name : Option String) :
    Usable (s.emit c op ty name) (.inst (s.body c).insts.length) :=
  .result (c := c) hc (getElem?_emit (hv.cursor hc).1 op ty name) rfl

theorem walks_emitAt {step : IR.Function → BlockId → Value × IR.Function} {op : Op} {ty : Ty}
    (hv : s.Valid) (hc : s.At c)
    (hstep : step (s.body c) c.block = (s.body c).push c.block op ty none)
    (hop : (s.body c).Plain s.code op ty) (huse : ∀ v ∈ op.operands, Usable s v) :
    Walks s (emitAt c step) Usable :=
  .of_ok (outcome_emitAt hstep) (.plain hc hop huse) (usable_emit hv hc op ty none)

theorem walks_emit {step : IR.Function → BlockId → Value × IR.Function} (op : Op)
    (ty : IR.Function → Ty) (hv : s.Valid) (hstep : ∀ f b, step f b = f.push b op (ty f) none)
    (hop : ∀ c, s.At c → (s.body c).Plain s.code op (ty (s.body c)))
    (huse : ∀ v ∈ op.operands, Usable s v) : Walks s (emit step) Usable := by
  obtain ⟨c, hc⟩ | hs := s.at_or_empty
  · exact .of_ok (outcome_emit hc (hstep _ _)) (.plain hc (hop c hc) huse)
      (usable_emit hv hc op _ none)
  · exact .of_empty (outcome_emit_empty hs) hs

/-! ### Operands, operators, assignments and calls -/

/-- A step for a part of the tree: from every state it walks, and its value, if any, is at hand. -/
def Yields (x : LowerM (Option Value)) : Prop :=
  ∀ s : Lowerer, s.Valid → Walks s x fun t result => ∀ v ∈ result, Usable t v

section Operands

variable {x y : LowerM (Option Value)}

theorem walks_required (hx : Yields x) (hv : s.Valid) (context : String) :
    Walks s (required context x) Usable := by
  refine (hx s hv).bind hv fun result t _ _ husable => ?_
  cases result with
  | none => exact .throw rfl
  | some v => exact .pure (husable v rfl)

theorem walks_materialize {v : Value} (hv : s.Valid) (hu : Usable s v) :
    Walks s (materialize v) Usable := by
  obtain ⟨c, hc⟩ | hs := s.at_or_empty
  · refine .look_bind (outcome_cursor hc) (.look_bind (outcome_slotType c v) ?_)
    split
    · rename_i ty hslot
      exact walks_emitAt hv hc rfl (.load hslot) (by simpa [Op.operands] using hu)
    · exact .pure hu
  · exact .of_empty (outcome_bind_error s _ (outcome_cursor_empty hs)) hs

theorem walks_operand (hx : Yields x) (hv : s.Valid) (context : String) :
    Walks s (operand context x) Usable :=
  (walks_required hx hv context).bind hv fun _ _ _ hv' hu => walks_materialize hv' hu

/-- What the innermost table binds a name to is at hand. -/
theorem usable_of_resolve {name : String} {v : Value} (h : s.scopes.resolve name = some v) :
    Usable s v := by
  unfold ScopeStack.resolve ScopeStack.lookup at h
  rcases hs : s.scopes.scopes with _ | ⟨scope, rest⟩
  · simp [hs] at h
  · simp only [hs, Option.map_eq_some_iff] at h
    obtain ⟨binding, hb, rfl⟩ := h
    obtain ⟨front, back, happ, -⟩ := List.lookup_eq_some_iff.mp hb
    have hmem : (name, binding) ∈ scope.bindings := by simp [happ]
    exact .bound hs hmem

theorem walks_lowerIdent (s : Lowerer) (name : String) : Walks s (lowerIdent name) Usable := by
  refine .get_bind ?_
  split
  · rename_i v hv
    exact .pure (usable_of_resolve hv)
  · exact .throw rfl

theorem walks_lowerBinary (hx : Yields x) (hy : Yields y) (hv : s.Valid) (op : BinOp) :
    Walks s (lowerBinary op x y) Usable := by
  refine (walks_operand hx hv _).bind hv fun lhs t _ hv' hl => ?_
  refine (walks_operand hy hv' _).bind hv' fun rhs u ha hv'' hr => ?_
  have huse : ∀ v ∈ [lhs, rhs], Usable u v := by
    intro v hmem
    obtain rfl | rfl : v = lhs ∨ v = rhs := by simpa using hmem
    · exact hl.advances ha hv'
    · exact hr
  split
  · exact walks_emit (.arith _ lhs rhs) (·.valueType lhs) hv'' (fun _ _ => rfl)
      (fun _ _ => .arith) huse
  · exact walks_emit (.fcmp _ lhs rhs) (fun _ => .i1) hv'' (fun _ _ => rfl) (fun _ _ => .fcmp) huse
  · exact .throw rfl

theorem walks_lowerAssign (hx : Yields x) (hv : s.Valid) (target : String) :
    Walks s (lowerAssign target x) Usable := by
  refine .get_bind ?_
  rcases hslot : s.scopes.resolve target with _ | slot
  · exact .throw rfl
  obtain ⟨c, hc⟩ | hs := s.at_or_empty
  · refine .look_bind (outcome_cursor hc) (.look_bind (outcome_slotType c slot) ?_)
    rcases hty : (s.body c).slotType slot with _ | ty
    · exact .get_bind (.throw rfl)
    refine (walks_operand hx hv _).bind hv fun v t ha hv' hu => ?_
    have hty' : (t.body c).slotType slot = some ty := by
      rw [(ha.body hv hc).slotType (IR.Function.knows_of_slotType hty), hty]
    refine walks_emit (.store v slot true) (fun _ => .void) hv' (fun _ _ => rfl) ?_ ?_
    · intro d hd
      rw [(ha.at_iff.mp hd).unique hc]
      exact .store hty'
    · intro w hmem
      obtain rfl | rfl : w = v ∨ w = slot := by simpa [Op.operands] using hmem
      · exact hu
      · exact (usable_of_resolve hslot).advances ha hv
  · exact .of_empty (outcome_bind_error s _ (outcome_cursor_empty hs)) hs

theorem walks_lowerArg (hx : Yields x) (hv : s.Valid) (key : Option String) :
    Walks s (lowerArg key x) Usable := by
  refine (walks_required hx hv _).bind hv fun v t _ hv' hu => ?_
  cases key with
  | none => exact .pure hu
  | some name =>
    refine .get_bind ?_
    split
    · exact walks_materialize hv' hu
    · exact .pure hu

theorem lt_of_getFunction? {m : IR.Module} {name : String} {func : FuncId}
    (h : m.getFunction? name = some func) : func < m.functions.length :=
  (List.findIdx?_eq_some_iff_getElem.mp h).1

theorem walks_lowerCall {args : LowerM (List Value)} {count : Nat} (hv : s.Valid)
    (hargs : Walks s args fun t vs => vs.length = count ∧ ∀ v ∈ vs, Usable t v)
    (callee : String) : Walks s (lowerCall callee count args) Usable := by
  refine .get_bind ?_
  rcases hfun : s.code.getFunction? callee with _ | func
  · exact .throw rfl
  refine .get_bind ?_
  have hlt := lt_of_getFunction? hfun
  by_cases hcount : (s.code.function func).sig.accepts count = true
  · simp only [hcount, if_true]
    refine hargs.bind hv fun vs t ha hv' ⟨hlen, hu⟩ => ?_
    refine walks_emit (.call func vs) (fun _ => (s.code.function func).sig.ret) hv'
      (fun _ _ => rfl) (fun _ _ => ?_) hu
    rw [← ha.sig hlt]
    exact .call (Nat.lt_of_lt_of_le hlt ha.code.functions) (by rw [ha.sig hlt, hlen, hcount])
  · simp only [hcount]
    exact .of_error rfl (.refl s) (by simp [LowerError.isInternal])

end Operands

/-! ### Conditionals -/

section Regions

variable {x y z : LowerM (Option Value)} {d : Cursor}

theorem outcome_lowerRegion {body : LowerM α} {r : Except LowerError α} (hs : s.scopes.scopes ≠ [])
    (hb : outcome body (s.enter d) = (r, t)) (ht : t.scopes.scopes ≠ []) :
    outcome (lowerRegion d body) s = (r, t.leave) := by
  have hpush : outcome (pushScopeCopy d) s = (.ok (), s.enter d) := by
    rw [outcome_pushScopeCopy, if_neg hs]
  rw [lowerRegion, outcome_bind_ok s _ hpush, outcome_closingScope hb ht]

/-- A region that is opened in a state `s'` with a region around it.  There is a region to work in,
so what fails in it fails because of the program. -/
theorem region_outcome {s' : Lowerer} {body : LowerM α} {Q : Lowerer → α → Prop}
    (ho : Opens s (s'.enter d) d) (hv : s.Valid) (hs : s'.scopes.scopes ≠ [])
    (hbody : Walks (s'.enter d) body Q) :
    ∃ r t, outcome (lowerRegion d body) s' = (r, t.leave) ∧ Runs (s'.enter d) t ∧
      Advances (s'.enter d) t ∧ (∀ a, r = .ok a → Q t a) ∧
      ∀ e, r = .error e → e.isInternal ≠ true := by
  rcases hb : outcome body (s'.enter d) with ⟨r, t⟩
  have hrun : Runs (s'.enter d) t := by simpa [hb] using hbody.runs
  have ha := hrun.advances (ho.valid hv)
  refine ⟨r, t, ?_, hrun, ha, ?_, ?_⟩
  · exact outcome_lowerRegion hs hb (ha.at_iff.mpr ho.opened).ne_nil
  · intro a hr
    simpa [hb] using hbody.value a (by rw [hb, hr])
  · intro e hr hi
    exact ho.opened.ne_nil (hbody.fault e (by rw [hb, hr]) hi)

/-- The steps that open a conditional. -/
theorem outcome_fork (hf : c.func < s.code.functions.length) (cond : Value)
    (k : BlockId → BlockId → LowerM α) :
    outcome (do
      let thenBlock ← createBlock c.func "then"
      let elseBlock ← createBlock c.func "else"
      let _ ← emitAt c (·.condBr · cond thenBlock elseBlock)
      k thenBlock elseBlock) s
      = outcome (k (s.nextBlock c) (s.nextBlock c + 1)) (s.fork c cond) := by
  have helse : ((s.addBlock c.func "then").code.function c.func).blocks.length
      = s.nextBlock c + 1 := by
    rw [Lowerer.function_update_self _ hf]
    simp [Lowerer.nextBlock, Lowerer.body]
  rw [outcome_bind_ok s _ (outcome_createBlock c.func "then"),
    outcome_bind_ok _ _ (outcome_createBlock c.func "else"), helse,
    outcome_bind_ok _ _ (outcome_emitAt rfl)]
  rfl

theorem walks_lowerIf (hx : Yields x) (hy : Yields y) (hz : Yields z) (hv : s.Valid) :
    Walks s (lowerIf x y z) fun _ _ => True := by
  refine (walks_operand hx hv _).bind hv fun cond s _ hv hcond => ?_
  obtain ⟨c, hc⟩ | hs := s.at_or_empty
  · refine .look_bind (outcome_cursor hc) ?_
    have hfork := outcome_fork (hv.cursor hc).1 cond fun thenBlock elseBlock => do
      let _ ← lowerRegion { c with block := thenBlock } y
      let _ ← lowerRegion { c with block := elseBlock } z
    have ho := opens_then hv hc cond
    obtain ⟨r, t, hthen, hrun, ha, -, hfault⟩ :=
      region_outcome ho hv hc.ne_nil (hy _ (ho.valid hv))
    cases r with
    | error e =>
      exact .of_error (hfork.trans (outcome_bind_error _ _ hthen)) (.branchBroken hc hcond hrun)
        fun hi => absurd hi (hfault e rfl)
    | ok v =>
      have ho' := opens_else hv hc ha
      obtain ⟨r, u, helse, hrun', -, -, hfault'⟩ :=
        region_outcome ho' hv (ho.leave_scopes ha ▸ hc.ne_nil) (hz _ (ho'.valid hv))
      have hrest := hfork.trans (outcome_bind_ok _ _ hthen)
      cases r with
      | error e =>
        exact .of_error (hrest.trans (outcome_bind_error _ _ helse)) (.branch hc hcond hrun hrun')
          fun hi => absurd hi (hfault' e rfl)
      | ok w =>
        exact .of_ok (hrest.trans (outcome_bind_ok _ _ helse)) (.branch hc hcond hrun hrun') trivial
  · exact .of_empty (outcome_bind_error s _ (outcome_cursor_empty hs)) hs

/-! ### Loops -/

/-- An instruction that is replaced as soon as it was added. -/
theorem replace_emit (hf : c.func < s.code.functions.length) (op op' : Op) (ty : Ty)
    (name : Option String) :
    (s.emit c op ty name).replace c.func (s.body c).insts.length
      { op := op', ty, name, block := c.block }
      = s.emit c op' ty name := by
  rw [Lowerer.replace, Lowerer.update_update _ hf]
  simp [Lowerer.update, IR.Function.push, Lowerer.body]

/-- A phi, its first input and its name. -/
theorem outcome_counter {start : Value} {source : BlockId} {name : String}
    (hf : d.func < s.code.functions.length) (hs : s.scopes.scopes ≠ []) (k : Value → LowerM α) :
    outcome (do
      let counter ← emitAt d (·.phi · .f64 name)
      addIncoming d.func counter start source
      declare name counter none
      k counter) s
      = outcome (k (.inst (s.body d).insts.length))
          ((s.emit d (.phi [(start, source)]) .f64 (some name)).bindName name
            (.inst (s.body d).insts.length) none) := by
  rw [outcome_bind_ok s _ (outcome_emitAt rfl),
    outcome_bind_ok _ _ (outcome_addIncoming (getElem?_emit hf _ _ _) start source),
    List.nil_append, replace_emit hf, outcome_bind_ok _ _ (outcome_declare (by exact hs) _ _ _)]

theorem body_testLoop (hf : d.func < s.code.functions.length) (next : InstId) (bound : Value) :
    (s.testLoop d next bound).body d =
      (((((s.body d).push d.block (.fcmp .ole (.inst next) bound) .i1 none).2.setValueName
        (.inst next) "nextvar").setValueName (.inst (s.body d).insts.length) "loopcond").createBlock
        "afterloop").2 := by
  rw [Lowerer.testLoop, Lowerer.body_update _ (by simpa using hf),
    Lowerer.body_update _ (by simpa using hf), Lowerer.body_update _ (by simpa using hf),
    Lowerer.body_update _ hf]

/-- Instructions other than the two that get a name stay as they are. -/
theorem getElem?_testLoop {k next : InstId} {i : IR.Inst} (hf : d.func < s.code.functions.length)
    (hk : (s.body d).insts[k]? = some i) (hnext : k ≠ next) (bound : Value) :
    ((s.testLoop d next bound).body d).insts[k]? = some i := by
  have hlt : k < (s.body d).insts.length := (List.getElem?_eq_some_iff.mp hk).1
  rw [body_testLoop hf, IR.Function.createBlock_insts,
    IR.Function.setValueName_getElem?_ne (Nat.ne_of_lt hlt),
    IR.Function.setValueName_getElem?_ne hnext]
  exact (IR.Function.GrowsAt.push _ _ _ _ _).some_of_some hk

/-- The test, the branch back and the second input of the phi. -/
theorem outcome_closeLoop {k next : InstId} {name : String} {incoming : List (Value × BlockId)}
    {bound : Value} (hf : d.func < s.code.functions.length)
    (hk : (s.body d).insts[k]?
      = some { op := .phi incoming, ty := .f64, name := some name, block := d.block })
    (hnext : k ≠ next) :
    outcome (do
      let test ← emitAt d (·.fcmp · .ole (.inst next) bound)
      nameValue d.func (.inst next) "nextvar"
      nameValue d.func test "loopcond"
      let after ← createBlock d.func "afterloop"
      let _ ← emitAt d (·.condBr · test d.block after)
      addIncoming d.func (.inst k) (.inst next) d.block
      return after) s
      = (.ok (s.body d).blocks.length, s.closeLoop d k next name incoming bound) := by
  have hafter : ((((s.emit d (.fcmp .ole (.inst next) bound) .i1 none).rename d.func (.inst next)
      "nextvar").rename d.func (.inst (s.body d).insts.length) "loopcond").code.function
      d.func).blocks.length = (s.body d).blocks.length := by
    rw [Lowerer.function_update_self _ (by simpa using hf),
      Lowerer.function_update_self _ (by simpa using hf), Lowerer.function_update_self _ hf]
    simp [Lowerer.body]
  have hphi : (((s.testLoop d next bound).emit d (.condBr (.inst (s.body d).insts.length)
      d.block (s.body d).blocks.length) .void none).code.function d.func).insts[k]?
      = some { op := .phi incoming, ty := .f64, name := some name, block := d.block } := by
    rw [Lowerer.function_update_self _ (by simpa [Lowerer.testLoop] using hf)]
    exact (IR.Function.GrowsAt.push _ _ _ _ _).some_of_some (getElem?_testLoop hf hk hnext bound)
  rw [outcome_bind_ok s _ (outcome_emitAt rfl), outcome_bind_ok _ _ (outcome_nameValue _ _ _),
    outcome_bind_ok _ _ (outcome_nameValue _ _ _), outcome_bind_ok _ _ (outcome_createBlock _ _),
    hafter, outcome_bind_ok _ _ (outcome_emitAt rfl)]
  exact outcome_bind_ok _ _ (outcome_addIncoming hphi _ _)

theorem counter_eq (hv : s.Valid) (hc : s.At c) :
    (((s.jump c).enter (s.nextCursor c)).body (s.nextCursor c)).insts.length = s.counter c := by
  show (((s.jump c).enter (s.nextCursor c)).code.function c.func).insts.length = _
  rw [enter_code]
  show ((s.jump c).body c).insts.length = _
  rw [body_jump (hv.cursor hc).1]
  simp [Lowerer.counter]

/-- The counter of a loop that has just been opened. -/
theorem getElem?_counter (hv : s.Valid) (hc : s.At c) (start : Value) :
    ((s.openLoop c start).body (s.nextCursor c)).insts[s.counter c]?
      = some { op := .phi [(start, c.block)], ty := .f64, name := some s.options.inductionName,
               block := s.nextBlock c } := by
  have ho := opens_jump hv hc
  have hphi := getElem?_emit ho.exists_block.1 (.phi [(start, c.block)]) .f64
    (some s.options.inductionName)
  rw [counter_eq hv hc] at hphi
  have hbind := advances_bindName (((s.jump c).enter (s.nextCursor c)).emit (s.nextCursor c)
    (.phi [(start, c.block)]) .f64 (some s.options.inductionName)) s.options.inductionName
    (.inst (s.counter c)) none
  exact (hbind.body ((advances_emit ho.opened _ _ _).valid (ho.valid hv)) ho.opened).some_of_some
    hphi

/-- What is known at the end of a loop, after its body and its bound: the counter is still there,
and the next value of the counter is at hand. -/
structure LoopEnd (s t u : Lowerer) (c : Cursor) (start : Value) : Prop where
  body_at : t.At (s.nextCursor c)
  bound_at : u.At (s.nextCursor c)
  bound_valid : u.Valid
  step : ∀ v ∈ (Op.arith .fadd (.inst (s.counter c)) (.float .one)).operands, Usable t v
  counter : (u.body (s.nextCursor c)).insts[s.counter c]?
    = some { op := .phi [(start, c.block)], ty := .f64, name := some s.options.inductionName,
             block := s.nextBlock c }
  counter_lt : s.counter c < (t.body c).insts.length
  next : Usable u (.inst (t.body c).insts.length)

theorem Runs.loopEnd {u : Lowerer} {start : Value} (hv : s.Valid) (hc : s.At c)
    (hbody : Runs (s.openLoop c start) t)
    (hlimit : Runs (t.advance (s.nextCursor c) (s.counter c)) u) : LoopEnd s t u c start := by
  have ho := opens_loop hv hc start
  have ha := hbody.advances (ho.valid hv)
  have htv := ha.valid (ho.valid hv)
  have hct : t.At (s.nextCursor c) := ha.at_iff.mpr ho.opened
  have hphi := (ha.body (ho.valid hv) ho.opened).some_of_some (getElem?_counter hv hc start)
  have hnext : Advances t (t.advance (s.nextCursor c) (s.counter c)) := advances_emit hct _ _ _
  have hau := hlimit.advances (hnext.valid htv)
  refine ⟨hct, hau.at_iff.mpr hct, hau.valid (hnext.valid htv), fun v hmem => ?_, ?_, ?_, ?_⟩
  · obtain rfl | rfl : v = .inst (s.counter c) ∨ v = .float .one := by
      simpa [Op.operands] using hmem
    · exact .result hct hphi rfl
    · exact .const _
  · exact ((hnext.trans hau).body htv hct).some_of_some hphi
  · exact (List.getElem?_eq_some_iff.mp hphi).1
  · exact (usable_emit htv hct _ _ _).advances hau (hnext.valid htv)

/-- The inside of a loop, once it has its counter. -/
theorem outcome_lowerLoopBody (hv : s.Valid) (hc : s.At c) (start : Value) :
    outcome (lowerLoopBody c (s.nextCursor c) start x y) ((s.jump c).enter (s.nextCursor c))
      = outcome (do
          let _ ← x
          let next ← emit (·.arith · .fadd (.inst (s.counter c)) (.float .one))
          let bound ← operand "loop bound" y
          let closing ← cursor
          let test ← emitAt closing (·.fcmp · .ole next bound)
          nameValue c.func next "nextvar"
          nameValue c.func test "loopcond"
          let after ← createBlock c.func "afterloop"
          let _ ← emitAt closing (·.condBr · test (s.nextBlock c) after)
          addIncoming c.func (.inst (s.counter c)) next closing.block
          return after) (s.openLoop c start) := by
  have ho := opens_jump hv hc
  have hinduction : ((s.jump c).enter (s.nextCursor c)).options.inductionName
      = s.options.inductionName := by
    rw [ho.options]
  rw [lowerLoopBody, outcome_get_bind, hinduction]
  refine (outcome_counter ho.exists_block.1 ho.opened.ne_nil _).trans ?_
  rw [counter_eq hv hc]
  rfl

/-- The inside of a loop ends before its test, or it gets one. -/
theorem lowerLoopBody_cases (hx : Yields x) (hy : Yields y) (hv : s.Valid) (hc : s.At c)
    (start : Value) :
    (∃ e t, outcome (lowerLoopBody c (s.nextCursor c) start x y)
        ((s.jump c).enter (s.nextCursor c)) = (.error e, t) ∧
      Runs (s.openLoop c start) t ∧ e.isInternal ≠ true) ∨
    ∃ t u bound, outcome (lowerLoopBody c (s.nextCursor c) start x y)
        ((s.jump c).enter (s.nextCursor c))
      = (.ok (u.body c).blocks.length, u.closeLoop (s.nextCursor c) (s.counter c)
          (t.body c).insts.length s.options.inductionName [(start, c.block)] bound) ∧
      Runs (s.openLoop c start) t ∧ Runs (t.advance (s.nextCursor c) (s.counter c)) u ∧
      Usable u bound := by
  have ho := opens_loop hv hc start
  have hov := ho.valid hv
  rw [outcome_lowerLoopBody hv hc start]
  obtain ⟨_, t, hok, hrun, -⟩ | ⟨e, t, herr, hrun, hfault⟩ := (hx _ hov).cases
  · have hstep := hrun.loopEnd hv hc (.refl _)
    have hnext : outcome (emit (·.arith · .fadd (.inst (s.counter c)) (.float .one))) t
        = (.ok (.inst (t.body c).insts.length), t.advance (s.nextCursor c) (s.counter c)) :=
      outcome_emit hstep.body_at rfl
    have hadvance : Runs t (t.advance (s.nextCursor c) (s.counter c)) :=
      .plain hstep.body_at .arith hstep.step
    obtain ⟨bound, u, hok', hrun', hb⟩ | ⟨e, u, herr', hrun', hfault'⟩ :=
      (walks_operand hy hstep.bound_valid "loop bound").cases
    · have hend := hrun.loopEnd hv hc hrun'
      refine .inr ⟨t, u, bound, ?_, hrun, hrun', hb⟩
      rw [outcome_bind_ok _ _ hok, outcome_bind_ok _ _ hnext, outcome_bind_ok _ _ hok',
        outcome_bind_ok _ _ (outcome_cursor hend.bound_at)]
      exact outcome_closeLoop (hend.bound_valid.cursor hend.bound_at).1 hend.counter
        (Nat.ne_of_lt hend.counter_lt)
    · refine .inl ⟨e, u, ?_, (hrun.trans hadvance).trans hrun', fun hi =>
        hstep.bound_at.ne_nil (hfault' hi)⟩
      rw [outcome_bind_ok _ _ hok, outcome_bind_ok _ _ hnext, outcome_bind_error _ _ herr']
  · exact .inl ⟨e, t, outcome_bind_error _ _ herr, hrun, fun hi => ho.opened.ne_nil (hfault hi)⟩

theorem walks_lowerLoop (hx : Yields x) (hy : Yields y) (hz : Yields z) (hv : s.Valid) :
    Walks s (lowerLoop x y z) fun _ _ => True := by
  refine (walks_operand hx hv _).bind hv fun start s _ hv hstart => ?_
  obtain ⟨c, hc⟩ | hs := s.at_or_empty
  · refine .look_bind (outcome_cursor hc) ?_
    have hjump : ∀ k : LowerM Unit, outcome (do
        let _ ← emitAt c (·.br · (s.nextBlock c))
        k) (s.addBlock c.func "loop") = outcome k (s.jump c) := fun k =>
      outcome_bind_ok _ _ (outcome_emitAt rfl)
    have ho := opens_loop hv hc start
    have hov := ho.valid hv
    obtain ⟨e, t, herr, hrun, hfault⟩ | ⟨t, u, bound, hok, hrun, hrun', hb⟩ :=
      lowerLoopBody_cases hy hz hv hc start
    · have hregion := outcome_lowerRegion (s := s.jump c) hc.ne_nil herr
        ((hrun.advances hov).at_iff.mpr ho.opened).ne_nil
      refine .of_error ?_ (.loopBroken hc hstart hrun) fun hi => absurd hi hfault
      rw [outcome_bind_ok s _ (outcome_createBlock c.func "loop")]
      exact (hjump _).trans (outcome_bind_error _ _ hregion)
    · have hregion := outcome_lowerRegion (s := s.jump c) hc.ne_nil hok
        (hrun.loopEnd hv hc hrun').bound_at.ne_nil
      refine .of_ok (a := ()) ?_ (.loop hc hstart hrun hrun' hb) trivial
      rw [outcome_bind_ok s _ (outcome_createBlock c.func "loop")]
      refine (hjump _).trans ((outcome_bind_ok _ _ hregion).trans ?_)
      rw [outcome_bind_ok _ _ (outcome_emitAt rfl)]
      rfl
  · exact .of_empty (outcome_bind_error s _ (outcome_cursor_empty hs)) hs

/-! ### Statements -/

theorem walks_lowerReturn (hx : Yields x) (hv : s.Valid) :
    Walks s (lowerReturn (some x)) Usable := by
  refine (walks_operand hx hv _).bind hv fun v t _ hv' hu => ?_
  exact walks_emit (.ret (some v)) (fun _ => .void) hv' (fun _ _ => rfl) (fun _ _ => .ret)
    (by simpa [Op.operands] using hu)

theorem walks_lowerReturn_none (hv : s.Valid) : Walks s (lowerReturn none) Usable :=
  walks_emit (.ret none) (fun _ => .void) hv (fun _ _ => rfl) (fun _ _ => .ret)
    (by simp [Op.operands])

/-- The steps that make a variable. -/
theorem outcome_declareVariable (hc : s.At c) (node : NodeId) (ty : Ty) (name : String)
    (k : Value → LowerM α) :
    outcome (do
      let slot ← emit (·.alloca · ty name)
      let id ← addDecl { node, name, ty, kind := .variable }
      declare name slot (some id)
      k slot) s
      = outcome (k (.inst (s.body c).insts.length)) (s.declareVariable c node ty name) := by
  rw [outcome_bind_ok s _ (outcome_emit hc rfl), outcome_bind_ok _ _ (outcome_addDecl _),
    outcome_bind_ok _ _ (outcome_declare (by exact hc.ne_nil) _ _ _)]
  rfl

theorem walks_lowerVar (hx : Yields x) (hv : s.Valid) (node : NodeId) (ty name : String) :
    Walks s (lowerVar node ty name x) Usable := by
  obtain ⟨c, hc⟩ | hs := s.at_or_empty
  · have hrun : Runs s (s.declareVariable c node (typeOf ty) name) := .slot hc node (typeOf ty) name
    have ha := hrun.advances hv
    have hslot : Usable (s.declareVariable c node (typeOf ty) name)
        (.inst (s.body c).insts.length) :=
      (usable_emit hv hc _ _ _).advances ((advances_record _ _).trans (advances_bindName _ _ _ _))
        ((advances_emit hc _ _ _).valid hv)
    have hrest : Walks (s.declareVariable c node (typeOf ty) name) (do
        let _ ← lowerAssign name x
        return Value.inst (s.body c).insts.length) Usable := by
      refine (walks_lowerAssign hx (ha.valid hv) name).bind (ha.valid hv) fun _ t ha' _ _ => ?_
      exact .pure (hslot.advances ha' (ha.valid hv))
    have heq := outcome_declareVariable hc node (typeOf ty) name fun slot => do
      let _ ← lowerAssign name x
      return slot
    refine ⟨?_, ?_, ?_⟩
    · rw [lowerVar, heq]
      exact hrun.trans hrest.runs
    · rw [lowerVar, heq]
      exact hrest.value
    · rw [lowerVar, heq]
      exact fun e he hi => ha.scopes.nil_iff.mp (hrest.fault e he hi)
  · exact .of_empty (outcome_bind_error s _ (outcome_emit_empty hs)) hs

theorem outcome_declareParams (hs : s.scopes.scopes ≠ []) (i : Nat) (params : List Param) :
    outcome (declareParams i params) s = (.ok (), s.bindParams i params) := by
  induction params generalizing s i with
  | nil => rfl
  | cons p ps ih =>
    rw [declareParams, outcome_bind_ok s _ (outcome_addDecl _),
      outcome_bind_ok _ _ (outcome_declare (by exact hs) _ _ _), Lowerer.bindParams]
    refine ih (mt (KeepsScopes.nil_iff ?_).mp hs) _
    exact ((advances_record s _).trans (advances_bindName _ _ _ _)).scopes

/-- The first block of a function. -/
theorem outcome_createEntry (s : Lowerer) (name : String) (params : List Param) (ret : Ty) :
    outcome (createBlock s.nextFunction.func "entry") (s.declareFunction name params ret)
      = (.ok s.nextFunction.block, s.addFunction name params ret) := by
  have hentry : ((s.declareFunction name params ret).code.function
      s.nextFunction.func).blocks.length = s.nextFunction.block := by
    obtain ⟨names, hbody⟩ := body_declareFunction s name params ret
    show ((s.declareFunction name params ret).body s.nextFunction).blocks.length = 0
    rw [hbody]
    rfl
  rw [outcome_createBlock, hentry]
  rfl

/-- The steps that open a function. -/
theorem outcome_openFunction (s : Lowerer) (retTy : Option String) (name : String)
    (params : List Param) (returns : Bool) :
    outcome (lowerFn retTy name params returns x) s
      = outcome (closingScope do
          declareParams 0 params
          let _ ← x
          if (returnType retTy).isVoid && !returns then
            let _ ← emit (·.ret · none))
        ((s.addFunction name params (returnType retTy)).enterEmpty s.nextFunction) := by
  rw [lowerFn, outcome_bind_ok s _ (outcome_addFunction _ _ _),
    outcome_bind_ok _ _ (outcome_updateFunction _ _)]
  exact outcome_bind_ok (s.declareFunction name params (returnType retTy)) _
    (outcome_createEntry s name params (returnType retTy))

theorem walks_lowerFn (hx : Yields x) (hv : s.Valid) (retTy : Option String) (name : String)
    (params : List Param) (returns : Bool) :
    Walks s (lowerFn retTy name params returns x) fun _ _ => True := by
  have ho := opens_function s name params (returnType retTy)
  have hov := ho.valid hv
  have hbody : Walks (s.openFunction name params (returnType retTy)) (do
      let _ ← x
      if (returnType retTy).isVoid && !returns then
        let _ ← emit (·.ret · none)) fun _ _ => True := by
    refine (hx _ hov).bind hov fun _ t _ hv' _ => ?_
    split
    · exact (walks_lowerReturn_none hv').bind hv' fun _ _ _ _ _ => .pure trivial
    · exact .pure trivial
  rcases hb : outcome (do
      let _ ← x
      if (returnType retTy).isVoid && !returns then
        let _ ← emit (·.ret · none)) (s.openFunction name params (returnType retTy)) with ⟨r, t⟩
  have hrun := hbody.runs
  rw [hb] at hrun
  have hne := ((hrun.advances hov).at_iff.mpr ho.opened).ne_nil
  have heq : outcome (lowerFn retTy name params returns x) s = (r, t.leave) := by
    rw [outcome_openFunction]
    refine outcome_closingScope ?_ hne
    exact (outcome_bind_ok _ _
      (outcome_declareParams (by simp [Lowerer.enterEmpty, ScopeStack.push])
      0 params)).trans hb
  cases r with
  | ok a => exact .of_ok heq (.function name params _ hrun) trivial
  | error e =>
    exact .of_error heq (.function name params _ hrun) fun hi =>
      absurd (hbody.fault e (by rw [hb]) hi) ho.opened.ne_nil

/-- A statement that is left out adds its error to what was done for it. -/
theorem yields_recovering (hx : Yields x) : Yields (recovering x) := by
  intro s hv
  obtain ⟨v, t, hok, hrun, hu⟩ | ⟨e, t, herr, hrun, hfault⟩ := (hx s hv).cases
  · exact .of_ok (outcome_recovering_ok hok) hrun hu
  · have hrec := outcome_recovering_error herr
    by_cases hstop : (e.isInternal || decide (t.options.policy = .failFast)) = true
    · rw [if_pos hstop] at hrec
      exact .of_error hrec hrun hfault
    · rw [if_neg hstop] at hrec
      have he : e.isInternal = false := by
        cases hi : e.isInternal
        · rfl
        · simp [hi] at hstop
      exact .of_ok hrec (hrun.trans (.error t he)) (by simp)

end Regions

/-! ### The walk -/

/-- A step that always has a value. -/
theorem yields_some {x : LowerM Value} (hx : ∀ s : Lowerer, s.Valid → Walks s x Usable) :
    Yields (do return some (← x)) := by
  intro s hv
  exact (hx s hv).bind hv fun v t _ _ hu => .pure (by simpa using hu)

/-- A step that never has one. -/
theorem yields_none {x : LowerM Unit}
    (hx : ∀ s : Lowerer, s.Valid → Walks s x fun _ _ => True) :
    Yields (do x; return none) := by
  intro s hv
  exact (hx s hv).bind hv fun _ t _ _ _ => .pure (by simp)

mutual

/-- **What lowering does for an expression is a run**, and the value it has is at hand after it. -/
theorem lowerExpr_yields : ∀ e : Expr, Yields (lowerExpr e)
  | .int _ value => fun _ _ => .pure (by simpa using .const _)
  | .double _ value => fun _ _ => .pure (by simpa using .const _)
  | .string _ raw => by
    refine yields_some fun s _ => ?_
    refine .of_ok (outcome_addGlobalString _ _) (.string s _ _) (.global ?_)
    simp [IR.Module.addGlobalString]
  | .ident _ name => yields_some fun s _ => walks_lowerIdent s name
  | .call _ callee args =>
    yields_some fun s hv => walks_lowerCall hv (lowerArgs_walks args s hv) callee
  | .binary _ op left right =>
    yields_some fun _ hv => walks_lowerBinary (lowerExpr_yields left) (lowerExpr_yields right) hv op
  | .assign _ target value =>
    yields_some fun _ hv => walks_lowerAssign (lowerExpr_yields value) hv target
  | .ifElse _ cond thenBlock elseBlock => yields_none fun _ hv =>
    walks_lowerIf (lowerExpr_yields cond) (lowerBlock_yields thenBlock)
      (lowerBlock_yields elseBlock) hv
  | .loop _ start limit body => yields_none fun _ hv =>
    walks_lowerLoop (lowerExpr_yields start) (lowerBlock_yields body) (lowerExpr_yields limit) hv
  | .block _ body => lowerBlock_yields body

theorem lowerArgs_walks : ∀ (args : List Expr) (s : Lowerer), s.Valid →
    Walks s (lowerArgs args) fun t vs => vs.length = args.length ∧ ∀ v ∈ vs, Usable t v
  | [], s, _ => .pure (by simp)
  | arg :: args, s, hv => by
    refine (walks_lowerArg (lowerExpr_yields arg) hv _).bind hv fun v t _ hv' hu => ?_
    refine (lowerArgs_walks args t hv').bind hv' fun vs u ha _ ⟨hlen, hus⟩ =>
      .pure ⟨by simp [hlen], ?_⟩
    intro w hmem
    rcases List.mem_cons.mp hmem with rfl | hrest
    · exact hu.advances ha hv'
    · exact hus w hrest

theorem lowerStmt_yields : ∀ stmt : Stmt, Yields (lowerStmt stmt)
  | .expr _ value => lowerExpr_yields value
  | .ret _ none => yields_some fun _ hv => walks_lowerReturn_none hv
  | .ret _ (some value) => yields_some fun _ hv => walks_lowerReturn (lowerExpr_yields value) hv
  | .var _ _ name none => yields_some fun s _ => walks_lowerIdent s name
  | .var id ty name (some init) =>
    yields_some fun _ hv => walks_lowerVar (lowerExpr_yields init) hv id ty name
  | .fn _ retTy name params body =>
    yields_none fun _ hv => walks_lowerFn (lowerBlock_yields body) hv retTy name params _
  | .block _ body => lowerBlock_yields body

theorem lowerBlock_yields : ∀ block : Block, Yields (lowerBlock block)
  | .mk _ stmts => fun s hv => lowerStmts_walks stmts none s hv (by simp)

theorem lowerStmts_walks : ∀ (stmts : List Stmt) (last : Option Value) (s : Lowerer), s.Valid →
    (∀ v ∈ last, Usable s v) →
    Walks s (lowerStmts last stmts) fun t result => ∀ v ∈ result, Usable t v
  | [], _, _, _, hlast => .pure hlast
  | stmt :: stmts, _, s, hv, _ =>
    (yields_recovering (lowerStmt_yields stmt) s hv).bind hv fun v t _ hv' hu =>
      lowerStmts_walks stmts v t hv' hu

end

end TreeCompiler.Lowering
