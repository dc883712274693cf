/-
The shape of the blocks of a program.

Each construct is put together from its instructions and its regions.  An instruction fills the
block at the cursor by one mark, and a region is a piece at a block that the construct has made,
closed when the region is over (`Fills.close`).  So a construct that succeeds fills its block as its
trace says (`Traces`), and what it leaves behind elsewhere is closed exactly if the tree is shaped.

Marks and traces are not quite the same, since an operand that is the name of a variable is loaded
first.  A load ends nothing, and it is never the last instruction of a construct; this is what
`Alike` and `Loose` allow for.

At the end of a program nothing is left to be filled, and the verifier looks at every block.
-/
import TreeCompiler.Proofs.Lowering.Filling
import TreeCompiler.Proofs.Lowering.Sound
import TreeCompiler.Proofs.Lowering.Success
import TreeCompiler.Proofs.Lowering.Trace

namespace TreeCompiler.Lowering

open IR (BlockId InstId Ty Value Op)
open IR.Marks
open Program (Expr Stmt Block BinOp NodeId Param argsTrace stmtsTrace argsShaped stmtsShaped)

/-! ### Operands and instructions -/

/-- A step that fills the block it is taken in by marks related to a trace, whenever it succeeds. -/
structure Traces (R : List Bool → List Bool → Prop) {α : Type} (x : LowerM α) (trace : List Bool)
    (shaped : Bool) : Prop where
  fills : ∀ {s t : Lowerer} {a : α} {c : Cursor}, s.Sound → s.options.policy = .failFast → s.At c →
    outcome x s = (.ok a, t) → ∃ marks, R marks trace ∧ Fills c [] s.code t.code marks shaped

theorem Walks.sound {α : Type} {s t : Lowerer} {x : LowerM α} {Q : Lowerer → α → Prop}
    {result : Except LowerError α} (h : Walks s x Q) (hs : s.Sound)
    (hx : outcome x s = (result, t)) :
    t.Sound := by
  have hrun := h.runs
  rw [hx] at hrun
  exact hrun.sound hs

theorem Walks.value_of_ok {α : Type} {s t : Lowerer} {x : LowerM α} {Q : Lowerer → α → Prop} {a : α}
    (h : Walks s x Q) (hx : outcome x s = (.ok a, t)) : Q t a := by
  have hvalue := h.value a
  rw [hx] at hvalue
  exact hvalue rfl

/-- What is emitted where a sound state adds its instructions. -/
theorem Lowerer.Sound.fills_emit {s : Lowerer} {c : Cursor} (hs : s.Sound) (hc : s.At c) (op : Op)
    (ty : Ty) (name : Option String) :
    Fills c [] s.code (s.emit c op ty name).code [op.isTerminator] true :=
  .emit (hs.valid.cursor hc) (hs.laid (hs.valid.cursor hc).1).placement op ty name

/-! ### The states of a loop -/

/-- A way through a loop that is lowered in `u`: from there through its body to `t`, and through its
bound to `t'`. -/
structure LoopRun (u t t' : Lowerer) (c : Cursor) (start bound : Value) : Prop where
  sound : u.Sound
  cursor : u.At c
  usable_start : Usable u start
  body : Runs (u.openLoop c start) t
  limit : Runs (t.advance (u.nextCursor c) (u.counter c)) t'
  usable_bound : Usable t' bound

/-- The state with the test of a loop. -/
abbrev Lowerer.closed (u t t' : Lowerer) (c : Cursor) (start bound : Value) : Lowerer :=
  (t'.closeLoop (u.nextCursor c) (u.counter c) (t.body c).insts.length u.options.inductionName
    [(start, c.block)] bound).leave

/-- The cursor of the block after a loop. -/
abbrev Lowerer.afterLoop (t' : Lowerer) (c : Cursor) :
    Cursor := { c with block := (t'.body c).blocks.length }

/-- The state after a loop. -/
abbrev Lowerer.endLoop (u t t' : Lowerer) (c : Cursor) (start bound : Value) : Lowerer :=
  (u.closed t t' c start bound).emit (t'.afterLoop c) (.ret none) .void none

namespace LoopRun

variable {t u t' : Lowerer} {c : Cursor} {start bound : Value}

section

variable (h : LoopRun u t t' c start bound)
include h

theorem opened : (u.openLoop c start).Sound := sound_openLoop h.sound h.cursor h.usable_start

theorem opens :
    Opens u (u.openLoop c start) (u.nextCursor c) := opens_loop h.sound.valid h.cursor start

theorem loopEnd : LoopEnd u t t' c start := h.body.loopEnd h.sound.valid h.cursor h.limit

theorem bodySound : t.Sound := h.body.sound h.opened

theorem stepSound : (t.advance (u.nextCursor c) (u.counter c)).Sound :=
  h.bodySound.emitPlain h.loopEnd.body_at none (.plain .arith) rfl rfl h.loopEnd.step

theorem endSound : t'.Sound := h.limit.sound h.stepSound

theorem advances_body : Advances (u.openLoop c start) t := h.body.advances h.opened.valid

theorem advances_step : Advances t (t.advance (u.nextCursor c) (u.counter c)) :=
  advances_emit h.loopEnd.body_at _ _ _

theorem advances_limit : Advances (u.openLoop c start) t' :=
  (h.advances_body.trans h.advances_step).trans (h.limit.advances h.stepSound.valid)

theorem closeSound : (u.closed t t' c start bound).Sound := by
  have hend := h.loopEnd
  have hpos : 0 < u.nextBlock c :=
    Nat.lt_of_le_of_lt (Nat.zero_le _) (h.sound.valid.cursor h.cursor).2
  exact (sound_closeLoop h.endSound hend.bound_at hend.counter
    (Nat.ne_of_lt hend.counter_lt) hend.next h.usable_bound hpos).leave

theorem advances_endLoop : Advances u (u.endLoop t t' c start bound) :=
  (Runs.loop h.cursor h.usable_start h.body h.limit h.usable_bound).advances h.sound.valid

end

end LoopRun

/-- A loop that is lowered goes this way. -/
theorem lowerLoop_runs {s t : Lowerer} {c : Cursor} {x y z : LowerM (Option Value)} (hx : Yields x)
    (hy : Yields y) (hz : Yields z) (hs : s.Sound) (hc : s.At c)
    (h : outcome (lowerLoop x y z) s = (.ok (), t)) :
    ∃ start u result t₁ bound t₂, outcome (operand "loop start" x) s = (.ok start, u) ∧
      outcome y (u.openLoop c start) = (.ok result, t₁) ∧
      outcome (operand "loop bound" z) (t₁.advance (u.nextCursor c) (u.counter c))
        = (.ok bound, t₂) ∧
      Advances s u ∧ LoopRun u t₁ t₂ c start bound ∧ t = u.endLoop t₁ t₂ c start bound := by
  obtain ⟨start, u, d, result, t₁, bound, t₂, hstart, hd, hbody, hbound, rfl⟩ :=
    lowerLoop_succeeds hx hy hz hs.valid h
  have hwalk := walks_operand hx hs.valid "loop start"
  have ha := hwalk.advances hs.valid hstart
  obtain rfl := (ha.at_iff.mpr hc).unique hd
  have hu := hwalk.sound hs hstart
  have hopen := sound_openLoop hu hd (hwalk.value_of_ok hstart)
  have hwbody := hy _ hopen.valid
  have hat := (hwbody.advances hopen.valid hbody).at_iff.mpr (opens_loop hu.valid hd start).opened
  have hstep : Advances t₁ (t₁.advance (u.nextCursor c) (u.counter c)) := advances_emit hat _ _ _
  have hwbound := walks_operand hz (hstep.valid (hwbody.sound hopen hbody).valid) "loop bound"
  refine ⟨start, u, result, t₁, bound, t₂, hstart, hbody, hbound, ha, ?_, rfl⟩
  exact ⟨hu, hd, hwalk.value_of_ok hstart, by simpa [hbody] using hwbody.runs,
    by simpa [hbound] using hwbound.runs, hwbound.value_of_ok hbound⟩

section Constructs

variable {α : Type} {s t : Lowerer} {c d : Cursor} {x y z : LowerM (Option Value)}
  {trace trace₁ trace₂ trace₃ : List Bool} {shaped shaped₁ shaped₂ shaped₃ : Bool}
  {R : List Bool → List Bool → Prop}

theorem Traces.pure (a : α) : Traces Alike (pure a : LowerM α) [] true := by
  constructor
  intro s t b c hs _ hc h
  cases h
  exact ⟨[], .nil, .refl (hs.valid.cursor hc)⟩

theorem Traces.map {β : Type} {x : LowerM α} (hx : Traces R x trace shaped) (g : α → β) :
    Traces R (do return g (← x)) trace shaped := by
  constructor
  intro s t b c hs hp hc h
  obtain ⟨a, u, hok, hk⟩ := (outcome_bind_eq_ok s).mp h
  cases hk
  exact hx.fills hs hp hc hok

theorem Traces.loose {x : LowerM α} (hx : Traces Alike x trace shaped) :
    Traces Loose x trace shaped := by
  constructor
  intro s t a c hs hp hc h
  obtain ⟨marks, halike, hfills⟩ := hx.fills hs hp hc h
  exact ⟨marks, halike.loose, hfills⟩

/-- A value and the load that it may need.  The load adds a mark that no trace has, but it ends
nothing. -/
theorem Traces.andLoad {v w : Value} {u : Lowerer} (hx : Traces Alike x trace shaped)
    (hxy : Yields x) (hs : s.Sound) (hp : s.options.policy = .failFast) (hc : s.At c)
    (hok : outcome x s = (.ok (some v), u)) (hload : outcome (materialize v) u = (.ok w, t)) :
    ∃ marks, Loose marks trace ∧ Fills c [] s.code t.code marks shaped := by
  have hwalk := hxy s hs.valid
  obtain ⟨marks, halike, hfills⟩ := hx.fills hs hp hc hok
  obtain ⟨d, hd, ⟨-, -, rfl⟩ | ⟨ty, -, -, rfl⟩⟩ := materialize_succeeds hload
  · exact ⟨marks, halike.loose, hfills⟩
  · obtain rfl := ((hwalk.advances hs.valid hok).at_iff.mpr hc).unique hd
    have hall := hfills.trans ((hwalk.sound hs hok).fills_emit hd (.load ty v) ty none)
    rw [Bool.and_true] at hall
    refine ⟨marks ++ [false], ?_, hall⟩
    rw [Loose, isOpen_append, halike.loose, isOpen_singleton, Bool.not_false, Bool.and_true]

theorem traces_operand (hx : Traces Alike x trace shaped) (hxy : Yields x) (context : String) :
    Traces Loose (operand context x) trace shaped := by
  constructor
  intro s t w c hs hp hc h
  obtain ⟨v, u, hok, hload⟩ := operand_succeeds h
  exact hx.andLoad hxy hs hp hc hok hload

/-- An instruction that takes what came before it as its operands. -/
theorem Fills.andEmit {m : IR.Module} {marks : List Bool} {b : Bool}
    (hfills : Fills c [] m s.code marks shaped) (hloose : Loose marks trace) (hs : s.Sound)
    (hc : s.At c) (op : Op) (hop : op.isTerminator = b) (ty : Ty) :
    ∃ marks', Alike marks' (trace ++ [b]) ∧
      Fills c [] m (s.emit c op ty none).code marks' shaped := by
  refine ⟨marks ++ [b], .concat hloose b, ?_⟩
  have hall := hfills.trans (hs.fills_emit hc op ty none)
  rwa [Bool.and_true, hop] at hall

/-- A step and then an instruction, wherever the step leaves the cursor. -/
theorem Traces.andEmit {x : LowerM α} {Q : Lowerer → α → Prop} {a : α} {b : Bool}
    (hx : Traces Loose x trace shaped) (hwalk : Walks s x Q) (hs : s.Sound)
    (hp : s.options.policy = .failFast) (hc : s.At c) (hok : outcome x s = (.ok a, t)) (hd : t.At d)
    (op : Op) (hop : op.isTerminator = b) (ty : Ty) :
    ∃ marks, Alike marks (trace ++ [b]) ∧
      Fills c [] s.code (t.emit d op ty none).code marks shaped := by
  obtain rfl := ((hwalk.advances hs.valid hok).at_iff.mpr hc).unique hd
  obtain ⟨marks, hloose, hfills⟩ := hx.fills hs hp hc hok
  exact hfills.andEmit hloose (hwalk.sound hs hok) hd op hop ty

theorem traces_lowerIdent (name : String) : Traces Alike (lowerIdent name) [] true := by
  constructor
  intro s t v c hs hp hc h
  obtain ⟨-, rfl⟩ := lowerIdent_succeeds h
  exact ⟨[], .nil, .refl (hs.valid.cursor hc)⟩

theorem traces_lowerBinary (hx : Traces Alike x trace₁ shaped₁) (hy : Traces Alike y trace₂ shaped₂)
    (hxy : Yields x) (hyy : Yields y) (op : BinOp) :
    Traces Alike (lowerBinary op x y) (trace₁ ++ trace₂ ++ [false]) (shaped₁ && shaped₂) := by
  constructor
  intro s t v c hs hp hc h
  obtain ⟨lhs, u, rhs, u', lowered, d, hl, hr, -, hd, -, rfl⟩ := lowerBinary_succeeds h
  have hleft := walks_operand hxy hs.valid "left operand"
  have ha := hleft.advances hs.valid hl
  have hu := hleft.sound hs hl
  have hright := walks_operand hyy hu.valid "right operand"
  have hc' := ha.at_iff.mpr hc
  obtain rfl := ((hright.advances hu.valid hr).at_iff.mpr hc').unique hd
  obtain ⟨marks, hloose, hfills⟩ := (traces_operand hx hxy _).fills hs hp hc hl
  obtain ⟨marks', hloose', hfills'⟩ :=
    (traces_operand hy hyy _).fills hu (by rw [ha.options, hp]) hc' hr
  have hop : (lowered.inst (u'.body c) lhs rhs).1.isTerminator = false := by
    cases lowered <;> rfl
  exact (hfills.trans hfills').andEmit (hloose.append hloose') (hright.sound hu hr) hd _ hop _

theorem traces_lowerAssign (hx : Traces Alike x trace shaped) (hxy : Yields x) (target : String) :
    Traces Alike (lowerAssign target x) (trace ++ [false]) shaped := by
  constructor
  intro s t w c hs hp hc h
  obtain ⟨slot, _, ty, v, u, d, -, -, -, hval, hd, -, rfl⟩ := lowerAssign_succeeds h
  exact (traces_operand hx hxy _).andEmit (walks_operand hxy hs.valid _) hs hp hc hval hd
    (.store v slot true) rfl _

theorem traces_lowerArg (hx : Traces Alike x trace shaped) (hxy : Yields x) (key : Option String) :
    Traces Loose (lowerArg key x) trace shaped := by
  constructor
  intro s t w c hs hp hc h
  obtain ⟨v, u, hok, ⟨-, rfl⟩ | hload⟩ := lowerArg_succeeds h
  · exact hx.loose.fills hs hp hc hok
  · exact hx.andLoad hxy hs hp hc hok hload

theorem traces_lowerCall {args : LowerM (List Value)} {Q : Lowerer → List Value → Prop}
    (hargs : Traces Loose args trace shaped) (hwalk : ∀ s : Lowerer, s.Valid → Walks s args Q)
    (callee : String) (count : Nat) :
    Traces Alike (lowerCall callee count args) (trace ++ [false]) shaped := by
  constructor
  intro s t v c hs hp hc h
  obtain ⟨func, values, u, d, hok, hd, -, rfl⟩ := lowerCall_succeeds h
  exact hargs.andEmit (hwalk s hs.valid) hs hp hc hok hd (.call func values) rfl _

theorem traces_lowerReturn (hx : Traces Alike x trace shaped) (hxy : Yields x) :
    Traces Alike (lowerReturn (some x)) (trace ++ [true]) shaped := by
  constructor
  intro s t w c hs hp hc h
  obtain ⟨v, u, d, hval, hd, -, rfl⟩ := lowerReturn_succeeds h
  exact (traces_operand hx hxy _).andEmit (walks_operand hxy hs.valid _) hs hp hc hval hd
    (.ret (some v)) rfl _

theorem traces_lowerReturn_none : Traces Alike (lowerReturn none) [true] true := by
  constructor
  intro s t w c hs hp hc h
  obtain ⟨d, hd, -, rfl⟩ := lowerReturn_none_succeeds h
  obtain rfl := hc.unique hd
  exact (Fills.refl (hs.valid.cursor hc)).andEmit rfl hs hc (.ret none) rfl _

/-- A declaration with a value makes a slot before it assigns. -/
theorem traces_lowerVar (hx : Traces Alike x trace shaped) (hxy : Yields x) (node : NodeId)
    (ty name : String) :
    Traces Alike (lowerVar node ty name x) (false :: (trace ++ [false])) shaped := by
  constructor
  intro s t v c hs hp hc h
  obtain ⟨d, w, hd, -, hassign⟩ := lowerVar_succeeds h
  obtain rfl := hc.unique hd
  have hslot : Runs s (s.declareVariable c node (typeOf ty) name) := .slot hc node (typeOf ty) name
  have ha := hslot.advances hs.valid
  obtain ⟨marks, halike, hfills⟩ := (traces_lowerAssign hx hxy name).fills (hslot.sound hs)
    (by rw [ha.options, hp]) (ha.at_iff.mpr hc) hassign
  have hmade : Fills c [] s.code (s.declareVariable c node (typeOf ty) name).code [false] true := by
    rw [Lowerer.declareVariable, bindName_code]
    exact hs.fills_emit hc (.alloca (typeOf ty)) .ptr (some name)
  refine ⟨[false] ++ marks, .append (.concat (rfl : Loose [] []) false) halike, ?_⟩
  exact Bool.true_and shaped ▸ hmade.trans hfills

/-! ### Conditionals -/

theorem fills_fork (hs : s.Sound) (hc : s.At c) (cond : Value) :
    Fills c [s.nextCursor c, { c with block := s.nextBlock c + 1 }] s.code
      (s.fork c cond).code [true]
      true := by
  have hhas := hs.valid.cursor hc
  have hthen : Fills c [s.nextCursor c] s.code (s.addBlock c.func "then").code [] true :=
    .addBlock hhas "then"
  have helse : Fills c [(s.addBlock c.func "then").nextCursor c] (s.addBlock c.func "then").code
      ((s.addBlock c.func "then").addBlock c.func "else").code [] true :=
    .addBlock (hthen.has hhas) "else"
  have hnext : (s.addBlock c.func "then").nextCursor c = { c with block := s.nextBlock c + 1 } := by
    rw [Lowerer.nextCursor, Lowerer.nextBlock, Lowerer.body_update _ hhas.1,
      IR.Function.createBlock_blocks_length]
    rfl
  have harms : ((s.addBlock c.func "then").addBlock c.func "else").Sound :=
    (hs.addBlock hhas.1 "then").addBlock (by simpa using hhas.1) "else"
  have hbranch := harms.fills_emit hc (.condBr cond (s.nextBlock c) (s.nextBlock c + 1)) .void none
  refine ((hthen.trans helse).trans hbranch).reorder fun d => ?_
  rw [hnext]
  simp [or_comm]

/-- Both arms of a conditional are regions that have to end their blocks. -/
theorem traces_lowerIf (hx : Traces Alike x trace₁ shaped₁) (hy : Traces Alike y trace₂ shaped₂)
    (hz : Traces Alike z trace₃ shaped₃) (hxy : Yields x) (hyy : Yields y) :
    Traces Alike (lowerIf x y z) (trace₁ ++ [true])
      (shaped₁ && ((isClosed trace₂ && shaped₂) && (isClosed trace₃ && shaped₃))) := by
  constructor
  intro s t _ c hs hp hc h
  obtain ⟨cond, u, d, result, t₁, result', t₂, hcond, hd, hthen, helse, rfl⟩ :=
    lowerIf_succeeds hxy hs.valid h
  have hwalk := walks_operand hxy hs.valid "condition"
  have ha := hwalk.advances hs.valid hcond
  obtain rfl := (ha.at_iff.mpr hc).unique hd
  have hu := hwalk.sound hs hcond
  have hus : u.options.policy = .failFast := by rw [ha.options, hp]
  -- The state in which each arm starts,
  have ho := opens_then hu.valid hd cond
  have hsthen := sound_then hu hd (hwalk.value_of_ok hcond)
  have hwthen := hyy _ hsthen.valid
  have ha₁ := hwthen.advances hsthen.valid hthen
  have ho' := opens_else hu.valid hd ha₁
  have hselse := sound_else hu hd ha₁ (hwthen.sound hsthen hthen)
  -- and what is filled from there.
  obtain ⟨marks, hloose, hfills⟩ := (traces_operand hx hxy _).fills hs hp hc hcond
  obtain ⟨marks₁, halike₁, hfills₁⟩ := hy.fills hsthen (by rw [ho.options, hus]) ho.opened hthen
  obtain ⟨marks₂, halike₂, hfills₂⟩ := hz.fills hselse (by rw [ho'.options, hus]) ho'.opened helse
  rw [enter_code] at hfills₁ hfills₂
  have hne : u.nextCursor c ∉ [({ c with block := u.nextBlock c + 1 } : Cursor)] := by
    simp [Lowerer.nextCursor]
  have harms := ((fills_fork hu hd cond).close hfills₁ hne).close hfills₂ (by simp)
  rw [halike₁.isClosed_eq, halike₂.isClosed_eq, Bool.true_and] at harms
  exact ⟨marks ++ [true], .concat hloose true, hfills.trans harms⟩

/-! ### Loops -/

theorem fills_jump (hs : s.Sound) (hc : s.At c) :
    Fills c [s.nextCursor c] s.code (s.jump c).code [true] true :=
  (Fills.addBlock (hs.valid.cursor hc) "loop").trans
    ((hs.addBlock (hs.valid.cursor hc).1 "loop").fills_emit hc (.br (s.nextBlock c)) .void none)

/-- The phi of the counter. -/
theorem fills_openLoop (hs : s.Sound) (hc : s.At c) (start : Value) :
    Fills (s.nextCursor c) [] (s.jump c).code (s.openLoop c start).code [false] true := by
  have hhas := ((fills_jump hs hc).fresh List.mem_cons_self).1
  have hphi : Fills (s.nextCursor c) [] ((s.jump c).enter (s.nextCursor c)).code
      (((s.jump c).enter (s.nextCursor c)).emit (s.nextCursor c) (.phi [(start, c.block)]) .f64
        (some s.options.inductionName)).code [false] true := by
    refine .emit (by rwa [enter_code]) ?_ (.phi [(start, c.block)]) _ _
    rw [Lowerer.body, enter_code]
    exact ((sound_jump hs hc).laid hhas.1).placement
  rw [enter_code] at hphi
  rwa [Lowerer.openLoop, bindName_code]

/-- The test at the end of a loop.  It names two instructions, which does not matter here, and adds
the block after the loop. -/
theorem fills_testLoop (hs : s.Sound) (hd : s.At d) (next : InstId) (bound : Value) :
    Fills d [s.nextCursor d] s.code (s.testLoop d next bound).code [false] true := by
  have hhas := hs.valid.cursor hd
  have hplaced := (hs.laid hhas.1).placement
  unfold Lowerer.testLoop Lowerer.addBlock Lowerer.rename Lowerer.emit
  rw [Lowerer.update_update _ hhas.1, Lowerer.update_update _ hhas.1,
    Lowerer.update_update _ hhas.1]
  refine .extend hhas ?_ (fun b hne => ?_) (by simp)
  · simp only [Function.comp_apply, IR.Function.marks_createBlock, IR.Function.marks_setValueName]
    exact IR.Function.marks_push_self hplaced hhas.2 (.fcmp .ole (.inst next) bound) .i1 none
  · simp only [Function.comp_apply, IR.Function.marks_createBlock, IR.Function.marks_setValueName]
    exact IR.Function.marks_push_ne hplaced hne (.fcmp .ole (.inst next) bound) .i1 none

theorem fills_closeLoop (hs : s.Sound) (hd : s.At d) {k next : InstId} {name : String}
    {incoming : List (Value × BlockId)} {bound : Value}
    (hk : (s.body d).insts[k]?
      = some { op := .phi incoming, ty := .f64, name := some name, block := d.block })
    (hkn : k ≠ next) (hnext : Usable s (.inst next)) (hbound : Usable s bound) :
    Fills d [s.nextCursor d] s.code (s.closeLoop d k next name incoming bound).code [false, true]
      true := by
  have hf := (hs.valid.cursor hd).1
  have htest := fills_testLoop hs hd next bound
  have htested := sound_testLoop hs hd hnext hbound
  have hbranch := htested.fills_emit hd
    (.condBr (.inst (s.body d).insts.length) d.block (s.body d).blocks.length) .void none
  -- The counter gets its second input, and stays a phi.
  have htestedAt : (s.testLoop d next bound).At d := hd
  have hphi := fun op => ((advances_emit htestedAt op .void none).body htested.valid
    htestedAt).some_of_some
    (getElem?_testLoop hf hk hkn bound)
  exact (htest.trans hbranch).trans (.replace (hbranch.has hbranch.cursor) (hphi _)
    ⟨.phi (incoming ++ [(.inst next, d.block)]), .f64, some name, d.block⟩ rfl)

/-- The end of a loop, and the return in the block after it. -/
theorem fills_endLoop (hs : s.Sound) (hd : s.At d) {k next : InstId} {name : String}
    {incoming : List (Value × BlockId)} {bound : Value}
    (hk : (s.body d).insts[k]?
      = some { op := .phi incoming, ty := .f64, name := some name, block := d.block })
    (hkn : k ≠ next) (hnext : Usable s (.inst next)) (hbound : Usable s bound)
    (hpos : 0 < d.block) :
    Fills d [] s.code ((s.closeLoop d k next name incoming bound).leave.emit (s.nextCursor d)
      (.ret none) .void none).code [false, true] true := by
  have hclose := fills_closeLoop hs hd hk hkn hnext hbound
  have hsound := (sound_closeLoop hs hd hk hkn hnext hbound hpos).leave
  have hhas := (hclose.fresh List.mem_cons_self).1
  exact hclose.close (.emit hhas (hsound.laid hhas.1).placement (.ret none) .void none) (by simp)

/-- What a loop fills its block with: the counter, the body, the next value, the bound and the
test. -/
theorem isClosed_loop (body bound : List Bool) :
    isClosed ([false] ++ body ++ [false] ++ bound ++ [false, true])
      = (isOpen body && isOpen bound) := by
  rw [show [false, true] = [false] ++ [true] from rfl, ← List.append_assoc, isClosed_concat]
  simp only [isOpen_append, isOpen_singleton, Bool.not_false, Bool.true_and, Bool.and_true]

/-- The body and the bound of a loop fill one block, which the test of the loop ends. -/
theorem traces_lowerLoop (hx : Traces Alike x trace₁ shaped₁) (hy : Traces Alike y trace₂ shaped₂)
    (hz : Traces Alike z trace₃ shaped₃) (hxy : Yields x) (hyy : Yields y) (hzy : Yields z) :
    Traces Alike (lowerLoop x y z) (trace₁ ++ [true])
      (shaped₁ && ((isOpen trace₂ && shaped₂) && (isOpen trace₃ && shaped₃))) := by
  constructor
  intro s t _ c hs hp hc h
  obtain ⟨start, u, result, t₁, bound, t₂, hstart, hbody, hbound, ha, hloop, rfl⟩ :=
    lowerLoop_runs hxy hyy hzy hs hc h
  have hus : u.options.policy = .failFast := by rw [ha.options, hp]
  have hu := hloop.sound
  have ho := hloop.opens
  have hend := hloop.loopEnd
  have hpos : 0 < u.nextBlock c :=
    Nat.lt_of_le_of_lt (Nat.zero_le _) (hu.valid.cursor hloop.cursor).2
  have hlast := fills_endLoop hloop.endSound hend.bound_at hend.counter
    (Nat.ne_of_lt hend.counter_lt) hend.next hloop.usable_bound hpos
  -- What the start, the body and the bound fill.
  obtain ⟨marks, hloose, hfills⟩ := (traces_operand hx hxy _).fills hs hp hc hstart
  obtain ⟨marks₁, halike₁, hfills₁⟩ :=
    hy.fills hloop.opened (by rw [ho.options, hus]) ho.opened hbody
  have hnext : Fills (u.nextCursor c) [] t₁.code
      (t₁.advance (u.nextCursor c) (u.counter c)).code [false]
      true := hloop.bodySound.fills_emit hend.body_at
        (.arith .fadd (.inst (u.counter c)) (.float .one)) _ none
  obtain ⟨marks₂, hloose₂, hfills₂⟩ := (traces_operand hz hzy _).fills hloop.stepSound
    (by rw [hloop.advances_step.options, hloop.advances_body.options, ho.options, hus])
      hend.body_at hbound
  have hregion := ((((fills_openLoop hu hloop.cursor start).trans hfills₁).trans hnext).trans
    hfills₂).trans hlast
  have hall := (fills_jump hu hloop.cursor).close hregion (by simp)
  have hshaped : (isClosed ([false] ++ marks₁ ++ [false] ++ marks₂ ++ [false, true]) &&
        (true && shaped₂ && true && shaped₃ && true))
      = ((isOpen trace₂ && shaped₂) && (isOpen trace₃ && shaped₃)) := by
    rw [isClosed_loop, halike₁.loose, hloose₂, Bool.true_and, Bool.and_true, Bool.and_true]
    ac_rfl
  rw [hshaped, Bool.true_and] at hall
  exact ⟨marks ++ [true], .concat hloose true, hfills.trans hall⟩

/-! ### Functions -/

/-- A new function has one block, which is empty. -/
theorem fills_openFunction (hc : Has s.code c) (name : String) (params : List Param) (ret : Ty) :
    Fills c [s.nextFunction] s.code (s.openFunction name params ret).code [] true := by
  obtain ⟨names, hbody⟩ := body_addFunction s name params ret
  have hold : ∀ {d}, Has s.code d →
      (s.addFunction name params ret).code.function d.func = s.code.function d.func :=
    fun hd => function_addFunction_of_lt s name params ret hd.1
  have hcode : (s.openFunction name params ret).code = (s.addFunction name params ret).code :=
    bindParams_code _ _ _
  have hopened : Has (s.openFunction name params ret).code s.nextFunction :=
    (opens_function s name params ret).exists_block
  rw [hcode] at hopened ⊢
  refine .intro hc (fun d => ?_) (fun d hd => ?_) ?_ fun hd _ => ?_
  · rw [List.mem_singleton]
    constructor
    · rintro ⟨hfunc, hblock⟩
      rw [addFunction_functions_length] at hfunc
      rcases Nat.lt_or_eq_of_le (Nat.le_of_lt_succ hfunc) with hlt | heq
      · rw [function_addFunction_of_lt s name params ret hlt] at hblock
        exact .inl ⟨hlt, hblock⟩
      · have honly : d.block < ((s.addFunction name params ret).body
            s.nextFunction).blocks.length := by
          rwa [heq] at hblock
        rw [hbody, IR.Function.createBlock_blocks_length] at honly
        exact .inr (Cursor.eq_of_func_block heq (Nat.lt_one_iff.mp honly))
    · rintro (hd | rfl)
      · rw [Has, addFunction_functions_length, hold hd]
        exact ⟨Nat.lt_succ_of_lt hd.1, hd.2⟩
      · exact hopened
  · obtain rfl := List.mem_singleton.mp hd
    refine ⟨fun hd => Nat.lt_irrefl _ hd.1, ?_⟩
    show (Lowerer.body _ s.nextFunction).marks 0 = []
    rw [hbody, IR.Function.marks_createBlock]
    rfl
  · rw [marksAt, hold hc, List.append_nil]
    rfl
  · rw [marksAt, hold hd]
    rfl

theorem fills_endFunction (hs : s.Sound) (hc : s.At c) (ret : Ty) (returns : Bool) :
    Fills c [] s.code (s.endFunction c ret returns).code
      (if ret.isVoid && !returns then [true] else []) true := by
  unfold Lowerer.endFunction
  split
  · exact hs.fills_emit hc (.ret none) .void none
  · exact .refl (hs.valid.cursor hc)

/-- The body of a function is a region of its own and adds nothing to the block around it. -/
theorem traces_lowerFn {block : Block} (hx : Traces Alike (lowerBlock block) block.trace shaped)
    (retTy : Option String) (name : String) (params : List Param) :
    Traces Alike (lowerFn retTy name params block.hasTopLevelReturn (lowerBlock block)) []
      (block.endsFunction retTy && shaped) := by
  constructor
  intro s t _ c hs hp hc h
  obtain ⟨result, u, hbody, rfl⟩ := lowerFn_succeeds (lowerBlock_yields block) hs.valid h
  have ho := opens_function s name params (returnType retTy)
  have hopen := sound_openFunction hs name params (returnType retTy)
  have hwalk := lowerBlock_yields block _ hopen.valid
  have ha := hwalk.advances hopen.valid hbody
  obtain ⟨marks, halike, hfills⟩ := hx.fills hopen (by rw [ho.options, hp]) ho.opened hbody
  have hend := hfills.trans (fills_endFunction (hwalk.sound hopen hbody) (ha.at_iff.mpr ho.opened)
    (returnType retTy) block.hasTopLevelReturn)
  have hall := (fills_openFunction (hs.valid.cursor hc) name params (returnType retTy)).close hend
    (by simp)
  have hends : isClosed (marks ++ if (returnType retTy).isVoid
      && !block.hasTopLevelReturn then [true]
      else []) = block.endsFunction retTy := by
    unfold Block.endsFunction
    split
    · rw [isClosed_concat, halike.loose, Bool.true_and]
    · rw [List.append_nil, halike.isClosed_eq]
  rw [hends, Bool.true_and, Bool.and_true] at hall
  exact ⟨[], .nil, hall⟩

end Constructs

/-! ### The walk -/

mutual

theorem lowerExpr_traces : ∀ e : Expr, Traces Alike (lowerExpr e) e.trace e.shaped
  | .int .. | .double .. => .pure _
  | .string _ raw => by
    constructor
    intro s t v c hs hp hc h
    rw [lowerExpr, outcome_bind_ok s _ (outcome_addGlobalString _ _)] at h
    cases h
    exact ⟨[], .nil, .ofFunctions (hs.valid.cursor hc) rfl⟩
  | .ident _ name => (traces_lowerIdent name).map _
  | .call _ callee args =>
    (traces_lowerCall (lowerArgs_traces args) (lowerArgs_walks args) callee _).map _
  | .binary _ op left right =>
    (traces_lowerBinary (lowerExpr_traces left) (lowerExpr_traces right) (lowerExpr_yields left)
      (lowerExpr_yields right) op).map _
  | .assign _ target value =>
    (traces_lowerAssign (lowerExpr_traces value) (lowerExpr_yields value) target).map _
  | .ifElse _ cond thenBlock elseBlock =>
    (traces_lowerIf (lowerExpr_traces cond) (lowerBlock_traces thenBlock)
      (lowerBlock_traces elseBlock)
      (lowerExpr_yields cond) (lowerBlock_yields thenBlock)).map fun _ => none
  | .loop _ start limit body =>
    (traces_lowerLoop (lowerExpr_traces start) (lowerBlock_traces body) (lowerExpr_traces limit)
      (lowerExpr_yields start) (lowerBlock_yields body) (lowerExpr_yields limit)).map fun _ => none
  | .block _ body => lowerBlock_traces body

/-- Arguments are only known up to the loads between them. -/
theorem lowerArgs_traces : ∀ args : List Expr,
    Traces Loose (lowerArgs args) (argsTrace args) (argsShaped args)
  | [] => (Traces.pure []).loose
  | arg :: args => by
    constructor
    intro s t values c hs hp hc h
    rw [lowerArgs] at h
    obtain ⟨v, u, harg, hk⟩ := (outcome_bind_eq_ok s).mp h
    obtain ⟨vs, u', hrest, hend⟩ := (outcome_bind_eq_ok u).mp hk
    cases hend
    have hwalk := walks_lowerArg (lowerExpr_yields arg) hs.valid arg.bindingKey
    have ha := hwalk.advances hs.valid harg
    obtain ⟨marks, hloose, hfills⟩ :=
      (traces_lowerArg (lowerExpr_traces arg) (lowerExpr_yields arg) _).fills hs hp hc harg
    obtain ⟨marks', hloose', hfills'⟩ := (lowerArgs_traces args).fills (hwalk.sound hs harg)
      (by rw [ha.options, hp]) (ha.at_iff.mpr hc) hrest
    exact ⟨marks ++ marks', hloose.append hloose', hfills.trans hfills'⟩

theorem lowerStmt_traces : ∀ stmt : Stmt, Traces Alike (lowerStmt stmt) stmt.trace stmt.shaped
  | .expr _ value => lowerExpr_traces value
  | .ret _ none => traces_lowerReturn_none.map _
  | .ret _ (some value) =>
    (traces_lowerReturn (lowerExpr_traces value) (lowerExpr_yields value)).map _
  | .var _ _ name none => (traces_lowerIdent name).map _
  | .var id ty name (some init) =>
    (traces_lowerVar (lowerExpr_traces init) (lowerExpr_yields init) id ty name).map _
  | .fn _ retTy name params body =>
    (traces_lowerFn (lowerBlock_traces body) retTy name params).map fun _ => none
  | .block _ body => lowerBlock_traces body

theorem lowerBlock_traces :
    ∀ block : Block, Traces Alike (lowerBlock block) block.trace block.shaped
  | .mk _ stmts => lowerStmts_traces stmts none

theorem lowerStmts_traces : ∀ (stmts : List Stmt) (last : Option Value),
    Traces Alike (lowerStmts last stmts) (stmtsTrace stmts) (stmtsShaped stmts)
  | [], _ => .pure _
  | stmt :: stmts, last => by
    constructor
    intro s t r c hs hp hc h
    obtain ⟨value, u, hstmt, hrest⟩ := lowerStmts_succeeds hp h
    have hwalk := lowerStmt_yields stmt s hs.valid
    have ha := hwalk.advances hs.valid hstmt
    obtain ⟨marks, halike, hfills⟩ := (lowerStmt_traces stmt).fills hs hp hc hstmt
    obtain ⟨marks', halike', hfills'⟩ :=
      (lowerStmts_traces stmts value).fills (hwalk.sound hs hstmt)
      (by rw [ha.options, hp]) (ha.at_iff.mpr hc) hrest
    exact ⟨marks ++ marks', halike.append halike', hfills.trans hfills'⟩

end

/-! ### Programs -/

/-- At the start only the block of the program itself is being filled, and it is empty. -/
theorem start_done (options : Options) : Done (start options).code [entryCursor] ∧
    marksAt (start options).code entryCursor = [] := by
  obtain ⟨helperName, entryName, hfunctions⟩ := openModule_functions options
  have hothers : ∀ {f b : Nat}, f < 3 →
      b < ((openModule options).2.functions[f]?.getD default).blocks.length →
      (⟨f, b⟩ : Cursor) ∉ [entryCursor] →
      isClosed (((openModule options).2.functions[f]?.getD default).marks b) = true := by
    intro f b hf hb hne
    rw [hfunctions] at hb ⊢
    obtain rfl | rfl | rfl : f = 0 ∨ f = 1 ∨ f = 2 := by omega
    · cases hb
    · obtain rfl : b = 0 := Nat.lt_one_iff.mp hb
      rfl
    · obtain rfl : b = 0 := Nat.lt_one_iff.mp hb
      exact absurd (List.mem_singleton.mpr rfl) hne
  exact ⟨fun c hc hne => hothers hc.1 hc.2 hne, rfl⟩

/-- The entry function is ended unless its last instruction does that. -/
theorem fills_closeModule {t : Lowerer} (ht : t.Sound) (hc : t.At entryCursor) :
    Fills entryCursor [] t.code (closeModule entryCursor t.code)
      (if (marksAt t.code entryCursor).getLast? == some true then [] else [true]) true := by
  unfold closeModule
  rw [IR.Function.isTerminated_eq]
  show Fills entryCursor [] t.code (if (marksAt t.code entryCursor).getLast? == some true
    then _ else _) _ _
  split
  · exact .refl (ht.valid.cursor hc)
  · exact ht.fills_emit hc (.ret none) .void none

/-- **Programs in shape.**  If a program lowers without an error, the verifier finds no block
without a terminator and no instruction after one exactly if the regions of the program suit their
blocks. -/
theorem lowerProgram_wellShaped_iff {root : Block} {options : Options} {l : Lowered}
    (h : lowerProgram root options = .ok l) (herrors : l.errors = []) :
    (∀ e ∈ l.code.verify,
      e.violation ≠ .missingTerminator ∧ e.violation ≠ .instructionAfterTerminator) ↔
      root.wellShaped = true := by
  obtain ⟨r, t, hok, hcode⟩ := lowerProgram_succeeds h herrors
  have hstart := start_sound { options with policy := .failFast }
  have hat := start_at { options with policy := .failFast }
  have hwalk := lowerBlock_yields root _ hstart.valid
  obtain ⟨hdone, hempty⟩ := start_done { options with policy := .failFast }
  obtain ⟨marks, halike, hfills⟩ := (lowerBlock_traces root).fills hstart rfl hat hok
  have hmarks : marksAt t.code entryCursor = marks := by rw [hfills.marks, hempty, List.nil_append]
  have hall := hfills.trans (fills_closeModule (hwalk.sound hstart hok)
    ((hwalk.advances hstart.valid hok).at_iff.mpr hat))
  rw [← hcode, hmarks] at hall
  -- The blocks apart from that of the program are closed exactly if the regions suit them,
  have hothers : Done l.code [entryCursor] ↔ root.shaped = true := by
    have hdone' := hall.done (List.mem_singleton_self entryCursor) fun d hd => by
      rw [List.mem_singleton.mp hd]
      exact hall.cursor
    rw [Bool.and_true] at hdone'
    exact hdone'.trans (and_iff_right hdone)
  -- and that one if nothing or the last instruction ended it before.
  have hentry : isClosed (marksAt l.code entryCursor)
      = (isOpen root.trace || isClosed root.trace) := by
    rw [hall.marks, hempty, List.nil_append, isClosed_ended, halike.loose, halike.isClosed_eq]
  calc (∀ e ∈ l.code.verify,
        e.violation ≠ .missingTerminator ∧ e.violation ≠ .instructionAfterTerminator)
      ↔ ∀ e ∈ l.code.verify, e.violation.isShape = false := by
        simp only [IR.Violation.isShape_eq_false_iff]
    _ ↔ Done l.code [] := by rw [IR.Module.verify_shape_iff, done_nil_iff]
    _ ↔ Done l.code [entryCursor] ∧ isClosed (marksAt l.code entryCursor) = true :=
        done_iff_cons (hall.has hall.cursor) List.not_mem_nil
    _ ↔ root.wellShaped = true := by
        rw [hothers, hentry, Block.wellShaped, Bool.and_eq_true, and_comm]

/-- A loop whose body and bound call a function, which ends in a conditional with a return in each
arm. -/
def largerLoop : Block :=
  .mk 0 [
    .fn 1 (some "double") "larger" [⟨2, "double", "x"⟩] (.mk 3 [
      .var 4 "double" "y" (some (.binary 5 .add (.ident 6 "x") (.ident 7 "x"))),
      .expr 8 (.ifElse 9 (.binary 10 .lt (.ident 11 "x") (.ident 12 "y"))
        (.mk 13 [.ret 14 (some (.ident 15 "y"))]) (.mk 16 [.ret 17 (some (.ident 18 "x"))]))]),
    .expr 19 (.loop 20 (.double 21 .one) (.call 22 "larger" [.double 23 .one])
      (.mk 24 [.expr 25 (.call 26 "larger" [.ident 27 "i"])]))]

theorem lowerProgram_wellShaped_iff_largerLoop :
    ∃ l, lowerProgram largerLoop {} = .ok l ∧ l.errors = [] ∧
      l.code.functions.map (·.blocks.length) = [0, 1, 3, 3] ∧ largerLoop.wellShaped = true ∧
      ∀ e ∈ l.code.verify,
        e.violation ≠ .missingTerminator ∧ e.violation ≠ .instructionAfterTerminator := by
  have hrun : (match lowerProgram largerLoop {} with
      | .ok l => decide (l.errors = [] ∧ l.code.functions.map (·.blocks.length) = [0, 1, 3, 3])
      | .error _ => false) = true := by decide +kernel
  have hshaped : largerLoop.wellShaped = true := by decide +kernel
  rcases h : lowerProgram largerLoop {} with e | l
  · simp [h] at hrun
  · simp only [h, decide_eq_true_eq] at hrun
    exact ⟨l, rfl, hrun.1, hrun.2, hshaped, (lowerProgram_wellShaped_iff h hrun.1).mpr hshaped⟩

end TreeCompiler.Lowering
