/-
Lowering preserves meaning.

A declaration has a meaning of its own (`applyFunction`), and the function of the module that it
becomes can be called.  If lowering meets no error and the verifier accepts the module, then
whatever the declaration means for some arguments is what the call returns for them.

Most of this is the simulation of the body.  What is left is its two ends.  A call starts in the
first block, with the parameters for variables and no memory of its own.  And a function without a
value that comes to its end gets a return from lowering unless one of its statements is a return, in
which case it cannot come to its end.
-/
import TreeCompiler.Proofs.Lowering.Names
import TreeCompiler.Proofs.Semantics.Simulation

namespace TreeCompiler.Semantics

open IR (FuncId BlockId InstId Ty Value Op)
open Lowering
open Program (Expr Stmt Block BinOp Param NodeId Declaration)

/-! ### Where a call starts -/

/-- The innermost table after parameters were bound: the last of two with one name counts. -/
theorem resolve_bindParams {c : Cursor} {s : Lowerer} (hc : s.At c) (k : Nat) (params : List Param)
    (x : String) :
    (s.bindParams k params).scopes.resolve x =
      match ((params.zipIdx k).map fun (p, i) => (p.name, i)).reverse.lookup x with
      | some i => some (.param i)
      | none => s.scopes.resolve x := by
  induction params generalizing s k with
  | nil => rfl
  | cons p ps ih =>
    have hbound : ((s.record
        { node := p.id, name := p.name, ty := typeOf p.ty, kind := .parameter }).bindName
        p.name (.param k) (some s.decls.length)).At c :=
      ((advances_record s _).trans (advances_bindName _ _ _ _)).at_iff.mpr hc
    rw [Lowerer.bindParams, ih hbound, List.zipIdx_cons, List.map_cons, List.reverse_cons,
      List.lookup_append, resolve_bindName (by exact hc)]
    cases ((ps.zipIdx (k + 1)).map fun (p, i) => (p.name, i)).reverse.lookup x with
    | some i => rfl
    | none =>
      by_cases hx : x = p.name
      · simp [hx]
      · have hne : (x == p.name) = false := by simpa using hx
        simp only [Option.none_or, List.lookup_cons, List.lookup_nil, hne, if_neg hx]
        rfl

theorem lookup_ofArgs_lt {params : List Param} {args : List Val} {x : String} {i : Nat}
    (h : (Store.ofArgs params args).scope.lookup x = some i) : i < params.length := by
  obtain ⟨front, back, happ, -⟩ := List.lookup_eq_some_iff.mp h
  have hmem : (x, i) ∈ (Store.ofArgs params args).scope := by
    rw [happ]
    simp
  obtain ⟨⟨p, j⟩, hp, heq⟩ := List.mem_map.mp (List.mem_reverse.mp hmem)
  cases heq
  simpa using (List.mem_zipIdx hp).2.1

namespace Activation

variable {a : Activation} {s : Lowerer} {w : World}

/-- The body of a function starts with the arguments as its variables. -/
theorem follows_openFunction (s : Lowerer) (name : String) (params : List Param) (ret : Ty)
    (hargs : a.args.length = params.length) (hbase : a.base = w.memory.length) :
    a.Follows s.nextFunction (s.openFunction name params ret) (.ofArgs params a.args) {} w where
  current := by
    have hids : ((s.openFunction name params ret).body s.nextFunction).ids 0 = [] := by
      obtain ⟨names, hbody⟩ := body_addFunction s name params ret
      have hopen : (s.openFunction name params ret).body s.nextFunction
          = (s.addFunction name params ret).body s.nextFunction := by
        rw [Lowerer.body, Lowerer.openFunction, bindParams_code]
        rfl
      rw [hopen, hbody, IR.Function.ids_createBlock]
      rfl
    refine ⟨rfl, ?_, ?_, ?_⟩
    · show 0 = (((s.openFunction name params ret).body s.nextFunction).ids 0).length
      rw [hids]
      rfl
    · show ∀ k ∈ ((s.openFunction name params ret).body s.nextFunction).ids 0, _
      rw [hids]
      simp
    · intro k v hk
      cases hk
  represents := by
    refine ⟨?_, ?_, ?_, ?_, ?_⟩
    · intro i _
      simp [Store.ofArgs]
    · simp [Store.ofArgs]
    · simp [Store.ofArgs, hbase]
    · intro j v hj
      simp [Store.ofArgs] at hj
    · intro x i hx
      have hlt : i < a.args.length := by
        rw [hargs]
        exact lookup_ofArgs_lt hx
      have hopened : ((s.addFunction name params ret).enterEmpty s.nextFunction).At
          s.nextFunction := rfl
      refine ⟨by simpa [Store.ofArgs] using hlt, .param i, ?_, .argument hlt⟩
      rw [Lowerer.openFunction, resolve_bindParams hopened]
      simp only [Store.ofArgs] at hx
      rw [hx]

/-- A function is settled once its body is lowered: what may come after that is one instruction. -/
theorem settled_of_grows {c : Cursor} {t : Lowerer} {n : Nat}
    (hg : (t.body c).GrowsAt c.block a.body) (hn : c.block < n)
    (hglobals : t.code.globals <+: a.code.globals) : a.Settled c n t := by
  refine ⟨hg.insts, hg.blocks, hg.ids _, ?_, hglobals⟩
  intro b hb hlt
  exact hg.others b hlt (Nat.ne_of_gt (Nat.lt_of_lt_of_le hn hb))

end Activation

/-! ### Where a call ends -/

theorem Eval.bind_eq_normal {α β : Type} {x : Eval α} {k : α → Eval β} {σ σ' : Store} {b : β}
    (h : (x >>= k) σ = .normal b σ') : ∃ a σ₁, x σ = .normal a σ₁ ∧ k a σ₁ = .normal b σ' := by
  rw [Eval.bind_apply] at h
  cases hx : x σ with
  | undefined => simp [hx] at h
  | returned v => simp [hx] at h
  | normal a σ₁ =>
    simp only [hx] at h
    exact ⟨a, σ₁, rfl, h⟩

/-- After a return evaluation does not go on. -/
theorem evalStmt_ne_normal {p : Primitives} {stmt : Stmt} (h : stmt.isReturn = true) {σ σ' : Store}
    {val : Option Val} : evalStmt p stmt σ ≠ .normal val σ' := by
  intro hnormal
  cases stmt with
  | ret id value =>
    cases value with
    | none => cases hnormal
    | some e =>
      obtain ⟨v, σ₁, hret, -⟩ := Eval.bind_eq_normal hnormal
      obtain ⟨v', σ₂, -, hleave⟩ := Eval.bind_eq_normal hret
      cases hleave
  | _ => cases h

theorem evalStmts_ne_normal {p : Primitives} {stmts : List Stmt}
    (h : stmts.any Stmt.isReturn = true) {last val : Option Val} {σ σ' : Store} :
    evalStmts p last stmts σ ≠ .normal val σ' := by
  induction stmts generalizing last σ with
  | nil => cases h
  | cons stmt stmts ih =>
    intro hnormal
    obtain ⟨v, σ₁, hstmt, hrest⟩ := Eval.bind_eq_normal hnormal
    rw [List.any_cons, Bool.or_eq_true] at h
    rcases h with hret | hlater
    · exact evalStmt_ne_normal hret hstmt
    · exact ih hlater hrest

/-- A block with a return among its statements does not come to its end. -/
theorem hasTopLevelReturn_of_normal {p : Primitives} {block : Block} {σ σ' : Store}
    {val : Option Val} (h : evalBlock p block σ = .normal val σ') :
    block.hasTopLevelReturn = false := by
  obtain ⟨id, stmts⟩ := block
  by_contra hret
  exact evalStmts_ne_normal (by simpa [Block.hasTopLevelReturn, Block.stmts] using hret) h

/-! ### Functions -/

/-- The end of a function adds at most a return. -/
theorem endFunction_grows {c : Cursor} {t : Lowerer} (hf : c.func < t.code.functions.length)
    (ret : Ty) (returns : Bool) :
    (t.body c).GrowsAt c.block ((t.endFunction c ret returns).body c) := by
  unfold Lowerer.endFunction
  split
  · rw [Lowerer.body_update _ hf]
    exact .push _ _ _ _ _
  · exact .refl _ _

/-- The body of a function that lowering made returns what its declaration means. -/
theorem returns_of_defines {p : Primitives} {m : IR.Module} {d : Declaration} {func : FuncId}
    {args : List Val} {w : World} {v : Val} (hdef : Defines d func m)
    (hplaced : (m.function func).Placement)
    (hended : ∀ {b : BlockId}, b < (m.function func).blocks.length →
      ∃ entry ∈ (m.function func).blockInsts b, entry.2.op.isTerminator = true)
    (hargs : args.length = d.params.length) (hv : applyFunction p d args = some v) :
    Returns p m (m.function func) args ({}, w) v := by
  obtain @⟨s, t, result, hvalid, hstrict, rfl, hbody, hfun, hglobals⟩ := hdef
  let a : Activation :=
    { prims := p, code := m, func := s.code.functions.length, args, base := w.memory.length,
      placed := hplaced, ended := hended }
  have ho := opens_function s d.name d.params (returnType d.retTy)
  have hr : Ready s.nextFunction (s.openFunction d.name d.params (returnType d.retTy)) :=
    ⟨ho.valid hvalid, ho.opened, by rw [ho.options, hstrict]⟩
  have hrt := hr.advances ((lowerBlock_yields d.body _ hr.valid).advances hr.valid hbody)
  have hset : a.Settled s.nextFunction
      ((s.openFunction d.name d.params (returnType d.retTy)).body s.nextFunction).blocks.length t
      := by
    refine Activation.settled_of_grows ?_ hr.block_lt hglobals
    show (t.body s.nextFunction).GrowsAt s.nextFunction.block (m.function s.code.functions.length)
    rw [hfun]
    exact endFunction_grows hrt.func_lt _ _
  have hf := Activation.follows_openFunction (a := a) (w := w) s d.name d.params
    (returnType d.retTy)
    hargs rfl
  have hrun := (Activation.lowerBlock_simulates d.body).run hr hbody hset hf
  unfold applyFunction at hv
  cases he : evalBlock p d.body (.ofArgs d.params args) with
  | undefined => simp [he] at hv
  | returned v' =>
    rw [show evalBlock a.prims d.body (.ofArgs d.params a.args) = _ from he] at hrun
    obtain rfl : v' = v := by simpa [he] using hv
    exact hrun
  | normal val σ =>
    rw [show evalBlock a.prims d.body (.ofArgs d.params a.args) = _ from he] at hrun
    obtain ⟨hvoid, rfl⟩ : (returnType d.retTy).isVoid = true ∧ .void = v := by simpa [he] using hv
    obtain ⟨frame, w', hreach, -, hf', -⟩ := hrun
    have hend : t.endFunction s.nextFunction (returnType d.retTy) d.body.hasTopLevelReturn
        = t.emit s.nextFunction (.ret none) .void none := by
      simp [Lowerer.endFunction, hvoid, hasTopLevelReturn_of_normal he]
    have hlast : a.body = (t.emit s.nextFunction (.ret none) .void none).body s.nextFunction := by
      rw [← hend]
      exact hfun
    refine hreach.returns (Activation.returns_none hrt ?_ ?_ hf'.current)
    · simp only [hlast, List.prefix_refl]
    · simp only [hlast, List.prefix_refl]

/-- **Lowering preserves meaning.**  Take a program that lowers without an error to a module that
the verifier accepts, and any function declared in it, anywhere.  If the declaration has a meaning
for some arguments, the function that it becomes returns that value for these arguments, from any
memory and whatever the operations on doubles do. -/
theorem lowerProgram_preserves_meaning {root : Block} {options : Options} {l : Lowered}
    (h : lowerProgram root options = .ok l) (herrors : l.errors = []) (hverify : l.code.verify = [])
    {i : Nat} {d : Declaration} (hd : root.declarations[i]? = some d) (p : Primitives)
    {args : List Val} (hargs : args.length = d.params.length) {v : Val}
    (hv : applyFunction p d args = some v) (w : World) :
    ∃ least w', ∀ fuel, least ≤ fuel → call p l.code fuel (3 + i) args w = some (v, w') := by
  obtain ⟨hcount, hdefines⟩ := lowerProgram_declares h herrors
  have hlt : 3 + i < l.code.functions.length := by
    rw [hcount]
    exact Nat.add_lt_add_left (List.getElem?_eq_some_iff.mp hd).1 3
  have hplaced := (lowerProgram_laid h hlt).1.placement
  have hreturns := returns_of_defines (w := w) (hdefines hd) hplaced
    (l.code.exists_isTerminator_of_verify hverify hlt) hargs hv
  exact hreturns.call (lowerProgram_name_ne h (Nat.le_add_right 3 i) hlt)

/-- A function whose two arms each have a variable of their own in the place of the outer one. -/
def quotients : Block :=
  .mk 0 [.fn 1 (some "int") "quotient" [⟨2, "double", "x"⟩, ⟨3, "double", "y"⟩, ⟨4, "int", "n"⟩]
    (.mk 5 [
      .var 6 "int" "r" (some (.int 7 100)),
      .expr 8 (.ifElse 9 (.binary 10 .lt (.ident 11 "x") (.ident 12 "y"))
        (.mk 13 [
          .var 14 "int" "r" (some (.int 15 12)),
          .expr 16 (.assign 17 "r" (.binary 18 .div (.ident 19 "r") (.ident 20 "n"))),
          .ret 21 (some (.ident 22 "r"))])
        (.mk 23 [.ret 24 (some (.binary 25 .div (.ident 26 "r") (.ident 27 "n")))]))])]

/-- Operations that give back one of their operands, and comparisons that tell doubles apart. -/
def blunt : Primitives where
  add x _ := x
  sub x _ := x
  mul x _ := x
  lt x y := x != y
  gt x y := x != y
  le x y := x == y
  print _ := some ""

theorem lowerProgram_preserves_meaning_quotients :
    ∃ l d, lowerProgram quotients {} = .ok l ∧ l.errors = [] ∧ l.code.verify = [] ∧
      quotients.declarations[0]? = some d ∧ d.params.length = 3 ∧
      applyFunction blunt d [.float .zero, .float .one, .int 5] = some (.int 2) ∧
      ∃ least w', ∀ fuel, least ≤ fuel →
        call blunt l.code fuel 3 [.float .zero, .float .one, .int 5] {} = some (.int 2, w') := by
  have hrun : (match lowerProgram quotients {} with
      | .ok l => decide (l.errors = [] ∧ l.code.verify = [])
      | .error _ => false) = true := by decide +kernel
  rcases h : lowerProgram quotients {} with e | l
  · simp [h] at hrun
  · simp only [h, decide_eq_true_eq] at hrun
    obtain ⟨herrors, hverify⟩ := hrun
    have hmeaning : applyFunction blunt (quotients.declarations.get ⟨0, by decide⟩)
        [.float .zero, .float .one, .int 5] = some (.int 2) := by decide +kernel
    exact ⟨l, _, rfl, herrors, hverify, rfl, rfl, hmeaning,
      lowerProgram_preserves_meaning h herrors hverify (i := 0) rfl blunt rfl hmeaning {}⟩

end TreeCompiler.Semantics
