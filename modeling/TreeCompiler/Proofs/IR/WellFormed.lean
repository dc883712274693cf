/-
What the verifier accepts.

The rules that a module has to obey can be said without the verifier.  The last instruction of a
block ends it and no other one does, no phi comes after another instruction, and every instruction
is used at the types it is made for (`Op.WellTyped`, with one rule for each sort of instruction).

The verifier looks for violations, and it takes shortcuts: it asks only for the first terminator of
a block, it stops at the first phi that is out of place, it reports one operand of two, and it
compares arguments with parameters as far as both go.  None of them hides a violation or makes one
up: it finds nothing exactly if all rules are obeyed.  For each check there is one lemma that says
so, and `verify_eq_nil_iff_wellFormed` puts them together.

Nothing is assumed of the module.  A position without an instruction adds nothing to its block, and
a callee that does not exist takes no arguments.
-/
import TreeCompiler.Proofs.IR.Shape

namespace TreeCompiler.IR

/-! ### The rules -/

/-- An operation in function `f` of module `m`, with a result of type `result`, is used at the types
it is made for. -/
inductive Op.WellTyped (m : Module) (f : Function) (result : Ty) : Op → Prop
  | alloca {ty : Ty} (holds : ty ≠ .void) : WellTyped m f result (.alloca ty)
  | load {ty : Ty} {ptr : Value} (address : f.valueType ptr = .ptr) :
      WellTyped m f result (.load ty ptr)
  | store {value ptr : Value} {volatile : Bool} (address : f.valueType ptr = .ptr)
      (fits : ∀ ty, f.slotType ptr = some ty → f.valueType value = ty) :
      WellTyped m f result (.store value ptr volatile)
  | float {op : Arith} {lhs rhs : Value} (hop : op = .fadd ∨ op = .fsub ∨ op = .fmul)
      (left : f.valueType lhs = .f64) (right : f.valueType rhs = .f64) :
      WellTyped m f result (.arith op lhs rhs)
  | divide {lhs rhs : Value}
      (left : f.valueType lhs = .i1 ∨ f.valueType lhs = .i32 ∨ f.valueType lhs = .i64)
      (right : f.valueType rhs = f.valueType lhs) : WellTyped m f result (.arith .sdiv lhs rhs)
  | fcmp {pred : Compare} {lhs rhs : Value} (left : f.valueType lhs = .f64)
      (right : f.valueType rhs = .f64) :
      WellTyped m f result (.fcmp pred lhs rhs)
  | call {callee : FuncId} {args : List Value}
      (enough : (m.function callee).sig.params.length ≤ args.length)
      (exactly : (m.function callee).sig.variadic = false →
        args.length = (m.function callee).sig.params.length)
      (fits : ∀ (n : Nat) v ty, args[n]? = some v → (m.function callee).sig.params[n]? = some ty →
        f.valueType v = ty) :
      WellTyped m f result (.call callee args)
  | phi {incoming : List (Value × BlockId)}
      (inputs : ∀ v source, (v, source) ∈ incoming → f.valueType v = result) :
      WellTyped m f result (.phi incoming)
  | retVoid (nothing : f.sig.ret = .void) : WellTyped m f result (.ret none)
  | ret {value : Value} (returned : f.valueType value = f.sig.ret) :
      WellTyped m f result (.ret (some value))
  | br (target : BlockId) : WellTyped m f result (.br target)
  | condBr {cond : Value} {thenBlock elseBlock : BlockId} (truth : f.valueType cond = .i1) :
      WellTyped m f result (.condBr cond thenBlock elseBlock)

/-- The instructions of a block are in order and well typed. -/
structure Function.WellFormedBlock (m : Module) (f : Function) (insts : List Inst) : Prop where
  /-- The last instruction is a terminator, and no other one is. -/
  ended : ∃ body last, insts = body ++ [last] ∧ last.op.isTerminator = true ∧
    ∀ i ∈ body, i.op.isTerminator = false
  /-- No phi follows another instruction. -/
  phis : insts.Pairwise fun before after => after.op.isPhi = true → before.op.isPhi = true
  typed : ∀ i ∈ insts, i.op.WellTyped m f i.ty

/-- Every block of every function is well formed. -/
def Module.WellFormed (m : Module) : Prop :=
  ∀ f ∈ m.functions, ∀ b, b < f.blocks.length → f.WellFormedBlock m ((f.blockInsts b).map (·.2))

/-! ### The shape of a block -/

theorem isClosed_iff {insts : List Inst} :
    Marks.isClosed (insts.map (·.op.isTerminator)) = true ↔
      ∃ body last, insts = body ++ [last] ∧ last.op.isTerminator = true ∧
        ∀ i ∈ body, i.op.isTerminator = false := by
  constructor
  · intro h
    rcases List.eq_nil_or_concat insts with rfl | ⟨body, last, rfl⟩
    · cases h
    · rw [List.concat_eq_append] at h ⊢
      rw [List.map_append, List.map_singleton, Marks.isClosed_concat, Bool.and_eq_true] at h
      exact ⟨body, last, rfl, h.1, by simpa [Marks.isOpen, List.contains_eq_mem] using h.2⟩
  · rintro ⟨body, last, rfl, hlast, hbody⟩
    rw [List.map_append, List.map_singleton, Marks.isClosed_concat, Bool.and_eq_true]
    exact ⟨hlast, by simpa [Marks.isOpen, List.contains_eq_mem] using hbody⟩

/-- Behind the phis that a block starts with there is no other phi exactly if no phi follows another
instruction. -/
theorem any_isPhi_dropWhile_iff {ops : List Op} : (ops.dropWhile Op.isPhi).any Op.isPhi = false ↔
    ops.Pairwise fun before after => after.isPhi = true → before.isPhi = true := by
  induction ops with
  | nil => simp
  | cons op ops ih =>
    cases hop : op.isPhi with
    | true => simpa [List.dropWhile_cons, hop] using ih
    | false =>
      simp only [List.dropWhile_cons, hop, List.any_cons, List.pairwise_cons, Bool.false_or,
        Bool.false_eq_true, if_false, imp_false, Bool.not_eq_true, List.any_eq_false]
      refine ⟨fun hnone => ⟨hnone, ?_⟩, fun h => h.1⟩
      -- After it there is no phi at all, so none is out of place.
      exact List.Pairwise.imp_of_mem (fun _ hb _ hphi => absurd hphi (by simp [hnone _ hb]))
        (List.pairwise_of_forall fun _ _ => trivial)

theorem checkPhis_eq_nil_iff {ops : List Op} :
    checkPhis ops = [] ↔ ops.Pairwise fun before after => after.isPhi = true →
      before.isPhi = true := by
  rw [← any_isPhi_dropWhile_iff]
  unfold checkPhis
  cases (ops.dropWhile Op.isPhi).any Op.isPhi <;> simp

/-! ### The types of an instruction -/

namespace Function

variable {m : Module} {f : Function} {value ptr lhs rhs : Value}

theorem isInt_iff {ty : Ty} : ty.isInt = true ↔ ty = .i1 ∨ ty = .i32 ∨ ty = .i64 := by
  cases ty <;> simp [Ty.isInt]

theorem checkStore_eq_nil_iff : f.checkStore value ptr = [] ↔
    f.valueType ptr = .ptr ∧ ∀ ty, f.slotType ptr = some ty → f.valueType value = ty := by
  unfold checkStore
  by_cases hptr : f.valueType ptr = .ptr
  · rcases hslot : f.slotType ptr with _ | ty
    · simp [hptr]
    · simp [hptr]
  · simp [hptr]

theorem checkArith_eq_nil_iff {op : Arith} : f.checkArith op lhs rhs = [] ↔
    f.valueType lhs = f.valueType rhs ∧
      if op.isFloat then f.valueType lhs = .f64 else (f.valueType lhs).isInt = true := by
  refine ⟨valueType_of_checkArith, ?_⟩
  rintro ⟨hsame, hty⟩
  unfold checkArith
  cases hop : op.isFloat with
  | true =>
    rw [hop, if_pos rfl] at hty
    simp [← hsame, hty, Ty.isFloat]
  | false =>
    rw [hop, if_neg Bool.false_ne_true] at hty
    simp [← hsame, hty]

theorem checkCompare_eq_nil_iff :
    f.checkCompare lhs rhs = [] ↔ f.valueType lhs = .f64 ∧ f.valueType rhs = .f64 := by
  refine ⟨valueType_of_checkCompare, ?_⟩
  rintro ⟨hl, hr⟩
  simp [checkCompare, hl, hr, Ty.isFloat]

theorem accepts_eq_true_iff {sig : Signature} {n : Nat} :
    sig.accepts n = true ↔ sig.params.length ≤ n ∧
      (sig.variadic = false → n = sig.params.length) := by
  unfold Signature.accepts
  cases sig.variadic <;> simp
  omega

/-- Arguments and parameters are compared in pairs, so far as there are both. -/
theorem checkCall_eq_nil_iff {callee : FuncId} {args : List Value} :
    f.checkCall m callee args = [] ↔
    (m.function callee).sig.accepts args.length = true ∧
      ∀ (n : Nat) v ty, args[n]? = some v → (m.function callee).sig.params[n]? = some ty →
        f.valueType v = ty := by
  by_cases haccepts : (m.function callee).sig.accepts args.length = true
  · refine ⟨fun h => ⟨haccepts, fun n v ty hv hty => valueType_of_checkCall h haccepts hv hty⟩, ?_⟩
    rintro ⟨-, htypes⟩
    unfold checkCall
    dsimp only
    rw [if_pos haccepts, List.filterMap_eq_nil_iff]
    rintro ⟨⟨v, ty⟩, n⟩ hmem
    rw [List.mem_zipIdx_iff_getElem?, List.getElem?_zip_eq_some] at hmem
    exact if_pos (htypes n v ty hmem.1 hmem.2)
  · simp [checkCall, haccepts]

/-- The check of an instruction finds nothing exactly if the instruction is well typed. -/
theorem checkInst_eq_nil_iff {i : Inst} : f.checkInst m i = [] ↔ i.op.WellTyped m f i.ty := by
  unfold checkInst
  cases i.op with
  | alloca ty =>
    constructor
    · intro h
      refine .alloca ?_
      rintro rfl
      cases h
    · intro h
      cases h with
      | alloca holds => exact if_neg (by simpa [Ty.isVoid] using holds)
  | load ty ptr =>
    constructor
    · intro h
      refine .load ?_
      by_contra hne
      simp [hne] at h
    · intro h
      cases h with
      | load address => exact if_pos address
  | store value ptr volatile =>
    dsimp only
    rw [checkStore_eq_nil_iff]
    refine ⟨fun h => .store h.1 h.2, fun h => ?_⟩
    cases h with
    | store address fits => exact ⟨address, fits⟩
  | arith op lhs rhs =>
    dsimp only
    rw [checkArith_eq_nil_iff]
    cases op with
    | sdiv =>
      refine ⟨fun h => .divide (isInt_iff.mp h.2) h.1.symm, fun h => ?_⟩
      cases h with
      | float hop => simp at hop
      | divide left right => exact ⟨right.symm, isInt_iff.mpr left⟩
    | fadd | fsub | fmul =>
      refine ⟨fun h => .float (by simp) h.2 (h.1.symm.trans h.2), fun h => ?_⟩
      cases h with
      | float _ left right => exact ⟨left.trans right.symm, left⟩
  | fcmp pred lhs rhs =>
    dsimp only
    rw [checkCompare_eq_nil_iff]
    refine ⟨fun h => .fcmp h.1 h.2, fun h => ?_⟩
    cases h with
    | fcmp left right => exact ⟨left, right⟩
  | call callee args =>
    dsimp only
    rw [checkCall_eq_nil_iff, accepts_eq_true_iff]
    refine ⟨fun h => .call h.1.1 h.1.2 h.2, fun h => ?_⟩
    cases h with
    | call enough exactly fits => exact ⟨⟨enough, exactly⟩, fits⟩
  | phi incoming =>
    dsimp only
    rw [List.filterMap_eq_nil_iff]
    constructor
    · intro h
      refine .phi fun v source hmem => ?_
      by_contra hne
      simpa [hne] using h (v, source) hmem
    · intro h
      cases h with
      | phi inputs =>
        rintro ⟨v, source⟩ hmem
        exact if_pos (inputs v source hmem)
  | ret value =>
    cases value with
    | none =>
      refine ⟨fun h => .retVoid ?_, fun h => ?_⟩
      · by_contra hne
        simp [Ne.symm hne] at h
      · cases h with
        | retVoid nothing => exact if_pos nothing.symm
    | some value =>
      refine ⟨fun h => .ret ?_, fun h => ?_⟩
      · by_contra hne
        simp [hne] at h
      · cases h with
        | ret returned => exact if_pos returned
  | br target => exact ⟨fun _ => .br target, fun _ => rfl⟩
  | condBr cond thenBlock elseBlock =>
    constructor
    · intro h
      refine .condBr ?_
      by_contra hne
      simp [hne] at h
    · intro h
      cases h with
      | condBr truth => exact if_pos truth

end Function

/-! ### The verifier -/

/-- The checks of a block find nothing exactly if the block is well formed. -/
theorem wellFormedBlock_iff {m : Module} {f : Function} {insts : List Inst} :
    f.WellFormedBlock m insts ↔
      checkShape (insts.map (·.op)) = [] ∧ ∀ i ∈ insts, f.checkInst m i = [] := by
  rw [checkShape, List.append_eq_nil_iff, checkTerminator_eq_nil_iff, List.map_map,
    checkPhis_eq_nil_iff, List.pairwise_map]
  constructor
  · intro h
    exact ⟨⟨isClosed_iff.mpr h.ended, h.phis⟩, fun i hi => Function.checkInst_eq_nil_iff.mpr
      (h.typed i hi)⟩
  · rintro ⟨⟨hended, hphis⟩, htyped⟩
    exact ⟨isClosed_iff.mp hended, hphis, fun i hi => Function.checkInst_eq_nil_iff.mp
      (htyped i hi)⟩

/-- The verifier finds nothing in a module exactly if the module is well formed: what it accepts
obeys the rules, and what obeys the rules is accepted. -/
theorem verify_eq_nil_iff_wellFormed (m : Module) : m.verify = [] ↔ m.WellFormed := by
  rw [Module.verify_eq_nil_iff]
  refine forall₄_congr fun f _ b _ => ?_
  rw [wellFormedBlock_iff, List.map_map, List.forall_mem_map]
  rfl

end TreeCompiler.IR
