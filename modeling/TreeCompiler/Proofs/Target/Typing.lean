/-
The code of a verified function is well typed.

What the code of a function is (`Translated`) says nothing of types but what each value was made
with.  That the types fit comes from elsewhere: from the way lowering lays a function out, from the
checks of the verifier, and from the generator, which declares every function with its own
signature.  Together they say that the value of an operand has the machine type of the operand
(`TypedTranslation.operand`), by induction on the instructions, since an operation has the type of
what it is applied to and that was made before.

From there each instruction of the code obeys its rule (`Instr.WellTyped`), and a branch passes to
each target exactly what it asks for.
-/
import TreeCompiler.Proofs.Target.Compile
import TreeCompiler.Proofs.Target.Translation

namespace TreeCompiler.IR.Function

/-- The type of what an operation gives. -/
def resultTy (m : Module) (f : Function) : Op → Ty
  | .alloca _ => .ptr
  | .load ty _ => ty
  | .arith _ lhs _ => f.valueType lhs
  | .fcmp .. => .i1
  | .call callee _ => (m.function callee).sig.ret
  | .phi _ => .f64
  | .store .. | .ret _ | .br _ | .condBr .. => .void

theorem Typed.ty_eq {m : Module} {f : Function} {op : Op} {ty : Ty} (h : f.Typed m op ty) :
    ty = f.resultTy m op := by
  cases h with
  | plain h => cases h <;> rfl
  | _ => rfl

end TreeCompiler.IR.Function

namespace TreeCompiler.Target

open IR (FuncId BlockId InstId GlobalId Ty Value Op)

/-! ### The rules of target code -/

/-- The typing rules: what an instruction is applied to and what it makes, in a function of these
blocks that returns `ret`. -/
inductive Instr.WellTyped (env : Environment) (ret : Option MachineTy) (blocks : List CodeBlock)
    (d : Draft) :
    Instr → Prop
  | iconst {dst : ValueId} {n : Int64} (hdst : d.types[dst]? = some .i64) :
      WellTyped env ret blocks d (.iconst dst n)
  | f64const {dst : ValueId} {x : Double} (hdst : d.types[dst]? = some .f64) :
      WellTyped env ret blocks d (.f64const dst x)
  | globalValue {dst : ValueId} {n : Nat} (hn : n < d.strings.length)
      (hdst : d.types[dst]? = some .pointer) :
      WellTyped env ret blocks d (.globalValue dst n)
  | stackAddr {dst : ValueId} {n : Nat} (hn : n < d.slots.length)
      (hdst : d.types[dst]? = some .pointer) :
      WellTyped env ret blocks d (.stackAddr dst n)
  | load {dst addr : ValueId} {ty : MachineTy} (haddr : d.types[addr]? = some .pointer)
      (hdst : d.types[dst]? = some ty) : WellTyped env ret blocks d (.load dst ty addr)
  | store {value addr : ValueId} {ty : MachineTy} (hvalue : d.types[value]? = some ty)
      (haddr : d.types[addr]? = some .pointer) : WellTyped env ret blocks d (.store value addr)
  | arith {dst lhs rhs : ValueId} {op : IR.Arith} {ty : MachineTy}
      (hop : op.isFloat = true ↔ ty = .f64) (hlhs : d.types[lhs]? = some ty)
      (hrhs : d.types[rhs]? = some ty) (hdst : d.types[dst]? = some ty) :
      WellTyped env ret blocks d (.arith dst op lhs rhs)
  | fcmp {dst lhs rhs : ValueId} {pred : IR.Compare} (hlhs : d.types[lhs]? = some .f64)
      (hrhs : d.types[rhs]? = some .f64) (hdst : d.types[dst]? = some .i8) :
      WellTyped env ret blocks d (.fcmp dst pred lhs rhs)
  | call {dst : Option ValueId} {id : FuncId} {number : FunctionNumber} {sig : CodeSig}
      {args : List ValueId} (hcallee : env.callees.lookup id = some (number, sig))
      (hargs : d.Types args sig.params) (hdst : d.Made dst sig.ret) :
      WellTyped env ret blocks d (.call dst number args)
  | funcAddr {dst : ValueId} {id : FuncId} {number : FunctionNumber} {sig : CodeSig}
      (hcallee : env.callees.lookup id = some (number, sig))
      (hdst : d.types[dst]? = some .pointer) :
      WellTyped env ret blocks d (.funcAddr dst number)
  | callIndirect {dst : Option ValueId} {sig : CodeSig} {addr : ValueId} {args : List ValueId}
      (haddr : d.types[addr]? = some .pointer) (hargs : d.Types args sig.params)
      (hdst : d.Made dst sig.ret) : WellTyped env ret blocks d (.callIndirect dst sig addr args)
  | jump {target : BlockId} {block : CodeBlock} {args : List ValueId}
      (htarget : blocks[target]? = some block) (hargs : d.Types args (block.params.map (·.2))) :
      WellTyped env ret blocks d (.jump target args)
  | brif {cond : ValueId} {thenBlock elseBlock : BlockId} {block block' : CodeBlock}
      {args args' : List ValueId} (hcond : d.types[cond]? = some .i8)
      (hthen : blocks[thenBlock]? = some block) (hargs : d.Types args (block.params.map (·.2)))
      (helse : blocks[elseBlock]? = some block')
      (hargs' : d.Types args' (block'.params.map (·.2))) :
      WellTyped env ret blocks d (.brif cond thenBlock args elseBlock args')
  | ret {value : Option ValueId} (hvalue : d.Made value ret) :
      WellTyped env ret blocks d (.ret value)

/-! ### Signatures -/

/-- Every callee is declared with the signature of its function. -/
def Environment.Faithful (env : Environment) : Prop :=
  ∀ {callee : FuncId} {number : FunctionNumber} {sig : CodeSig},
    env.callees.lookup callee = some (number, sig) →
      codeSig env.conv (env.code.function callee) = .ok sig

theorem codeSig_ok {conv : CallConv} {f : IR.Function} {sig : CodeSig}
    (h : codeSig conv f = .ok sig) :
    sig.params.map some = f.sig.params.map MachineTy.ofTy? ∧
      sig.ret = MachineTy.ofTy? f.sig.ret := by
  rw [codeSig_eq] at h
  by_cases hvoid : Ty.void ∈ f.sig.params
  · rw [if_pos hvoid] at h
    cases h
  · rw [if_neg hvoid] at h
    cases h
    refine ⟨?_, rfl⟩
    show (f.sig.params.filterMap MachineTy.ofTy?).map some = _
    generalize f.sig.params = tys at hvoid
    induction tys with
    | nil => rfl
    | cons ty tys ih =>
      obtain ⟨hty, hrest⟩ := not_or.mp (mt List.mem_cons.mpr hvoid)
      obtain ⟨mty, hmty⟩ := Option.isSome_iff_exists.mp ((isSome_ofTy? ty).mpr (Ne.symm hty))
      simp [hmty, ih hrest]

/-! ### Types of operands -/

/-- The code of a function that lowering gave and the verifier accepted, made where every function
is declared with its own signature. -/
structure TypedTranslation (env : Environment) (f : IR.Function) (sig : CodeSig) (d : Draft)
    (blocks : List CodeBlock) : Prop extends Translated env f sig d blocks where
  checked : f.Checked env.code
  faithful : env.Faithful
  declared : codeSig env.conv f = .ok sig
  /-- Nothing branches to the first block, so it has no phis. -/
  first : leadingPhis f 0 = []

namespace TypedTranslation

variable {env : Environment} {f : IR.Function} {sig : CodeSig} {d : Draft} {blocks : List CodeBlock}
  {b : BlockId} {k : InstId} {i : IR.Inst} {v : Value} {x : ValueId} {code : List Instr}
  {block : CodeBlock}

/-- The parameters of the first block are those of the function. -/
theorem entry_params (h : TypedTranslation env f sig d blocks) (hblock : blocks[0]? = some block) :
    block.params.map (·.2) = sig.params ∧ ∀ param ∈ block.params,
      d.types[param.1]? = some param.2 := by
  obtain ⟨phis, args, hparams, hphis, htys, hargs⟩ := h.params hblock
  rw [h.first] at hphis
  cases hphis
  rw [hparams]
  exact ⟨htys, hargs⟩

/-- The parameters of another block are those of its phis. -/
theorem phi_params (h : TypedTranslation env f sig d blocks) (hb : 0 < b)
    (hblock : blocks[b]? = some block) :
    List.Forall₂ (StandsFor d) (leadingPhis f b) block.params := by
  obtain ⟨phis, args, hparams, hphis, htys, -⟩ := h.params hblock
  rw [if_neg (Nat.ne_of_gt hb)] at htys
  rw [hparams, List.map_eq_nil_iff.mp htys, List.append_nil]
  exact hphis

theorem param_made (h : TypedTranslation env f sig d blocks) {n : Nat}
    (hx : (entryValues blocks)[n]? = some x) :
    d.Made (some x) (MachineTy.ofTy? (f.valueType (.param n))) := by
  obtain ⟨block, hblock, param, hparam, rfl⟩ : ∃ block, blocks[0]? = some block ∧
      ∃ param, block.params[n]? = some param ∧ param.1 = x := by
    unfold entryValues at hx
    cases blocks with
    | nil => simp at hx
    | cons block rest => exact ⟨block, rfl, by simpa using hx⟩
  obtain ⟨htys, hall⟩ := h.entry_params hblock
  refine Draft.made_some_iff.mpr ⟨param.2, ?_, hall param (List.mem_of_getElem? hparam)⟩
  -- The `n`-th parameter has the machine type of the `n`-th parameter of the function.
  have hty : (f.sig.params.map MachineTy.ofTy?)[n]? = some (some param.2) := by
    rw [← (codeSig_ok h.declared).1, ← htys]
    simp [hparam]
  obtain ⟨ty, hget, hty⟩ : ∃ ty, f.sig.params[n]? = some ty ∧
      MachineTy.ofTy? ty = some param.2 := by
    simpa using hty
  rw [IR.Function.valueType, hget]
  exact hty

/-- The value of an operand has its type, if this holds of the results that have been computed. -/
theorem fetch_made (h : TypedTranslation env f sig d blocks)
    (hv : Fetches d (entryValues blocks) v x code)
    (hresult : ∀ k, v = .inst k → (k, x) ∈ d.results →
      d.Made (some x) (MachineTy.ofTy? (f.valueType (.inst k)))) :
    d.Made (some x) (MachineTy.ofTy? (f.valueType v)) := by
  cases hv with
  | int hx => exact congrArg some hx
  | float hx => exact congrArg some hx
  | param hx hlt => exact h.param_made hx
  | global hn hx => exact congrArg some hx
  | inst hx hlt => exact hresult _ rfl hx

/-- The result of an instruction has its type, if this holds of what an operation is applied to. -/
theorem emits_made (h : TypedTranslation env f sig d blocks) (hi : f.insts[k]? = some i)
    (hphi : i.op.isPhi = false) {dst : Option ValueId}
    (hemits : Emits env f d (entryValues blocks) b i dst code)
    (hlhs : ∀ op lhs rhs x code, i.op = .arith op lhs rhs →
      Fetches d (entryValues blocks) lhs x code →
      d.Made (some x) (MachineTy.ofTy? (f.valueType lhs))) : d.Made dst (MachineTy.ofTy? i.ty) := by
  rw [(h.checked.laid.rules.typed hi).ty_eq]
  cases hemits with
  | alloca hop hslot hdst => rw [hop]; exact hdst
  | load hop hmty haddr hdst => rw [hop]; exact hmty ▸ hdst
  | store hop hargs => rw [hop]; rfl
  | arith hop hargs hx hdst =>
    cases hargs with
    | cons hfetch _ =>
      obtain ⟨mty, hmty, hx'⟩ := Draft.made_some_iff.mp (hlhs _ _ _ _ _ hop hfetch)
      obtain rfl := Option.some.inj (hx.symm.trans hx')
      rw [hop]
      exact hmty ▸ hdst
  | fcmp hop hargs hdst => rw [hop]; exact hdst
  | call hop hcallee hfixed hargs hdst =>
    rw [hop]
    exact (codeSig_ok (h.faithful hcallee)).2 ▸ hdst
  | callIndirect hop hcallee hvariadic hargs hparams haddr hdst =>
    rw [(h.checked.laid.rules.typed hi).ty_eq] at hdst
    exact hdst
  | phi hop => simp [hop, Op.isPhi] at hphi
  | ret hop hvalue => rw [hop]; rfl
  | br hop hinputs hargs => rw [hop]; rfl
  | condBr hop hcond hthen hthenArgs helse helseArgs => rw [hop]; rfl

/-- **What stands for the result of an instruction has its type.** -/
theorem result_made (h : TypedTranslation env f sig d blocks) (hx : (k, x) ∈ d.results) :
    d.Made (some x) (MachineTy.ofTy? (f.valueType (.inst k))) := by
  -- An operation is applied to what has a smaller number.
  induction k using Nat.strongRecOn generalizing x with
  | ind k ih =>
    obtain ⟨i, (hi : f.insts[k]? = some i), hwhy⟩ := h.bound _ hx
    have hty : f.valueType (.inst k) = i.ty := by simp [IR.Function.valueType, hi]
    rw [hty]
    rcases hwhy with ⟨-, hmade⟩ | ⟨b, code, hemits⟩
    · exact hmade
    · have hphi : i.op.isPhi = false := by cases hemits <;> simp_all [Op.isPhi]
      refine h.emits_made hi hphi hemits ?_
      intro op lhs rhs y code hop hfetch
      refine h.fetch_made hfetch ?_
      intro j hj hmem
      have hlt := ((h.checked.laid.rules.sourced hi).operands hphi lhs
        (by simp [hop, Op.operands])).2 j hj
      exact ih j hlt hmem

/-- **The value of an operand has its type.** -/
theorem operand_made (h : TypedTranslation env f sig d blocks)
    (hv : Fetches d (entryValues blocks) v x code) :
    d.Made (some x) (MachineTy.ofTy? (f.valueType v)) :=
  h.fetch_made hv fun _ _ hmem => h.result_made hmem

theorem operands_made (h : TypedTranslation env f sig d blocks) {vs : List Value}
    {xs : List ValueId} (hvs : FetchesAll d (entryValues blocks) vs xs code) :
    List.Forall₂ (fun v x => d.Made (some x) (MachineTy.ofTy? (f.valueType v))) vs xs := by
  induction hvs with
  | nil => exact .nil
  | cons hv _ ih => exact .cons (h.operand_made hv) ih

/-! ### Results -/

theorem lookup_of_mem {results : List (InstId × ValueId)} (h : (results.map (·.1)).Nodup)
    (hx : (k, x) ∈ results) : results.lookup k = some x := by
  induction results with
  | nil => cases hx
  | cons r rest ih =>
    rw [List.map_cons, List.nodup_cons] at h
    rcases List.mem_cons.mp hx with rfl | hrest
    · simp
    · have hne : k ≠ r.1 := by
        rintro rfl
        exact h.1 (List.mem_map.mpr ⟨_, hrest, rfl⟩)
      rw [List.lookup_cons, beq_false_of_ne hne]
      exact ih h.2 hrest

theorem block_exists (h : TypedTranslation env f sig d blocks) (hb : b < f.blocks.length) :
    ∃ block, blocks[b]? = some block :=
  ⟨_, List.getElem?_eq_getElem (h.length ▸ hb)⟩

/-- The code of an instruction is in its block. -/
theorem exists_emits (h : TypedTranslation env f sig d blocks) (hi : f.insts[k]? = some i) :
    ∃ dst code, Emits env f d (entryValues blocks) i.block i dst code ∧
      ∀ x ∈ dst, (k, x) ∈ d.results := by
  have hplace := h.checked.laid.placement
  obtain ⟨block, hblock⟩ := h.block_exists (hplace.block_lt hi)
  obtain ⟨codes, -, hcodes⟩ := h.bodies hblock
  have hmem : (k, i) ∈ f.blockInsts i.block := hplace.mem_blockInsts.mpr ⟨hi, rfl⟩
  obtain ⟨code, -, dst, hemits, hresult⟩ := exists_left_of_forall₂ hcodes.flip hmem
  exact ⟨dst, code, hemits, hresult⟩

/-- A phi has a parameter of its block. -/
theorem phi_mem_results (h : TypedTranslation env f sig d blocks) (hi : f.insts[k]? = some i)
    (hphi : i.op.isPhi = true) : ∃ x, (k, x) ∈ d.results := by
  obtain ⟨block, hblock⟩ := h.block_exists (h.checked.laid.placement.block_lt hi)
  obtain ⟨phis, args, -, hphis, -⟩ := h.params hblock
  have hmem := mem_leadingPhis h.checked.laid.placement h.checked.phis hi hphi
  obtain ⟨param, -, hstands⟩ := exists_left_of_forall₂ hphis.flip hmem
  exact ⟨param.1, hstands.1⟩

/-- **An instruction has a value of its machine type**, and none if it has no result. -/
theorem lookup_type (h : TypedTranslation env f sig d blocks) (hi : f.insts[k]? = some i) :
    (d.results.lookup k).bind (d.types[·]?) = MachineTy.ofTy? i.ty := by
  have hty : f.valueType (.inst k) = i.ty := by simp [IR.Function.valueType, hi]
  have hbound : ∀ {x}, (k, x) ∈ d.results →
      (d.results.lookup k).bind (d.types[·]?) = MachineTy.ofTy? i.ty := by
    intro x hx
    obtain ⟨mty, hmty, hx'⟩ := Draft.made_some_iff.mp (h.result_made hx)
    rw [lookup_of_mem h.distinct hx, ← hty, hmty]
    exact hx'
  cases hphi : i.op.isPhi with
  | true =>
    obtain ⟨x, hx⟩ := h.phi_mem_results hi hphi
    exact hbound hx
  | false =>
    obtain ⟨dst, code, hemits, hresult⟩ := h.exists_emits hi
    have hmade := h.emits_made hi hphi hemits fun _ _ _ _ _ _ hfetch => h.operand_made hfetch
    cases dst with
    | some x => exact hbound (hresult x rfl)
    | none =>
      have hvoid : MachineTy.ofTy? i.ty = none := by
        unfold Draft.Made at hmade
        simpa using hmade.symm
      rcases hlookup : d.results.lookup k with _ | x
      · rw [hvoid]
        rfl
      · obtain ⟨front, back, happ, -⟩ := List.lookup_eq_some_iff.mp hlookup
        rw [← hlookup]
        exact hbound (x := x) (by simp [happ])

/-! ### Branches -/

/-- Fetching an operand does not branch. -/
theorem branches_of_fetches {vs : List Value} {xs : List ValueId} {entry : List ValueId}
    (h : FetchesAll d entry vs xs code) : ∀ instr ∈ code, instr.branches = [] := by
  induction h with
  | nil => simp
  | cons hv _ ih =>
    intro instr hinstr
    rcases List.mem_append.mp hinstr with hfirst | hrest
    · cases hv <;> simp_all [Instr.branches]
    · exact ih instr hrest

/-- The code of an instruction branches where the instruction does, and passes what the phis there
have for its block. -/
theorem branch_of_emits {entry : List ValueId} {dst : Option ValueId}
    (h : Emits env f d entry b i dst code) {instr : Instr} (hinstr : instr ∈ code)
    {target : BlockId} {args : List ValueId} (hbranch : (target, args) ∈ instr.branches) :
    target ∈ i.op.successors ∧ ∃ inputs code', Inputs f b target inputs ∧
      FetchesAll d entry inputs args code' ∧ code' <:+: code := by
  have hlast : ∀ {vs xs front last}, FetchesAll d entry vs xs front → instr ∈ front ++ last →
      instr ∈ last := by
    intro vs xs front last hfront hmem
    rcases List.mem_append.mp hmem with hmem | hmem
    · rw [branches_of_fetches hfront instr hmem] at hbranch
      cases hbranch
    · exact hmem
  cases h with
  | alloca hop hslot hdst => simp_all [Instr.branches]
  | load hop hty haddr hdst => have := hlast haddr hinstr; simp_all [Instr.branches]
  | store hop hargs => have := hlast hargs hinstr; simp_all [Instr.branches]
  | arith hop hargs hx hdst => have := hlast hargs hinstr; simp_all [Instr.branches]
  | fcmp hop hargs hdst => have := hlast hargs hinstr; simp_all [Instr.branches]
  | call hop hcallee hfixed hargs hdst => have := hlast hargs hinstr; simp_all [Instr.branches]
  | callIndirect hop hcallee hvariadic hargs hparams haddr hdst =>
    have hcall := hlast hargs hinstr
    rcases List.mem_pair.mp hcall with rfl | rfl <;> simp [Instr.branches] at hbranch
  | phi hop => cases hinstr
  | ret hop hvalue => have := hlast hvalue hinstr; simp_all [Instr.branches]
  | br hop hinputs hargs =>
    obtain rfl := List.mem_singleton.mp (hlast hargs hinstr)
    obtain ⟨rfl, rfl⟩ : target = _ ∧ args = _ := by simpa [Instr.branches] using hbranch
    exact ⟨by simp [hop, Op.successors], _, _, hinputs, hargs, List.infix_append [] _ _⟩
  | condBr hop hcond hthen hthenArgs helse helseArgs =>
    simp only [List.append_assoc] at hinstr
    obtain rfl := List.mem_singleton.mp (hlast helseArgs (hlast hthenArgs (hlast hcond hinstr)))
    rcases List.mem_pair.mp hbranch with heq | heq
    · obtain ⟨rfl, rfl⟩ := Prod.mk.inj heq
      refine ⟨by simp [hop, Op.successors], _, _, hthen, hthenArgs, ?_⟩
      rw [List.append_assoc (_ ++ _)]
      exact List.infix_append _ _ _
    · obtain ⟨rfl, rfl⟩ := Prod.mk.inj heq
      exact ⟨by simp [hop, Op.successors], _, _, helse, helseArgs, List.infix_append _ _ _⟩

/-- An instruction of a block is in the code of an instruction. -/
theorem exists_inst (h : TypedTranslation env f sig d blocks) (hblock : blocks[b]? = some block)
    {instr : Instr} (hinstr : instr ∈ block.body) :
    ∃ (k : InstId) (i : IR.Inst) (dst : Option ValueId) (code : List Instr),
      f.insts[k]? = some i ∧ i.block = b ∧
      Emits env f d (entryValues blocks) b i dst code ∧ instr ∈ code ∧ code <:+: block.body := by
  obtain ⟨codes, hbody, hcodes⟩ := h.bodies hblock
  rw [hbody] at hinstr ⊢
  obtain ⟨code, hcode, hmem⟩ := List.mem_flatten.mp hinstr
  obtain ⟨⟨k, i⟩, hi, dst, hemits, -⟩ := exists_left_of_forall₂ hcodes hcode
  obtain ⟨hi, hb⟩ := h.checked.laid.placement.mem_blockInsts.mp hi
  obtain ⟨front, back, hsplit⟩ := List.append_of_mem hcode
  exact ⟨k, i, dst, code, hi, hb, hemits, hmem, front.flatten, back.flatten, by simp [hsplit]⟩

/-- The inputs of phis have the types of the parameters that stand for the phis. -/
theorem types_of_inputs {phis : List (InstId × IR.Inst)} {params : List (ValueId × MachineTy)}
    {vs : List Value} {xs : List ValueId} (hphis : List.Forall₂ (StandsFor d) phis params)
    (hinputs : List.Forall₂ (fun phi v => f.valueType v = phi.2.ty) phis vs)
    (hmade : List.Forall₂ (fun v x => d.Made (some x) (MachineTy.ofTy? (f.valueType v))) vs xs) :
    d.Types xs (params.map (·.2)) := by
  induction hphis generalizing vs xs with
  | nil =>
    cases hinputs
    cases hmade
    exact .nil
  | cons hstands _ ih =>
    cases hinputs with
    | cons hv hvs =>
      cases hmade with
      | cons hx hxs =>
        refine .cons ?_ (ih hvs hxs)
        rw [hv, hstands.2.1] at hx
        exact Option.some.inj hx

/-- What a branch passes has the types of what its target takes. -/
theorem types_edge (h : TypedTranslation env f sig d blocks) (hb : 0 < b)
    (hblock : blocks[b]? = some block) {source : BlockId} {vs : List Value} {xs : List ValueId}
    (hinputs : Inputs f source b vs) (hargs : FetchesAll d (entryValues blocks) vs xs code) :
    d.Types xs (block.params.map (·.2)) := by
  refine types_of_inputs (h.phi_params hb hblock) ?_ (h.operands_made hargs)
  refine List.Forall₂.imp ?_ 
    ((List.forall₂_and_left _ _).mpr ⟨fun phi hphi => of_mem_leadingPhis hphi, hinputs⟩)
  rintro ⟨k, i⟩ v ⟨⟨hmem, incoming, (hop : i.op = .phi incoming)⟩, hfind⟩
  obtain ⟨hi, -⟩ := h.checked.laid.placement.mem_blockInsts.mp hmem
  rw [hop] at hfind
  rw [h.checked.phi_ty hi hop]
  exact h.checked.input_ty hi hop (List.mem_of_find?_eq_some hfind)

/-- The target of a branch has its place in the code, after the first block. -/
theorem target_exists (h : TypedTranslation env f sig d blocks) (hi : f.insts[k]? = some i)
    {target : BlockId} (htarget : target ∈ i.op.successors) :
    0 < target ∧ ∃ block, blocks[target]? = some block := by
  obtain ⟨hlt, -, hpos⟩ := h.checked.laid.branching.target ⟨k, i, hi, rfl, htarget⟩
  exact ⟨hpos, h.block_exists hlt⟩

/-- **A branch passes to its target the inputs that the phis there have for the branching
block.** -/
theorem branch (h : TypedTranslation env f sig d blocks) (hblock : blocks[b]? = some block)
    {instr : Instr} (hinstr : instr ∈ block.body) {target : BlockId} {args : List ValueId}
    (hbranch : (target, args) ∈ instr.branches) :
    ∃ next inputs code, blocks[target]? = some next ∧ Inputs f b target inputs ∧
      FetchesAll d (entryValues blocks) inputs args code ∧ code <:+: block.body ∧
      d.Types args (next.params.map (·.2)) := by
  obtain ⟨k, i, dst, code, hi, -, hemits, hmem, hinfix⟩ := h.exists_inst hblock hinstr
  obtain ⟨htarget, inputs, code', hinputs, hargs, hpart⟩ := branch_of_emits hemits hmem hbranch
  obtain ⟨hpos, next, hnext⟩ := h.target_exists hi htarget
  exact ⟨next, inputs, code', hnext, hinputs, hargs, hpart.trans hinfix,
    h.types_edge hpos hnext hinputs hargs⟩

/-! ### Instructions -/

theorem wellTyped_of_fetches {vs : List Value} {xs entry : List ValueId} {ret : Option MachineTy}
    (h : FetchesAll d entry vs xs code) : ∀ instr ∈ code, instr.WellTyped env ret blocks d := by
  induction h with
  | nil => simp
  | cons hv _ ih =>
    intro instr hinstr
    rcases List.mem_append.mp hinstr with hfirst | hrest
    · cases hv with
      | int hx => exact List.mem_singleton.mp hfirst ▸ .iconst hx
      | float hx => exact List.mem_singleton.mp hfirst ▸ .f64const hx
      | param hx hlt => cases hfirst
      | global hn hx =>
        exact List.mem_singleton.mp hfirst ▸ .globalValue (List.getElem?_eq_some_iff.mp hn).1 hx
      | inst hx hlt => cases hfirst
    · exact ih instr hrest

/-- Two operands of known types. -/
theorem two_types (h : TypedTranslation env f sig d blocks) {w : Value} {y : ValueId}
    (hargs : FetchesAll d (entryValues blocks) [v, w] [x, y] code) {ty ty' : MachineTy}
    (hv : MachineTy.ofTy? (f.valueType v) = some ty)
    (hw : MachineTy.ofTy? (f.valueType w) = some ty') :
    d.types[x]? = some ty ∧ d.types[y]? = some ty' := by
  have hmade := h.operands_made hargs
  simp only [List.forall₂_cons, hv, hw] at hmade
  exact ⟨Option.some.inj hmade.1, Option.some.inj hmade.2.1⟩

theorem one_type (h : TypedTranslation env f sig d blocks)
    (hargs : FetchesAll d (entryValues blocks) [v] [x] code) {ty : MachineTy}
    (hv : MachineTy.ofTy? (f.valueType v) = some ty) : d.types[x]? = some ty := by
  have hmade := h.operands_made hargs
  simp only [List.forall₂_cons, hv] at hmade
  exact Option.some.inj hmade.1

/-- Numbers that are computed with have a machine type, that of floating-point numbers unless they
are divided. -/
theorem machineTy_of_number {op : IR.Arith} {ty : Ty}
    (h : if op.isFloat then ty = .f64 else ty.isInt = true) :
    ∃ mty, MachineTy.ofTy? ty = some mty ∧ (op.isFloat = true ↔ mty = .f64) := by
  cases hfloat : op.isFloat with
  | true =>
    obtain rfl : ty = .f64 := by simpa [hfloat] using h
    exact ⟨.f64, rfl, by simp⟩
  | false =>
    have hint : ty.isInt = true := by simpa [hfloat] using h
    cases ty <;> simp_all [Ty.isInt, MachineTy.ofTy?]

/-- The arguments of a call with a fixed number of them have the types of the parameters. -/
theorem call_types (h : TypedTranslation env f sig d blocks) {callee : FuncId} {args : List Value}
    (hi : f.insts[k]? = some i) (hop : i.op = .call callee args) {number : FunctionNumber}
    {sig' : CodeSig} (hcallee : env.callees.lookup callee = some (number, sig'))
    (hfixed : (env.code.function callee).sig.variadic = false) {xs : List ValueId}
    (hargs : FetchesAll d (entryValues blocks) args xs code) : d.Types xs sig'.params := by
  have htyped := h.checked.laid.rules.typed hi
  have hcheck := h.checked.checked hi
  rw [hop] at htyped
  simp only [IR.Function.checkInst, hop] at hcheck
  obtain ⟨-, haccepts, -⟩ := IR.Function.Typed.plain_call htyped
  have hcount : args.length = (env.code.function callee).sig.params.length := by
    simpa [IR.Signature.accepts, hfixed] using haccepts
  obtain ⟨hlen, hmade⟩ := List.forall₂_iff_get.mp (h.operands_made hargs)
  obtain ⟨hparams, -⟩ := codeSig_ok (h.faithful hcallee)
  have hlen' : sig'.params.length = (env.code.function callee).sig.params.length := by
    simpa using congrArg List.length hparams
  refine List.forall₂_iff_get.mpr ⟨by omega, fun n hn hn' => ?_⟩
  have harg : f.valueType (args.get ⟨n, by omega⟩)
      = (env.code.function callee).sig.params.get ⟨n, by omega⟩ :=
    IR.Function.valueType_of_checkCall hcheck haccepts (List.getElem?_eq_getElem _)
      (List.getElem?_eq_getElem _)
  have hty : MachineTy.ofTy? ((env.code.function callee).sig.params.get ⟨n, by omega⟩)
      = some (sig'.params.get ⟨n, hn'⟩) := by
    have hget := congrArg (·[n]?) hparams
    simpa [List.getElem?_eq_getElem hn', List.getElem?_eq_getElem (hlen' ▸ hn')] using hget.symm
  have hx := hmade n (by omega) hn
  rw [harg, hty] at hx
  exact Option.some.inj hx

theorem ret_made (h : TypedTranslation env f sig d blocks) {value : Option Value}
    (hi : f.insts[k]? = some i) (hop : i.op = .ret value) {x : Option ValueId}
    (hvalue : FetchesAll d (entryValues blocks) value.toList x.toList code) : d.Made x sig.ret := by
  have hcheck := h.checked.checked hi
  have hret : (value.map f.valueType).getD .void = f.sig.ret := by
    by_contra hne
    simp [IR.Function.checkInst, hop, hne] at hcheck
  rw [(codeSig_ok h.declared).2, ← hret]
  have hmade := h.operands_made hvalue
  cases value with
  | none =>
    cases x with
    | none => rfl
    | some x => cases hmade
  | some v =>
    cases x with
    | none => cases hmade
    | some x =>
      cases hmade with
      | cons hx _ => exact hx

/-- **Every instruction of the code obeys its rule.** -/
theorem wellTyped (h : TypedTranslation env f sig d blocks) (hblock : blocks[b]? = some block)
    {instr : Instr} (hinstr : instr ∈ block.body) : instr.WellTyped env sig.ret blocks d := by
  obtain ⟨k, i, dst, code, hi, -, hemits, hmem, -⟩ := h.exists_inst hblock hinstr
  have hcheck := h.checked.checked hi
  unfold IR.Function.checkInst at hcheck
  -- What fetches the operands is well typed, and so only the rest of the code is left.
  have hlast : ∀ {vs xs front last}, FetchesAll d (entryValues blocks) vs xs front →
      instr ∈ front ++ last → (instr ∈ last → instr.WellTyped env sig.ret blocks d) →
      instr.WellTyped env sig.ret blocks d := by
    intro vs xs front last hfront hmem hrest
    rcases List.mem_append.mp hmem with hmem | hmem
    · exact wellTyped_of_fetches hfront instr hmem
    · exact hrest hmem
  cases hemits with
  | alloca hop hslot hdst =>
    obtain rfl := List.mem_singleton.mp hmem
    exact .stackAddr (List.getElem?_eq_some_iff.mp hslot).1 (Option.some.inj hdst)
  | @load _ ptr _ _ _ _ hop hty haddr hdst =>
    refine hlast haddr hmem fun hmem => ?_
    obtain rfl := List.mem_singleton.mp hmem
    have hptr : f.valueType ptr = .ptr := by simpa [hop] using hcheck
    exact .load (h.one_type haddr (by rw [hptr]; rfl)) (Option.some.inj hdst)
  | @store value ptr _ _ _ _ hop hargs =>
    refine hlast hargs hmem fun hmem => ?_
    obtain rfl := List.mem_singleton.mp hmem
    obtain ⟨held, hslot⟩ := IR.Function.Typed.plain_store (hop ▸ h.checked.laid.rules.typed hi)
    simp only [hop] at hcheck
    obtain ⟨hptr, hvalue⟩ := IR.Function.valueType_of_checkStore hcheck hslot
    obtain ⟨ty, hty⟩ := Option.isSome_iff_exists.mp
      ((isSome_ofTy? held).mpr (h.checked.slot_ty hslot))
    obtain ⟨hx, haddr⟩ := h.two_types hargs (hvalue ▸ hty) (by rw [hptr]; rfl)
    exact .store hx haddr
  | @arith op lhs rhs ty _ _ _ _ hop hargs hx hdst =>
    refine hlast hargs hmem fun hmem => ?_
    obtain rfl := List.mem_singleton.mp hmem
    simp only [hop] at hcheck
    obtain ⟨hsame, hnumber⟩ := IR.Function.valueType_of_checkArith hcheck
    obtain ⟨mty, hmty, hfloat⟩ := machineTy_of_number hnumber
    obtain ⟨hlhs, hrhs⟩ := h.two_types hargs hmty (hsame ▸ hmty)
    obtain rfl := Option.some.inj (hx.symm.trans hlhs)
    exact .arith hfloat hlhs hrhs (Option.some.inj hdst)
  | fcmp hop hargs hdst =>
    refine hlast hargs hmem fun hmem => ?_
    obtain rfl := List.mem_singleton.mp hmem
    simp only [hop] at hcheck
    obtain ⟨hl, hr⟩ := IR.Function.valueType_of_checkCompare hcheck
    obtain ⟨hlhs, hrhs⟩ := h.two_types hargs (by rw [hl]; rfl) (by rw [hr]; rfl)
    exact .fcmp hlhs hrhs (Option.some.inj hdst)
  | call hop hcallee hfixed hargs hdst =>
    refine hlast hargs hmem fun hmem => ?_
    obtain rfl := List.mem_singleton.mp hmem
    exact .call hcallee (h.call_types hi hop hcallee hfixed hargs) hdst
  | callIndirect hop hcallee hvariadic hargs hparams haddr hdst =>
    refine hlast hargs hmem fun hmem => ?_
    rcases List.mem_pair.mp hmem with rfl | rfl
    · exact .funcAddr hcallee (Option.some.inj haddr)
    · exact .callIndirect (Option.some.inj haddr) hparams hdst
  | phi hop => cases hmem
  | ret hop hvalue =>
    refine hlast hvalue hmem fun hmem => ?_
    obtain rfl := List.mem_singleton.mp hmem
    exact .ret (h.ret_made hi hop hvalue)
  | br hop hinputs hargs =>
    refine hlast hargs hmem fun hmem => ?_
    obtain rfl := List.mem_singleton.mp hmem
    obtain ⟨hpos, next, hnext⟩ := h.target_exists hi (by rw [hop]; exact List.mem_singleton_self _)
    exact .jump hnext (h.types_edge hpos hnext hinputs hargs)
  | @condBr cond _ _ _ _ _ _ _ _ _ _ hop hcond hthen hthenArgs helse helseArgs =>
    simp only [List.append_assoc] at hmem
    refine hlast hcond hmem fun hmem => hlast hthenArgs hmem fun hmem =>
      hlast helseArgs hmem fun hmem => ?_
    obtain rfl := List.mem_singleton.mp hmem
    have hi1 : f.valueType cond = .i1 := by simpa [hop] using hcheck
    obtain ⟨hpos, next, hnext⟩ := h.target_exists hi (by rw [hop]; exact List.mem_cons_self)
    obtain ⟨hpos', next', hnext'⟩ :=
      h.target_exists hi (by rw [hop]; exact List.mem_cons_of_mem _ List.mem_cons_self)
    exact .brif (h.one_type hcond (by rw [hi1]; rfl)) hnext
      (h.types_edge hpos hnext hthen hthenArgs) hnext'
      (h.types_edge hpos' hnext' helse helseArgs)

end TypedTranslation

end TreeCompiler.Target
