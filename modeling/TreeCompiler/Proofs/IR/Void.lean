/-
Where `void` gets past the verifier.

A value of type `void` is nothing that could be computed with, stored or branched on, and the
verifier sees to that: arithmetic and comparisons take numbers, a slot is given what it holds and
holds something, a condition is a truth value, and the inputs of a phi have its type.  An argument
has the type of its parameter.

Three things are left.  Nothing is said about the types of the parameters themselves.  A function
without a result may return a value that is none, since both have the type `void`.  And an argument
beyond the declared parameters may be anything.
-/
import Mathlib.Logic.Basic
import TreeCompiler.Proofs.IR.Layout
import TreeCompiler.Proofs.IR.Verified

namespace TreeCompiler.IR

namespace Function

/-- An instruction uses a value of type `void`. -/
def UsesVoid (f : Function) : Prop :=
  ∃ i ∈ f.insts, ∃ v ∈ i.op.operands, f.valueType v = .void

/-- Where something of type `void` is used although the verifier finds nothing wrong: as a
parameter, as the value that a function without a result returns, and as an argument that the callee
does not declare. -/
inductive VoidEscapes (m : Module) (f : Function) : Prop
  | param (h : Ty.void ∈ f.sig.params)
  | returned {i : Inst} {v : Value} (hi : i ∈ f.insts) (hop : i.op = .ret (some v))
      (hv : f.valueType v = .void)
  | passed {i : Inst} {callee : FuncId} {args : List Value} {v : Value} (hi : i ∈ f.insts)
      (hop : i.op = .call callee args) (harg : v ∈ args.drop (m.function callee).sig.params.length)
      (hv : f.valueType v = .void)

/-- A function that lowering gave and the verifier accepted. -/
structure Checked (m : Module) (f : Function) : Prop where
  laid : f.Laid m
  phis : f.Phis
  shaped : ∀ {b : BlockId}, b < f.blocks.length → checkShape ((f.blockInsts b).map (·.2.op)) = []
  checked : ∀ {k : InstId} {i : Inst}, f.insts[k]? = some i → f.checkInst m i = []

variable {m : Module} {f : Function} {k : InstId} {i : Inst} {v : Value}

namespace Checked

theorem phi_ty (hf : f.Checked m) {incoming : List (Value × BlockId)} (hi : f.insts[k]? = some i)
    (hop : i.op = .phi incoming) : i.ty = .f64 := by
  have htyped := hf.laid.rules.typed hi
  rw [hop] at htyped
  exact htyped.ty_of_phi

/-- The inputs of a phi have the type that a phi has. -/
theorem input_ty (hf : f.Checked m) {incoming : List (Value × BlockId)} (hi : f.insts[k]? = some i)
    (hop : i.op = .phi incoming) {x : Value × BlockId} (hx : x ∈ incoming) :
    f.valueType x.1 = .f64 := by
  have hchecked := hf.checked hi
  simp only [checkInst, hop, List.filterMap_eq_nil_iff, hf.phi_ty hi hop] at hchecked
  by_contra hne
  simpa [hne] using hchecked x hx

theorem arith_ty (hf : f.Checked m) (hi : f.insts[k]? = some i) {op : Arith} {lhs rhs : Value}
    (hop : i.op = .arith op lhs rhs) : f.valueType lhs ≠ .void ∧ f.valueType rhs ≠ .void := by
  have hchecked := hf.checked hi
  simp only [checkInst, hop] at hchecked
  exact valueType_ne_void_of_checkArith hchecked

/-- A slot holds something. -/
theorem slot_ty (hf : f.Checked m) {ptr : Value} {ty : Ty} (hslot : f.slotType ptr = some ty) :
    ty ≠ .void := by
  obtain ⟨k, i, rfl, hi, hop⟩ := slotType_eq_some_iff.mp hslot
  have hchecked := hf.checked hi
  rintro rfl
  simp [checkInst, hop, Ty.isVoid] at hchecked

end Checked

/-- An argument for a declared parameter is `void` only if the parameter is. -/
theorem mem_drop_of_checkCall {callee : FuncId} {args : List Value}
    (hchecked : f.checkCall m callee args = [])
    (ha : (m.function callee).sig.accepts args.length = true)
    (hparams : Ty.void ∉ (m.function callee).sig.params) (hv : v ∈ args)
    (hvoid : f.valueType v = .void) : v ∈ args.drop (m.function callee).sig.params.length := by
  obtain ⟨n, hn, rfl⟩ := List.mem_iff_getElem.mp hv
  rcases Nat.lt_or_ge n (m.function callee).sig.params.length with hlt | hge
  · have hty := valueType_of_checkCall hchecked ha (List.getElem?_eq_getElem hn)
      (List.getElem?_eq_getElem hlt)
    rw [hvoid] at hty
    exact absurd (hty ▸ List.getElem_mem hlt) hparams
  · rw [List.mem_drop_iff_getElem]
    exact ⟨n - (m.function callee).sig.params.length, by omega, by congr 1; omega⟩

/-- **A value of type `void` can only be returned or passed as a further argument**, if no function
has a parameter of that type. -/
theorem Checked.of_void_operand (hf : f.Checked m)
    (hparams : ∀ f ∈ m.functions, Ty.void ∉ f.sig.params) (hi : f.insts[k]? = some i)
    (hv : v ∈ i.op.operands) (hvoid : f.valueType v = .void) :
    i.op = .ret (some v) ∨ ∃ callee args, i.op = .call callee args ∧
      v ∈ args.drop (m.function callee).sig.params.length := by
  have htyped := hf.laid.rules.typed hi
  have hchecked := hf.checked hi
  unfold checkInst at hchecked
  cases hop : i.op with
  | alloca ty => simp [hop, Op.operands] at hv
  | load ty ptr =>
    obtain rfl : v = ptr := by simpa [hop, Op.operands] using hv
    simp [hop, hvoid] at hchecked
  | store value ptr volatile =>
    simp only [hop] at hchecked
    rw [hop] at htyped hv
    generalize i.ty = ty at htyped
    cases htyped with
    | plain hplain =>
      cases hplain with
      | store hslot =>
        obtain ⟨hptr, hvalue⟩ := valueType_of_checkStore hchecked hslot
        have hcases : v = value ∨ v = ptr := by simpa [Op.operands] using hv
        rcases hcases with rfl | rfl
        · exact absurd (hvalue.symm.trans hvoid) (hf.slot_ty hslot)
        · rw [hptr] at hvoid
          cases hvoid
  | arith op lhs rhs =>
    have hne := hf.arith_ty hi hop
    have hcases : v = lhs ∨ v = rhs := by simpa [hop, Op.operands] using hv
    rcases hcases with rfl | rfl
    · exact absurd hvoid hne.1
    · exact absurd hvoid hne.2
  | fcmp pred lhs rhs =>
    simp only [hop] at hchecked
    rw [hop] at hv
    exact absurd hvoid (valueType_ne_void_of_checkCompare hchecked v hv)
  | call callee args =>
    simp only [hop] at hchecked
    rw [hop] at htyped hv
    generalize i.ty = ty at htyped
    cases htyped with
    | plain hplain =>
      cases hplain with
      | call hlt ha =>
        have hcallee := hparams _ (m.function_mem hlt)
        exact .inr ⟨callee, args, rfl, mem_drop_of_checkCall hchecked ha hcallee hv hvoid⟩
  | phi incoming =>
    obtain ⟨x, hx, rfl⟩ : ∃ x ∈ incoming, x.1 = v := by simpa [hop, Op.operands] using hv
    rw [hf.input_ty hi hop hx] at hvoid
    cases hvoid
  | ret value =>
    obtain rfl : value = some v := by simpa [hop, Op.operands] using hv
    exact .inl rfl
  | br target => simp [hop, Op.operands] at hv
  | condBr cond thenBlock elseBlock =>
    obtain rfl : v = cond := by simpa [hop, Op.operands] using hv
    simp [hop, hvoid] at hchecked

/-- A function without a body uses nothing. -/
theorem not_usesVoid_of_isDeclaration (hf : f.Placement) (h : f.isDeclaration = true) :
    ¬ f.UsesVoid := by
  rintro ⟨i, hi, -⟩
  obtain ⟨k, hk, hget⟩ := List.mem_iff_getElem.mp hi
  have hlt := hf.block_lt (List.getElem?_eq_some_iff.mpr ⟨hk, hget⟩)
  have hnil : f.blocks = [] := by simpa [isDeclaration] using h
  simp [hnil] at hlt

end Function

/-- Something of type `void` is used in the module, as a parameter or as an operand. -/
def Module.UsesVoid (m : Module) : Prop :=
  ∃ f ∈ m.functions, Ty.void ∈ f.sig.params ∨ f.UsesVoid

/-- **In a verified module `void` is used exactly where it gets past the verifier.** -/
theorem Module.usesVoid_iff {m : Module} (hm : ∀ f ∈ m.functions, f.Checked m) :
    m.UsesVoid ↔ ∃ f ∈ m.functions, f.VoidEscapes m := by
  constructor
  · rintro ⟨f, hf, hvoid⟩
    by_cases hparams : ∃ g ∈ m.functions, Ty.void ∈ g.sig.params
    · obtain ⟨g, hg, hparam⟩ := hparams
      exact ⟨g, hg, .param hparam⟩
    · have hnone : ∀ g ∈ m.functions, Ty.void ∉ g.sig.params := by
        intro g hg hparam
        exact hparams ⟨g, hg, hparam⟩
      rcases hvoid with hparam | ⟨i, hi, v, hv, hty⟩
      · exact absurd hparam (hnone f hf)
      · obtain ⟨k, hk⟩ := List.getElem?_of_mem hi
        rcases (hm f hf).of_void_operand hnone hk hv hty with hop | ⟨callee, args, hop, harg⟩
        · exact ⟨f, hf, .returned hi hop hty⟩
        · exact ⟨f, hf, .passed hi hop harg hty⟩
  · rintro ⟨f, hf, hvoid⟩
    refine ⟨f, hf, ?_⟩
    cases hvoid with
    | param hparam => exact .inl hparam
    | returned hi hop hty => exact .inr ⟨_, hi, _, by simp [hop, Op.operands], hty⟩
    | passed hi hop harg hty =>
      refine .inr ⟨_, hi, _, ?_, hty⟩
      rw [hop]
      exact List.mem_of_mem_drop harg

end TreeCompiler.IR
