/-
Checks that no module of a program fails.

Lowering and the checks of a module each have their own idea of what a stack slot is, how many
arguments a call needs and where a phi belongs.  They agree.  Whatever statements are missing in a
module, the verifier does not find a phi behind another instruction, a load or a store that goes
anywhere but to a slot, or a call with a wrong number of arguments.

Two things the verifier does not look at are right as well: a load has the type of what its slot
holds, and the result of a call has the type that the callee returns.  All of it is part of how a
function is laid out (`Function.Laid`, `Function.Phis`), and is read off here.
-/
import TreeCompiler.Proofs.IR.Void
import TreeCompiler.Proofs.Lowering.Sound

namespace TreeCompiler

namespace IR

/-- Complaints about the place of a phi, the address of a load or a store, and the arguments of a
call. -/
def Violation.isMisuse : Violation → Bool
  | .misplacedPhi | .notAPointer .. | .callArity .. => true
  | _ => false

theorem Violation.isMisuse_eq_false_iff {v : Violation} :
    v.isMisuse = false ↔ v ≠ .misplacedPhi ∧ (∀ op found, v ≠ .notAPointer op found) ∧
      ∀ callee expected found, v ≠ .callArity callee expected found := by
  cases v <;> simp [isMisuse]

/-- Nothing is wrong with the phis of a block that has none after its first instruction. -/
theorem checkPhis_eq_nil {ops : List Op} (h : ∀ op ∈ ops.tail, op.isPhi = false) :
    checkPhis ops = [] := by
  cases ops with
  | nil => rfl
  | cons op rest =>
    have hrest : (rest.dropWhile Op.isPhi).any Op.isPhi = false := by
      refine List.any_eq_false.mpr fun op hop => ?_
      simp [h op ((List.dropWhile_suffix _).subset hop)]
    have hall : rest.any Op.isPhi = false := List.any_eq_false.mpr fun op hop => by simp [h op hop]
    cases hop : op.isPhi with
    | true => simp [checkPhis, hop, hrest]
    | false => simp [checkPhis, hop, hall]

namespace Function

variable {m : Module} {f : Function} {k : InstId} {i : Inst}

/-- What the instructions of a function read from, write to and call. -/
structure Addressed (m : Module) (f : Function) : Prop where
  /-- A load reads a slot of the function and has the type of what the slot holds. -/
  load : ∀ {k : InstId} {i : Inst} {ty : Ty} {ptr : Value}, f.insts[k]? = some i →
    i.op = .load ty ptr →
    i.ty = ty ∧ ∃ j slot, ptr = .inst j ∧ f.insts[j]? = some slot ∧ slot.op = .alloca ty
  /-- A store writes to a slot of the function. -/
  store : ∀ {k : InstId} {i : Inst} {value ptr : Value} {volatile : Bool}, f.insts[k]? = some i →
    i.op = .store value ptr volatile →
    ∃ j slot ty, ptr = .inst j ∧ f.insts[j]? = some slot ∧ slot.op = .alloca ty
  /-- A call has the type that its callee returns. -/
  call : ∀ {k : InstId} {i : Inst} {callee : FuncId} {args : List Value}, f.insts[k]? = some i →
    i.op = .call callee args → ∃ target, m.functions[callee]? = some target ∧ i.ty = target.sig.ret

theorem Typed.plain_load {ty ty' : Ty} {ptr : Value} (h : f.Typed m (.load ty ptr) ty') :
    ty' = ty ∧ f.slotType ptr = some ty := by
  cases h with
  | plain h =>
    cases h with
    | load hp => exact ⟨rfl, hp⟩

theorem Typed.plain_store {ty : Ty} {value ptr : Value} {volatile : Bool}
    (h : f.Typed m (.store value ptr volatile) ty) : ∃ held, f.slotType ptr = some held := by
  cases h with
  | plain h =>
    cases h with
    | store hp => exact ⟨_, hp⟩

theorem Typed.plain_call {ty : Ty} {callee : FuncId} {args : List Value}
    (h : f.Typed m (.call callee args) ty) :
    callee < m.functions.length ∧ (m.function callee).sig.accepts args.length = true ∧
      ty = (m.function callee).sig.ret := by
  cases h with
  | plain h =>
    cases h with
    | call hlt haccepts => exact ⟨hlt, haccepts, rfl⟩

namespace Laid

theorem addressed (hf : f.Laid m) : f.Addressed m where
  load := by
    intro k i ty ptr hi hop
    obtain ⟨hty, hslot⟩ := Typed.plain_load (hop ▸ hf.rules.typed hi)
    exact ⟨hty, slotType_eq_some_iff.mp hslot⟩
  store := by
    intro k i value ptr volatile hi hop
    obtain ⟨ty, hslot⟩ := Typed.plain_store (hop ▸ hf.rules.typed hi)
    obtain ⟨j, slot, hptr, hj, hslot⟩ := slotType_eq_some_iff.mp hslot
    exact ⟨j, slot, ty, hptr, hj, hslot⟩
  call := by
    intro k i callee args hi hop
    obtain ⟨hlt, -, hty⟩ := Typed.plain_call (hop ▸ hf.rules.typed hi)
    exact ⟨m.function callee, Module.getElem?_functions hlt, hty⟩

/-- The address of a slot is a pointer. -/
theorem valueType_of_slotType (hf : f.Laid m) {v : Value} {ty : Ty} (hv : f.slotType v = some ty) :
    f.valueType v = .ptr := by
  obtain ⟨j, slot, rfl, hj, hop⟩ := slotType_eq_some_iff.mp hv
  have htyped := hf.rules.typed hj
  rw [hop] at htyped
  have hty : slot.ty = .ptr := by
    generalize slot.ty = ty' at htyped
    cases htyped with
    | plain h => cases h
    | alloca => rfl
  simp [valueType, hj, hty]

/-- An instruction may be given operands of wrong types, but it is not misused. -/
theorem checkInst_not_misuse (hf : f.Laid m) (hi : f.insts[k]? = some i) :
    ∀ v ∈ f.checkInst m i, v.isMisuse = false := by
  have htyped := hf.rules.typed hi
  unfold checkInst
  cases hop : i.op with
  | alloca ty =>
    dsimp only
    split <;> simp [Violation.isMisuse]
  | load ty ptr =>
    rw [hop] at htyped
    simp [hf.valueType_of_slotType (Typed.plain_load htyped).2]
  | store value ptr volatile =>
    rw [hop] at htyped
    obtain ⟨ty, hslot⟩ := Typed.plain_store htyped
    simp only [checkStore, hf.valueType_of_slotType hslot, hslot, ne_eq,
      not_true_eq_false, if_false]
    split <;> simp [Violation.isMisuse]
  | arith op lhs rhs =>
    simp only [checkArith]
    split
    · split
      · simp [Violation.isMisuse]
      · split <;> simp [Violation.isMisuse]
    · split <;> simp [Violation.isMisuse]
  | fcmp pred lhs rhs =>
    simp only [checkCompare]
    split <;> simp [Violation.isMisuse]
  | call callee args =>
    rw [hop] at htyped
    simp only [checkCall, (Typed.plain_call htyped).2.1, if_true]
    intro v hv
    obtain ⟨x, -, hx⟩ := List.mem_filterMap.mp hv
    split at hx
    · cases hx
    · cases hx
      rfl
  | phi incoming =>
    intro v hv
    obtain ⟨x, -, hx⟩ := List.mem_filterMap.mp hv
    dsimp only at hx
    split at hx
    · cases hx
    · cases hx
      rfl
  | ret value =>
    dsimp only
    split <;> simp [Violation.isMisuse]
  | br target => simp
  | condBr cond thenBlock elseBlock =>
    dsimp only
    split <;> simp [Violation.isMisuse]

end Laid

/-- A block has no phi but the one at its head. -/
theorem Phis.checkPhis_eq_nil (hphis : f.Phis) (hf : f.Placement) (b : BlockId) :
    checkPhis ((f.blockInsts b).map (·.2.op)) = [] := by
  refine IR.checkPhis_eq_nil fun op hop => ?_
  rw [← List.map_tail] at hop
  obtain ⟨⟨k, i⟩, hmem, rfl⟩ := List.mem_map.mp hop
  obtain ⟨hi, hblock⟩ := hf.mem_blockInsts.mp (List.mem_of_mem_tail hmem)
  cases hphi : i.op.isPhi with
  | false => rfl
  | true =>
    -- A phi is the first of its block, and no position is listed twice.
    have hhead := hphis.first hi hphi
    have hids := hf.increasing b
    rw [hblock] at hhead
    rw [← hf.map_blockInsts] at hhead hids
    cases hblk : f.blockInsts b with
    | nil => simp [hblk] at hmem
    | cons e rest =>
      rw [hblk] at hmem hhead hids
      obtain rfl : e.1 = k := by simpa using hhead
      have hlt := (List.pairwise_cons.mp hids).1 _ (List.mem_map_of_mem hmem)
      exact absurd hlt (Nat.lt_irrefl _)

end Function

/-- What is reported about a module whose functions are laid out well is never a misuse. -/
theorem Module.verify_not_misuse {m : Module} (hlaid : ∀ f ∈ m.functions, f.Laid m ∧ f.Phis) :
    ∀ e ∈ m.verify, e.violation.isMisuse = false := by
  intro e he
  obtain ⟨f, hf, he⟩ := List.mem_flatMap.mp he
  obtain ⟨b, -, he⟩ := List.mem_flatMap.mp he
  obtain ⟨v, hv, rfl⟩ := List.mem_map.mp he
  obtain ⟨hlaid, hphis⟩ := hlaid f hf
  rcases List.mem_append.mp hv with hshape | hinst
  · rw [List.map_map] at hshape
    rcases List.mem_append.mp hshape with hterm | hplace
    · unfold checkTerminator at hterm
      split at hterm
      · simp at hterm
        simp [hterm, Violation.isMisuse]
      · split at hterm <;> simp at hterm
        simp [hterm, Violation.isMisuse]
    · have hnil := hphis.checkPhis_eq_nil hlaid.placement b
      rw [show checkPhis ((f.blockInsts b).map ((·.op) ∘ (·.2))) = [] from hnil] at hplace
      cases hplace
  · obtain ⟨i, hi, hv⟩ := List.mem_flatMap.mp hinst
    obtain ⟨entry, hentry, rfl⟩ := List.mem_map.mp hi
    exact hlaid.checkInst_not_misuse (hlaid.placement.mem_blockInsts.mp hentry).1 v hv

end IR

namespace Lowering

/-- The functions of a program whose module the verifier accepts. -/
theorem lowerProgram_checked {root : Program.Block} {options : Options} {l : Lowered}
    (h : lowerProgram root options = .ok l) (hverify : l.code.verify = []) {f : IR.Function}
    (hf : f ∈ l.code.functions) : f.Checked l.code := by
  obtain ⟨id, hget⟩ := List.getElem?_of_mem hf
  have hlt : id < l.code.functions.length := (List.getElem?_eq_some_iff.mp hget).1
  obtain rfl : l.code.function id = f := by simp [IR.Module.function, hget]
  obtain ⟨hlaid, hphis⟩ := lowerProgram_laid h hlt
  refine ⟨hlaid, hphis, fun hb => (IR.Module.verify_eq_nil_iff.mp hverify _ hf _ hb).1, ?_⟩
  intro k i hi
  have hmem := hlaid.placement.mem_blockInsts (e := (k, i)) |>.mpr ⟨hi, rfl⟩
  exact l.code.checkInst_of_verify hverify hlt (hlaid.placement.block_lt hi) hmem

/-- **What lowering never gets wrong**, whether or not statements are missing in the module: no phi
is misplaced, no address is anything but a slot of the function, no call has too few or too many
arguments, and loads and calls have the types of what they read and call. -/
theorem lowerProgram_addressed {root : Program.Block} {options : Options} {l : Lowered}
    (h : lowerProgram root options = .ok l) :
    (∀ e ∈ l.code.verify, e.violation ≠ .misplacedPhi ∧
      (∀ op found, e.violation ≠ .notAPointer op found) ∧
      ∀ callee expected found, e.violation ≠ .callArity callee expected found) ∧
    ∀ f ∈ l.code.functions, f.Addressed l.code := by
  have hlaid : ∀ f ∈ l.code.functions, f.Laid l.code ∧ f.Phis := by
    intro f hf
    obtain ⟨n, hn, rfl⟩ := IR.Module.exists_function_of_mem hf
    exact lowerProgram_laid h hn
  refine ⟨fun e he => ?_, fun f hf => (hlaid f hf).1.addressed⟩
  exact IR.Violation.isMisuse_eq_false_iff.mp (IR.Module.verify_not_misuse hlaid e he)

/-- A variable that is given a number of another type, printed as if it were a string, and a call
that lacks its argument. -/
def mistypedPrint : Program.Block :=
  .mk 0 [.var 1 "double" "x" (some (.int 2 1)), .expr 3 (.call 4 "println" [.ident 5 "x"]),
    .expr 6 (.call 7 "println" [])]

theorem lowerProgram_addressed_mistypedPrint :
    ∃ l, lowerProgram mistypedPrint {} = .ok l ∧ l.errors = [.arityMismatch "println" 1 0] ∧
      l.code.verify.map (·.violation) = [.storeType .f64 .i64, .callArgType "println" 0 .str .f64] ∧
      (∀ e ∈ l.code.verify, e.violation ≠ .misplacedPhi ∧
        (∀ op found, e.violation ≠ .notAPointer op found) ∧
        ∀ callee expected found, e.violation ≠ .callArity callee expected found) ∧
      ∀ f ∈ l.code.functions, f.Addressed l.code := by
  have hrun : (match lowerProgram mistypedPrint {} with
      | .ok l => decide (l.errors = [.arityMismatch "println" 1 0] ∧
          l.code.verify.map (·.violation)
            = [.storeType .f64 .i64, .callArgType "println" 0 .str .f64])
      | .error _ => false) = true := by decide +kernel
  rcases h : lowerProgram mistypedPrint {} with e | l
  · simp [h] at hrun
  · simp only [h, decide_eq_true_eq] at hrun
    exact ⟨l, rfl, hrun.1, hrun.2, lowerProgram_addressed h⟩

end Lowering

end TreeCompiler
