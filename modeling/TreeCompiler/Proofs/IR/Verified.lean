/-
What an empty report of the verifier says.

The verifier goes through functions, blocks and instructions and collects what it finds.  An empty
report therefore speaks of each block and of each instruction by itself: the block ends with its one
terminator, and the check of the instruction finds nothing.
-/
import TreeCompiler.IR.Verify
import TreeCompiler.Proofs.IR.Growth

namespace TreeCompiler.IR

/-- The verifier finds nothing exactly if it finds nothing in the shape of any block and in any
instruction. -/
theorem Module.verify_eq_nil_iff {m : Module} :
    m.verify = [] ↔ ∀ f ∈ m.functions, ∀ b, b < f.blocks.length →
      checkShape ((f.blockInsts b).map (·.2.op)) = [] ∧
        ∀ entry ∈ f.blockInsts b, f.checkInst m entry.2 = [] := by
  unfold Module.verify Function.verify Function.checkBlock
  simp only [List.flatMap_eq_nil_iff, List.mem_range, List.map_eq_nil_iff, List.append_eq_nil_iff,
    List.map_map, List.mem_map, forall_exists_index, and_imp, forall_apply_eq_imp_iff₂]
  rfl

/-- A block whose shape is right has a terminator. -/
theorem exists_isTerminator_of_checkShape {ops : List Op} (h : checkShape ops = []) :
    ∃ op ∈ ops, op.isTerminator = true := by
  have hterm : checkTerminator ops = [] := (List.append_eq_nil_iff.mp h).1
  unfold checkTerminator at hterm
  rcases hpos : ops.findIdx? Op.isTerminator with _ | pos
  · simp [hpos] at hterm
  · obtain ⟨hlt, hop, -⟩ := List.findIdx?_eq_some_iff_getElem.mp hpos
    exact ⟨ops[pos], List.getElem_mem hlt, hop⟩

/-- In a block whose shape is right nothing comes after a terminator. -/
theorem eq_nil_of_checkShape {before after : List Op} {op : Op}
    (h : checkShape (before ++ op :: after) = []) (hop : op.isTerminator = true) : after = [] := by
  have hterm : checkTerminator (before ++ op :: after) = [] := (List.append_eq_nil_iff.mp h).1
  unfold checkTerminator at hterm
  rcases hpos : (before ++ op :: after).findIdx? Op.isTerminator with _ | pos
  · simp [hpos] at hterm
  · obtain ⟨hbound, -, hfirst⟩ := List.findIdx?_eq_some_iff_getElem.mp hpos
    have hlen : pos + 1 = before.length + (after.length + 1) := by simpa [hpos] using hterm
    have hle : pos ≤ before.length := by
      rcases Nat.lt_or_ge before.length pos with hlt | hge
      · simpa [hop] using hfirst before.length hlt
      · exact hge
    exact List.eq_nil_of_length_eq_zero (by omega)

/-! ### The types of operands -/

namespace Function

variable {f : Function} {lhs rhs value ptr : Value}

/-- What is computed with is a number. -/
theorem valueType_ne_void_of_checkArith {op : Arith} (h : f.checkArith op lhs rhs = []) :
    f.valueType lhs ≠ .void ∧ f.valueType rhs ≠ .void := by
  unfold checkArith at h
  dsimp only at h
  by_cases hfloat : op.isFloat = true
  · rw [if_pos hfloat] at h
    refine ⟨?_, ?_⟩
    · intro hvoid
      simp [hvoid, Ty.isFloat] at h
    · intro hvoid
      by_cases hl : f.valueType lhs = .f64
      · simp [hvoid, hl, Ty.isFloat] at h
      · simp [hl, Ty.isFloat] at h
  · rw [if_neg hfloat] at h
    by_cases hint : ((f.valueType lhs).isInt && decide (f.valueType lhs = f.valueType rhs)) = true
    · obtain ⟨hl, heq⟩ : (f.valueType lhs).isInt = true ∧ f.valueType lhs = f.valueType rhs := by
        simpa using hint
      have hne : f.valueType lhs ≠ .void := by
        intro hvoid
        simp [hvoid, Ty.isInt] at hl
      exact ⟨hne, heq ▸ hne⟩
    · simp [hint] at h

/-- What is compared is a number. -/
theorem valueType_ne_void_of_checkCompare (h : f.checkCompare lhs rhs = []) :
    ∀ v ∈ [lhs, rhs], f.valueType v ≠ .void := by
  intro v hv hvoid
  unfold checkCompare at h
  rcases hfind : [lhs, rhs].find? fun v => !(f.valueType v).isFloat with _ | u
  · simpa [hvoid, Ty.isFloat] using List.find?_eq_none.mp hfind v hv
  · simp [hfind] at h

/-- Numbers of one type are computed with, floating-point numbers unless they are divided. -/
theorem valueType_of_checkArith {op : Arith} (h : f.checkArith op lhs rhs = []) :
    f.valueType lhs = f.valueType rhs ∧
      if op.isFloat then f.valueType lhs = .f64 else (f.valueType lhs).isInt = true := by
  unfold checkArith at h
  dsimp only at h
  by_cases hfloat : op.isFloat = true
  · rw [if_pos hfloat] at h ⊢
    by_cases hl : f.valueType lhs = .f64
    · by_cases hr : f.valueType rhs = .f64
      · exact ⟨hl.trans hr.symm, hl⟩
      · simp [hl, hr, Ty.isFloat] at h
    · simp [hl, Ty.isFloat] at h
  · rw [if_neg hfloat] at h ⊢
    by_cases hint : ((f.valueType lhs).isInt && decide (f.valueType lhs = f.valueType rhs)) = true
    · obtain ⟨hl, heq⟩ : (f.valueType lhs).isInt = true ∧ f.valueType lhs = f.valueType rhs := by
        simpa using hint
      exact ⟨heq, hl⟩
    · simp [hint] at h

/-- Floating-point numbers are compared. -/
theorem valueType_of_checkCompare (h : f.checkCompare lhs rhs = []) :
    f.valueType lhs = .f64 ∧ f.valueType rhs = .f64 := by
  unfold checkCompare at h
  rcases hfind : [lhs, rhs].find? fun v => !(f.valueType v).isFloat with _ | u
  · have hall := List.find?_eq_none.mp hfind
    exact ⟨by simpa [Ty.isFloat] using hall lhs (by simp), by
      simpa [Ty.isFloat] using hall rhs (by simp)⟩
  · simp [hfind] at h

/-- The arguments for the declared parameters have their types. -/
theorem valueType_of_checkCall {m : Module} {callee : FuncId} {args : List Value}
    (h : f.checkCall m callee args = []) (ha : (m.function callee).sig.accepts args.length = true)
    {n : Nat} {v : Value} {ty : Ty} (hv : args[n]? = some v)
    (hty : (m.function callee).sig.params[n]? = some ty) :
    f.valueType v = ty := by
  unfold checkCall at h
  dsimp only at h
  rw [if_pos ha, List.filterMap_eq_nil_iff] at h
  have hmem : ((v, ty), n) ∈ (args.zip (m.function callee).sig.params).zipIdx := by
    rw [List.mem_zipIdx_iff_getElem?, List.getElem?_zip_eq_some]
    exact ⟨hv, hty⟩
  have hnone := h _ hmem
  by_cases heq : f.valueType v = ty
  · exact heq
  · simp [heq] at hnone

/-- A slot is given what it holds. -/
theorem valueType_of_checkStore (h : f.checkStore value ptr = []) {ty : Ty}
    (hslot : f.slotType ptr = some ty) : f.valueType ptr = .ptr ∧ f.valueType value = ty := by
  unfold checkStore at h
  rw [hslot] at h
  by_cases hptr : f.valueType ptr = .ptr
  · refine ⟨hptr, ?_⟩
    by_cases hty : f.valueType value = ty
    · exact hty
    · simp [hptr, hty] at h
  · simp [hptr] at h

end Function

namespace Module

variable {m : Module} {id : FuncId}

theorem function_mem (h : id < m.functions.length) : m.function id ∈ m.functions := by
  simp only [function, List.getElem?_eq_getElem h, Option.getD_some]
  exact List.getElem_mem h

/-- Every block of a verified function has a terminator. -/
theorem exists_isTerminator_of_verify (hm : m.verify = []) (h : id < m.functions.length)
    {b : BlockId} (hb : b < (m.function id).blocks.length) :
    ∃ entry ∈ (m.function id).blockInsts b, entry.2.op.isTerminator = true := by
  obtain ⟨hshape, -⟩ := verify_eq_nil_iff.mp hm _ (function_mem h) b hb
  obtain ⟨op, hmem, hop⟩ := exists_isTerminator_of_checkShape hshape
  obtain ⟨entry, hentry, rfl⟩ := List.mem_map.mp hmem
  exact ⟨entry, hentry, hop⟩

/-- The check of an instruction of a verified function finds nothing. -/
theorem checkInst_of_verify (hm : m.verify = []) (h : id < m.functions.length) {b : BlockId}
    (hb : b < (m.function id).blocks.length) {entry : InstId × Inst}
    (hentry : entry ∈ (m.function id).blockInsts b) :
    (m.function id).checkInst m entry.2 = [] :=
  (verify_eq_nil_iff.mp hm _ (function_mem h) b hb).2 entry hentry

end Module

end TreeCompiler.IR
