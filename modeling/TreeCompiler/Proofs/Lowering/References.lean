/-
Every identifier refers to something.

Instructions, blocks, functions and strings are referred to by their position, and a position means
something only inside the function or the module that it was given out for.  Nothing that reads a
module looks whether a position is there: the printer, the checks and the code generator follow it.
`Closed` says that they always find something, whatever statements are missing in the module.

A value gets into a function by way of its scopes, and a function opens with a scope of its own; so
no position of one function is ever used in another.  That argument is part of the layout of a
function (`Function.Laid`), and what is left here is to read the positions off it.
-/
import TreeCompiler.Proofs.Lowering.Dominance

namespace TreeCompiler

namespace IR

/-- The value is a constant or stands for something that the function or the module has. -/
def Value.Refers (m : Module) (f : Function) : Value → Prop
  | .const _ => True
  | .inst k => k < f.insts.length
  | .param i => i < f.sig.params.length
  | .global id => id < m.globals.length

namespace Function

variable {m : Module} {f : Function} {b : BlockId}

/-- **Every position in a function is one of that function**, or of its module. -/
structure Closed (m : Module) (f : Function) : Prop where
  /-- Blocks list instructions that are there. -/
  listed : ∀ {b : BlockId} {block : BasicBlock}, f.blocks[b]? = some block →
    ∀ k ∈ block.insts, k < f.insts.length
  /-- Instructions stand in blocks that are there. -/
  block : ∀ {k : InstId} {i : Inst}, f.insts[k]? = some i → i.block < f.blocks.length
  operands : ∀ {k : InstId} {i : Inst}, f.insts[k]? = some i → ∀ v ∈ i.op.operands, v.Refers m f
  /-- Only a phi may use what comes later. -/
  earlier : ∀ {k : InstId} {i : Inst}, f.insts[k]? = some i → i.op.isPhi = false →
    ∀ j, .inst j ∈ i.op.operands → j < k
  callees : ∀ {k : InstId} {i : Inst} {callee : FuncId} {args : List Value}, f.insts[k]? = some i →
    i.op = .call callee args → callee < m.functions.length
  targets : ∀ {k : InstId} {i : Inst}, f.insts[k]? = some i →
    ∀ b ∈ i.op.successors, b < f.blocks.length
  /-- The inputs of a phi come from blocks that are there. -/
  sources : ∀ {k : InstId} {i : Inst} {incoming : List (Value × BlockId)}, f.insts[k]? = some i →
    i.op = .phi incoming → ∀ x ∈ incoming, x.2 < f.blocks.length

theorem Available.refers {v : Value} (h : f.Available m.globals.length b v) : v.Refers m f := by
  cases v with
  | const c => trivial
  | inst k =>
    obtain ⟨i, hi, -⟩ := h
    exact (List.getElem?_eq_some_iff.mp hi).1
  | param i => exact h
  | global id => exact h

theorem Laid.closed (hf : f.Laid m) (hphis : f.Phis) : f.Closed m where
  listed := by
    intro b block hb k hk
    refine hf.placement.lt (b := b) ?_
    simpa only [ids, hb] using hk
  block hi := hf.placement.block_lt hi
  operands := by
    intro k i hi v hv
    cases hop : i.op.isPhi with
    | false => exact ((hf.rules.sourced hi).operands hop v hv).1.refers
    | true =>
      obtain ⟨incoming, hphi⟩ : ∃ incoming, i.op = .phi incoming := by
        cases hi : i.op <;> simp [hi, Op.isPhi] at hop
        exact ⟨_, rfl⟩
      rw [hphi] at hv
      obtain ⟨x, hx, rfl⟩ := List.mem_map.mp hv
      exact ((hf.rules.sourced hi).inputs incoming hphi x hx).refers
  earlier hi hop j hj := ((hf.rules.sourced hi).operands hop _ hj).2 j rfl
  callees := by
    intro k i callee args hi hop
    have hty := hf.rules.typed hi
    rw [hop] at hty
    generalize i.ty = ty at hty
    cases hty with
    | plain h =>
      cases h with
      | call hlt _ => exact hlt
  targets hi b hb := (hf.branching.target ⟨_, _, hi, rfl, hb⟩).1
  sources := by
    -- A phi has inputs for the blocks that branch to it, and such a block has an instruction.
    intro k i incoming hi hop x hx
    obtain ⟨j, i', hj, hblock, -⟩ :=
      (hphis.inputs hi hop x.2).mp (List.mem_map.mpr ⟨x, hx, rfl⟩)
    rw [← hblock]
    exact hf.placement.block_lt hj

end Function

end IR

namespace Lowering

/-- **No identifier dangles** in a module that lowering gives, whether or not statements are missing
in it. -/
theorem lowerProgram_closed {root : Program.Block} {options : Options} {l : Lowered}
    (h : lowerProgram root options = .ok l) {f : IR.Function} (hf : f ∈ l.code.functions) :
    f.Closed l.code := by
  obtain ⟨n, hn, rfl⟩ := List.mem_iff_getElem.mp hf
  have hfun : l.code.function n = l.code.functions[n] := by
    simp [IR.Module.function, hn]
  rw [← hfun]
  obtain ⟨hlaid, hphis⟩ := lowerProgram_laid h hn
  exact hlaid.closed hphis

/-- A loop whose body declares a function with a parameter and calls it; the loop has no bound,
since the name that should give it is not declared. -/
def unboundedLoop : Program.Block :=
  .mk 0 [.expr 1 (.loop 2 (.double 3 .one) (.ident 4 "n") (.mk 5 [
    .fn 6 (some "double") "twice" [⟨7, "double", "x"⟩] (.mk 8 [
      .ret 9 (some (.binary 10 .add (.ident 11 "x") (.ident 12 "x")))]),
    .expr 13 (.call 14 "twice" [.ident 15 "i"])]))]

theorem lowerProgram_closed_unboundedLoop :
    ∃ l, lowerProgram unboundedLoop {} = .ok l ∧ l.errors = [.unresolvedIdentifier "n"] ∧
      l.code.functions.map (·.insts.length) = [0, 3, 4, 2] ∧
      ∀ f ∈ l.code.functions, f.Closed l.code := by
  have hrun : (match lowerProgram unboundedLoop {} with
      | .ok l => decide (l.errors = [.unresolvedIdentifier "n"] ∧
          l.code.functions.map (·.insts.length) = [0, 3, 4, 2])
      | .error _ => false) = true := by decide +kernel
  rcases h : lowerProgram unboundedLoop {} with e | l
  · simp [h] at hrun
  · simp only [h, decide_eq_true_eq] at hrun
    exact ⟨l, rfl, hrun.1, hrun.2, fun f hf => lowerProgram_closed h hf⟩

end Lowering

end TreeCompiler
