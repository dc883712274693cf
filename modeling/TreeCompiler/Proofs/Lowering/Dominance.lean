/-
Definitions come before uses on every path.

No check of a module looks at this; it rests on how lowering handles scopes.  A value is used in the
block that computes it, or in a block that was opened while it was in scope, and such a block is
only entered through the one that computes the value (`Function.Laid`).  For a phi the same holds of
each input and the block that it comes from.
-/
import TreeCompiler.Proofs.Lowering.Sound

namespace TreeCompiler

namespace IR.Function

variable {m : Module} {f : Function}

/-- Every operand is the result of an instruction that comes earlier in the same block, or stands in
another block that no path from the entry avoids.  An input of a phi is computed on every path to
the end of the block it comes from. -/
structure Dominated (f : Function) : Prop where
  operands : ∀ {b : BlockId} {before after : List (InstId × Inst)} {k : InstId} {i : Inst},
    f.blockInsts b = before ++ (k, i) :: after → i.op.isPhi = false →
    ∀ j, .inst j ∈ i.op.operands → j ∈ before.map (·.1) ∨
      ∃ a, a ≠ b ∧ j ∈ (f.blockInsts a).map (·.1) ∧ f.Dominates a b
  inputs : ∀ {b : BlockId} {k : InstId} {i : Inst} {incoming : List (Value × BlockId)},
    (k, i) ∈ f.blockInsts b → i.op = .phi incoming →
    ∀ j p, (.inst j, p) ∈ incoming → ∃ a, j ∈ (f.blockInsts a).map (·.1) ∧ f.Dominates a p

theorem Laid.dominated (hf : f.Laid m) : f.Dominated := by
  have htree := hf.branching.treelike hf.placement
  refine ⟨fun {b before after k i} hsplit hphi j hj => ?_,
    fun {b k i incoming} hmem hop j p hjp => ?_⟩
  · obtain ⟨hi, rfl⟩ := hf.placement.mem_blockInsts.mp
      (show (k, i) ∈ f.blockInsts b by rw [hsplit]; simp)
    obtain ⟨⟨i', hi', habove⟩, hlt⟩ := (hf.rules.sourced hi).operands hphi _ hj
    by_cases hsame : i'.block = i.block
    · exact .inl (hf.placement.mem_before hsplit (hsame ▸ hf.placement.placed hi') (hlt j rfl))
    · refine .inr ⟨i'.block, hsame, ?_, dominates_of_above htree habove⟩
      rw [hf.placement.map_blockInsts]
      exact hf.placement.placed hi'
  · obtain ⟨hi, -⟩ := hf.placement.mem_blockInsts.mp hmem
    obtain ⟨i', hi', habove⟩ := (hf.rules.sourced hi).inputs incoming hop _ hjp
    refine ⟨i'.block, ?_, dominates_of_above htree habove⟩
    rw [hf.placement.map_blockInsts]
    exact hf.placement.placed hi'

end IR.Function

namespace Lowering

/-- **Definitions dominate uses** in every function of every module that lowering gives, whether or
not statements are missing in it and whether or not it passes the checks. -/
theorem lowerProgram_dominated {root : Program.Block} {options : Options} {l : Lowered}
    (h : lowerProgram root options = .ok l) {f : IR.Function} (hf : f ∈ l.code.functions) :
    f.Dominated := by
  obtain ⟨n, hn, rfl⟩ := List.mem_iff_getElem.mp hf
  have hfun : l.code.function n = l.code.functions[n] := by
    simp [IR.Module.function, hn]
  rw [← hfun]
  exact (lowerProgram_laid h hn).1.dominated

/-- A loop whose body adds the counter to itself. -/
def doublingLoop : Program.Block :=
  .mk 0 [.expr 1 (.loop 2 (.double 3 .one) (.double 4 .one)
    (.mk 5 [.expr 6 (.binary 7 .add (.ident 8 "i") (.ident 9 "i"))]))]

theorem lowerProgram_dominated_doublingLoop :
    ∃ l f, lowerProgram doublingLoop {} = .ok l ∧ f ∈ l.code.functions ∧ f.blocks.length = 3 ∧
      f.Dominated := by
  have hrun : (match lowerProgram doublingLoop {} with
      | .ok l => decide (2 < l.code.functions.length ∧ (l.code.function 2).blocks.length = 3)
      | .error _ => false) = true := by decide +kernel
  rcases h : lowerProgram doublingLoop {} with e | l
  · simp [h] at hrun
  · simp only [h, decide_eq_true_eq] at hrun
    have hmem : l.code.function 2 ∈ l.code.functions := by
      simp only [IR.Module.function, List.getElem?_eq_getElem hrun.1]
      exact List.getElem_mem hrun.1
    exact ⟨l, l.code.function 2, rfl, hmem, hrun.2, lowerProgram_dominated h hmem⟩

end Lowering

end TreeCompiler
