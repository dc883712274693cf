/-
Where control goes in a module.

Lowering never opens a block where control meets again, so the blocks of a function form a tree of
branches, and the only way back is the test at the end of a loop.  This holds of every module,
whatever statements are missing in it: a conditional that fails in one of its arms and a loop that
fails before its test have added no block without the branch to it.  The phi of a loop without a
test has one input, and that of a loop with a test two; so whoever follows a branch finds what it
passes on.

The blocks of a construct and the branch to them are added together (`Function.Linked`), and a run
keeps that.
-/
import TreeCompiler.Proofs.IR.Links
import TreeCompiler.Proofs.Lowering.Sound
import TreeCompiler.Proofs.Target.Routine

namespace TreeCompiler

namespace IR.Function

variable {m : Module} {f : Function} {b p q : BlockId}

/-! ### The branches of a block -/

theorem flows_iff_edge (hf : f.Placement) : f.Flows p q ↔ f.Edge p q := by
  constructor
  · rintro ⟨⟨k, i⟩, hmem, hq⟩
    obtain ⟨hi, hblock⟩ := hf.mem_blockInsts.mp hmem
    exact ⟨k, i, hi, hblock, hq⟩
  · rintro ⟨k, i, hi, hblock, hq⟩
    exact ⟨(k, i), hf.mem_blockInsts.mpr ⟨hi, hblock⟩, hq⟩

/-- The instruction closes the loop of block `b`: it is the one that leads back to the block, a
conditional branch that else goes on to a later block. -/
structure Closes (f : Function) (b : BlockId) (entry : InstId × Inst) : Prop where
  branch : ∃ cond after, entry.2.op = .condBr cond b after ∧ b < after
  loop : ∃ phi ∈ f.blockInsts b, phi.2.op.isPhi = true
  only : ∀ other ∈ f.blockInsts b, b ∈ other.2.op.successors → other = entry

/-- **How control gets from block to block.** -/
structure Routed (f : Function) : Prop where
  /-- A branch leads to a later block, or back to the start of the loop that it closes. -/
  forward : ∀ {b : BlockId} {entry : InstId × Inst}, entry ∈ f.blockInsts b →
    ∀ q ∈ entry.2.op.successors, q < f.blocks.length ∧ (b < q ∨ q = b ∧ f.Closes b entry)
  /-- Every block but the first is entered from exactly one other block, by exactly one branch. -/
  entered : ∀ {q : BlockId}, 0 < q → q < f.blocks.length →
    ∃! branch : BlockId × InstId × Inst, branch.1 ≠ q ∧ branch.2 ∈ f.blockInsts branch.1 ∧
      q ∈ branch.2.2.op.successors
  /-- A phi has one input for each block that branches to its block, and no other. -/
  inputs : ∀ {b : BlockId} {k : InstId} {i : Inst} {incoming : List (Value × BlockId)},
    (k, i) ∈ f.blockInsts b → i.op = .phi incoming →
    (incoming.map (·.2)).Nodup ∧ ∀ p, p ∈ incoming.map (·.2) ↔ f.Flows p b
  /-- The input that a branch passes on to a phi is found. -/
  lookup : ∀ {p b : BlockId}, f.Flows p b → ∀ entry ∈ Target.leadingPhis f b,
    ((Target.phiInputs entry.2.op).find? (·.2 = p)).isSome

theorem Linked.routed (hl : f.Linked f.blocks.length) (hf : f.Laid m) (hphis : f.Phis) :
    f.Routed := by
  have hmem : ∀ {b : BlockId} {e : InstId × Inst},
      e ∈ f.blockInsts b ↔ f.insts[e.1]? = some e.2 ∧ e.2.block = b := hf.placement.mem_blockInsts
  have hinputs : ∀ {b : BlockId} {k : InstId} {i : Inst} {incoming : List (Value × BlockId)},
      (k, i) ∈ f.blockInsts b → i.op = .phi incoming →
      (incoming.map (·.2)).Nodup ∧ ∀ p, p ∈ incoming.map (·.2) ↔ f.Flows p b := by
    intro b k i incoming he hop
    obtain ⟨hi, rfl⟩ := hmem.mp he
    refine ⟨hl.sources hi hop, fun p => ?_⟩
    rw [flows_iff_edge hf.placement]
    exact hphis.inputs hi hop p
  refine ⟨fun {b e} he q hq => ?_, fun {q} hpos hlt => ?_, hinputs, fun {p b} hflow e he => ?_⟩
  · obtain ⟨hi, rfl⟩ := hmem.mp he
    obtain ⟨hlt, hle, -⟩ := hf.branching.target ⟨e.1, e.2, hi, rfl, hq⟩
    refine ⟨hlt, ?_⟩
    rcases Nat.lt_or_eq_of_le hle with hless | heq
    · exact .inl hless
    · refine .inr ⟨heq.symm, ?_⟩
      rw [← heq] at hq
      obtain ⟨⟨cond, after, hop⟩, j, phi, hj, hblock, hphi⟩ := hl.closing hi hq
      refine ⟨⟨cond, after, hop, ?_⟩, ⟨(j, phi), hmem.mpr ⟨hj, hblock⟩, hphi⟩,
        fun other ho hother => ?_⟩
      · have hafter : after ∈ e.2.op.successors := by simp [hop, Op.successors]
        have hdistinct := hl.targets hi
        obtain ⟨-, hle', -⟩ := hf.branching.target ⟨e.1, e.2, hi, rfl, hafter⟩
        rw [hop] at hdistinct
        have hne : e.2.block ≠ after := by simpa [Op.successors] using hdistinct
        exact Nat.lt_of_le_of_ne hle' hne
      · obtain ⟨ho, hblock'⟩ := hmem.mp ho
        have hk := hl.once hi ho hblock' hq (hblock'.symm ▸ hother)
        rw [hk, hi] at ho
        exact Prod.ext hk (Option.some.inj ho).symm
  · obtain ⟨k, i, hi, hne, hq⟩ := hl.entered hpos hlt
    refine ⟨(i.block, k, i), ⟨hne, hmem.mpr ⟨hi, rfl⟩, hq⟩, ?_⟩
    rintro ⟨p, k', i'⟩ ⟨(hne' : p ≠ q), he', hq'⟩
    obtain ⟨(hi' : f.insts[k']? = some i'), hblock : i'.block = p⟩ := hmem.mp he'
    obtain rfl := hf.branching.unique hi hi' hq hq' hne (hblock ▸ hne')
    obtain rfl := Option.some.inj (hi.symm.trans hi')
    rw [hblock]
  · obtain ⟨he', incoming, hop⟩ := Target.of_mem_leadingPhis he
    obtain ⟨x, hx, hp⟩ := List.mem_map.mp (((hinputs he' hop).2 p).mpr hflow)
    rw [hop]
    exact List.find?_isSome.mpr ⟨x, hx, by simpa using hp⟩

end IR.Function

/-! ### Runs -/

namespace Lowering

open IR (FuncId BlockId InstId Ty Value Op)
open Program (Param)

variable {s t : Lowerer} {c d : Cursor}

/-- In every function of the module all blocks are linked. -/
def Lowerer.Linked (s : Lowerer) : Prop :=
  ∀ f, f < s.code.functions.length → (s.code.function f).Linked (s.code.function f).blocks.length

namespace Lowerer.Linked

/-- A change to one function. -/
theorem update (hs : s.Linked) {func : FuncId} {change : IR.Function → IR.Function}
    (hchange : (change (s.code.function func)).Linked
      (change (s.code.function func)).blocks.length) :
    (s.update func change).Linked :=
  Lowerer.Each.update (P := fun f => f.Linked f.blocks.length) hs fun _ _ => hchange

/-- An instruction that neither branches nor joins. -/
theorem emit (hs : s.Linked) (hf : c.func < s.code.functions.length) {op : Op} (ty : Ty)
    (name : Option String) (hsucc : op.successors = []) (hop : op.isPhi = false) :
    (s.emit c op ty name).Linked := by
  refine hs.update ?_
  rw [IR.Function.push_blocks_length]
  exact (hs _ hf).pushPlain ty name hsucc hop

/-- Linking is about the module alone. -/
theorem congr (hs : s.Linked) (hcode : t.code = s.code) : t.Linked := by
  unfold Lowerer.Linked
  rw [hcode]
  exact hs

end Lowerer.Linked

theorem linked_fork (hs : s.Linked) (hv : s.Valid) (hc : s.At c) (cond : Value) :
    (s.fork c cond).Linked := by
  obtain ⟨hf, hb⟩ := hv.cursor hc
  rw [Lowerer.fork, Lowerer.emit, Lowerer.addBlock, Lowerer.addBlock, Lowerer.update_update _ hf,
    Lowerer.update_update _ hf]
  refine hs.update ?_
  rw [Function.comp_apply, Function.comp_apply, IR.Function.push_blocks_length,
    IR.Function.createBlock_blocks_length, IR.Function.createBlock_blocks_length]
  exact (hs _ hf).fork hb cond "then" "else"

theorem linked_openLoop (hs : s.Linked) (hv : s.Valid) (hc : s.At c) (start : Value) :
    (s.openLoop c start).Linked := by
  obtain ⟨hf, hb⟩ := hv.cursor hc
  have hjump : ((s.jump c).enter (s.nextCursor c)).Linked := by
    refine Lowerer.Linked.congr (s := s.jump c) ?_ (enter_code _ _)
    rw [Lowerer.jump, Lowerer.emit, Lowerer.addBlock, Lowerer.update_update _ hf]
    refine hs.update ?_
    rw [Function.comp_apply, IR.Function.push_blocks_length, IR.Function.createBlock_blocks_length]
    exact (hs _ hf).jump hb "loop"
  refine Lowerer.Linked.congr (hjump.update ?_) (bindName_code _ _ _ _)
  rw [IR.Function.push_blocks_length]
  exact (hjump _ (opens_jump hv hc).exists_block.1).pushPhi _ _ _

/-- The end of a loop whose counter has one input, from another block. -/
theorem linked_closeLoop (hs : s.Linked) (hsound : s.Sound) (hd : s.At d) {k next : InstId}
    {name : String} {start bound : Value} {p : BlockId} (hk : (s.body d).insts[k]?
      = some { op := .phi [(start, p)], ty := .f64, name := some name, block := d.block })
    (hp : p ≠ d.block) (hkn : k ≠ next) (hnext : Usable s (.inst next)) (hbound : Usable s bound) :
    (s.closeLoop d k next name [(start, p)] bound).Linked := by
  obtain ⟨hf, hb⟩ := hsound.valid.cursor hd
  have htested := sound_testLoop hsound hd hnext hbound
  have hft : d.func < (s.testLoop d next bound).code.functions.length := by
    simpa [Lowerer.testLoop] using hf
  -- The block after the loop is there before the branch to it.
  have htest : ((s.testLoop d next bound).body d).Linked (s.body d).blocks.length := by
    rw [body_testLoop hf]
    exact ((((hs _ hf).pushPlain _ _ rfl rfl).setValueName _ _).setValueName _ _).createBlock _
  have hclosed := htest.close (htested.phis hft) hb (getElem?_testLoop hf hk hkn bound) rfl rfl hp
    (.inst (s.body d).insts.length) (.inst next)
  rw [body_testLoop hf] at hclosed
  simp only [Lowerer.closeLoop, Lowerer.testLoop, Lowerer.update_update _ hf]
  refine hs.update ?_
  simp only [Function.comp_apply, IR.Function.push_blocks_length,
    IR.Function.createBlock_blocks_length, IR.Function.setValueName_blocks]
  exact hclosed

theorem linked_openFunction (hs : s.Linked) (name : String) (params : List Param) (ret : Ty) :
    (s.openFunction name params ret).Linked := by
  refine Lowerer.Linked.congr (s := s.addFunction name params ret) ?_ (bindParams_code _ _ _)
  intro f hf
  rw [addFunction_functions_length] at hf
  rcases Nat.lt_or_eq_of_le (Nat.le_of_lt_succ hf) with hold | rfl
  · rw [function_addFunction_of_lt s name params ret hold]
    exact hs f hold
  · obtain ⟨names, hbody⟩ := body_addFunction s name params ret
    have hnew : (s.addFunction name params ret).code.function s.code.functions.length = _ := hbody
    rw [hnew]
    exact .of_insts_nil rfl (Nat.le_refl 1)

/-- **Every run keeps the blocks linked.** -/
theorem Runs.linked (h : Runs s t) (hsound : s.Sound) (hs : s.Linked) : t.Linked := by
  induction h with
  | refl s => exact hs
  | trans hfirst _ ih ih' => exact ih' (hfirst.sound hsound) (ih hsound hs)
  | string s name text => exact hs
  | error s _ => exact hs
  | plain hc hop _ =>
    refine hs.emit (hsound.valid.cursor hc).1 _ _ ?_ ?_
    · cases hop <;> rfl
    · cases hop <;> rfl
  | slot hc node ty name =>
    exact Lowerer.Linked.congr (hs.emit (hsound.valid.cursor hc).1 _ _ rfl rfl)
      (bindName_code _ _ _ _)
  | branch hc hu hthen _ ihthen ihelse =>
    have hsthen := sound_then hsound hc hu
    have hlthen := ihthen hsthen ((linked_fork hs hsound.valid hc _).congr (enter_code _ _))
    have hselse := sound_else hsound hc (hthen.advances hsthen.valid) (hthen.sound hsthen)
    exact ihelse hselse (hlthen.congr (enter_code _ _))
  | branchBroken hc hu _ ih =>
    exact ih (sound_then hsound hc hu) ((linked_fork hs hsound.valid hc _).congr (enter_code _ _))
  | @loop s t u c start bound hc hu hbody hlimit hb ihbody ihlimit =>
    have hsbody := sound_openLoop hsound hc hu
    have hend := hbody.loopEnd hsound.valid hc hlimit
    have hlbody := ihbody hsbody (linked_openLoop hs hsound.valid hc start)
    have hsnext : (t.advance (s.nextCursor c) (s.counter c)).Sound :=
      (hbody.sound hsbody).emitPlain hend.body_at none (.plain .arith) rfl rfl hend.step
    have hlnext : (t.advance (s.nextCursor c) (s.counter c)).Linked :=
      hlbody.emit ((hbody.sound hsbody).valid.cursor hend.body_at).1 _ _ rfl rfl
    have hclosed := linked_closeLoop (ihlimit hsnext hlnext) (hlimit.sound hsnext) hend.bound_at
      hend.counter (Nat.ne_of_lt (hsound.valid.cursor hc).2) (Nat.ne_of_lt hend.counter_lt)
      hend.next hb
    have hf := (hend.bound_valid.cursor hend.bound_at).1
    refine Lowerer.Linked.emit (hclosed.congr rfl) ?_ _ _ rfl rfl
    simpa [Lowerer.leave, Lowerer.closeLoop, Lowerer.testLoop, Lowerer.nextCursor] using hf
  | loopBroken hc hu _ ih =>
    exact ih (sound_openLoop hsound hc hu) (linked_openLoop hs hsound.valid hc _)
  | function name params ret _ ih =>
    exact ih (sound_openFunction hsound name params ret) (linked_openFunction hs name params ret)

/-! ### Programs -/

theorem start_linked (options : Options) : (start options).Linked := by
  obtain ⟨helperName, entryName, hfunctions⟩ := openModule_functions options
  have hget : ∀ f, (start options).code.function f
      = ((openModule options).2.functions[f]?).getD default := fun _ => rfl
  intro f hf
  rw [start_functions_length] at hf
  obtain rfl | rfl | rfl : f = 0 ∨ f = 1 ∨ f = 2 := by omega
  · rw [hget, hfunctions]
    exact .of_insts_nil rfl (Nat.zero_le 1)
  · rw [hget, hfunctions]
    exact (((IR.Function.Linked.of_insts_nil rfl (Nat.le_refl 1)).pushPlain _ _ rfl rfl).pushPlain
      _ _ rfl rfl).pushPlain _ _ rfl rfl
  · rw [hget, hfunctions]
    exact .of_insts_nil rfl (Nat.le_refl 1)

/-- **The branches of a module**, whether or not statements are missing in it.  They lead to later
blocks, but for the one that closes a loop; every block but the first is entered from exactly one
other block and by exactly one branch; and the inputs of a phi come from exactly the blocks that
branch to it, so that each of them finds its own. -/
theorem lowerProgram_routed {root : Program.Block} {options : Options} {l : Lowered}
    (h : lowerProgram root options = .ok l) {f : IR.Function} (hf : f ∈ l.code.functions) :
    f.Routed := by
  obtain ⟨n, hn, rfl⟩ := IR.Module.exists_function_of_mem hf
  obtain ⟨t, hrun, hcode, -⟩ := lowerProgram_ok h
  have hlinked := hrun.linked (start_sound options) (start_linked options)
  obtain ⟨hlaid, hphis⟩ := lowerProgram_laid h hn
  refine IR.Function.Linked.routed ?_ hlaid hphis
  rw [← hcode] at hn ⊢
  exact hlinked n hn

/-- A loop around a loop that has no bound, since the name that should give it is not declared. -/
def nestedLoops : Program.Block :=
  .mk 0 [.expr 1 (.loop 2 (.double 3 .one) (.double 4 .one) (.mk 5 [
    .expr 6 (.loop 7 (.ident 8 "i") (.ident 9 "n") (.mk 10 []))]))]

theorem lowerProgram_routed_nestedLoops :
    ∃ l f, lowerProgram nestedLoops {} = .ok l ∧ l.errors = [.unresolvedIdentifier "n"] ∧
      f ∈ l.code.functions ∧ f.blocks.map (·.name) = ["entry", "loop", "loop1", "afterloop"] ∧
      f.Routed := by
  have hrun : (match lowerProgram nestedLoops {} with
      | .ok l => decide (l.errors = [.unresolvedIdentifier "n"] ∧ 2 < l.code.functions.length ∧
          (l.code.function 2).blocks.map (·.name) = ["entry", "loop", "loop1", "afterloop"])
      | .error _ => false) = true := by decide +kernel
  rcases h : lowerProgram nestedLoops {} with e | l
  · simp [h] at hrun
  · simp only [h, decide_eq_true_eq] at hrun
    obtain ⟨herrors, hlt, hnames⟩ := hrun
    have hmem := IR.Module.function_mem hlt
    exact ⟨l, l.code.function 2, rfl, herrors, hmem, hnames, lowerProgram_routed h hmem⟩

end Lowering

end TreeCompiler
