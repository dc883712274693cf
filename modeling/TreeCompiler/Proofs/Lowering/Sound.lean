/-
Everything that lowering builds is laid out well.

`Lowerer.Sound` is the invariant of a run.  Every function of the module is laid out well, its phis
included, and what a scope binds its names to is known in the block that the scope fills.  The
second part is what the first one rests on: an instruction takes its operands from the innermost
scope or from its own block.

A region starts with a copy of the scope around it, but fills another block.  What the copied names
stand for is known there because that block is entered by a branch from the block of the scope
around.  When the region is closed its scope is dropped, so nothing that was bound inside it is ever
used outside.
-/
import TreeCompiler.Proofs.Lowering.Start

namespace TreeCompiler.Lowering

open IR (FuncId BlockId InstId Ty Value Op)
open IR.Function (Keeps)
open Program (NodeId Param)

/-- The invariant of lowering. -/
structure Lowerer.Sound (s : Lowerer) : Prop where
  valid : s.Valid
  laid : ∀ {f : FuncId}, f < s.code.functions.length → (s.code.function f).Laid s.code
  phis : ∀ {f : FuncId}, f < s.code.functions.length → (s.code.function f).Phis
  bound : ∀ scope ∈ s.scopes.scopes, ∀ entry ∈ scope.bindings,
    (s.code.function scope.cursor.func).Available s.code.globals.length scope.cursor.block
      entry.2.value

variable {s t u : Lowerer} {c d : Cursor}

/-- What is at hand is known where instructions are added. -/
theorem Usable.available {v : Value} (hu : Usable s v) (hs : s.Sound) (hc : s.At c) :
    (s.body c).Available s.code.globals.length c.block v := by
  cases hu with
  | const k => trivial
  | global hlt => exact hlt
  | @bound scope rest name binding hscopes hb =>
    obtain ⟨scope', rest', hscopes', rfl⟩ := hc.scopes
    rw [hscopes] at hscopes'
    cases hscopes'
    exact hs.bound scope (by simp [hscopes]) _ hb
  | @result d k i hd hk hi =>
    obtain rfl := hd.unique hc
    exact ⟨i, hk, hi ▸ .refl _ _⟩

namespace Lowerer.Sound

/-! ### Scopes -/

/-- The scopes may change if what they bind is still known. -/
theorem withScopes (hs : s.Sound) {scopes : ScopeStack}
    (hvalid : Lowerer.Valid { s with scopes })
    (hbound : ∀ scope ∈ scopes.scopes, ∀ entry ∈ scope.bindings,
      (s.code.function scope.cursor.func).Available s.code.globals.length scope.cursor.block
        entry.2.value) : Lowerer.Sound { s with scopes } :=
  ⟨hvalid, hs.laid, hs.phis, hbound⟩

theorem leave (hs : s.Sound) : s.leave.Sound :=
  hs.withScopes (fun scope hmem => hs.valid scope (List.mem_of_mem_tail hmem))
    (fun scope hmem => hs.bound scope (List.mem_of_mem_tail hmem))

theorem record (hs : s.Sound) (decl : Decl) : (s.record decl).Sound :=
  ⟨hs.valid, hs.laid, hs.phis, hs.bound⟩

theorem bindName (hs : s.Sound) (hc : s.At c) {v : Value}
    (hv : (s.body c).Available s.code.globals.length c.block v) (name : String)
    (decl : Option DeclId) : (s.bindName name v decl).Sound := by
  obtain ⟨scope, rest, hscopes, rfl⟩ := hc.scopes
  have hvalid := (advances_bindName s name v decl).valid hs.valid
  simp only [Lowerer.bindName, hscopes] at hvalid ⊢
  refine hs.withScopes hvalid fun scope' hmem entry hentry => ?_
  rcases List.mem_cons.mp hmem with rfl | hrest
  · rcases List.mem_cons.mp hentry with rfl | hold
    · exact hv
    · exact hs.bound scope (by simp [hscopes]) entry hold
  · exact hs.bound scope' (by simp [hscopes, hrest]) entry hentry

/-- A copy of the innermost scope may fill a block that is entered from the block of the scope. -/
theorem enter (hs : s.Sound) (hc : s.At c) (hfunc : d.func = c.func)
    (hblock : d.block < (s.body c).blocks.length) (hedge : (s.body c).Edge c.block d.block)
    (hlt : c.block < d.block) : (s.enter d).Sound := by
  obtain ⟨scope, rest, hscopes, rfl⟩ := hc.scopes
  simp only [Lowerer.enter, hscopes]
  have hhead := hs.valid scope (by simp [hscopes])
  refine hs.withScopes (fun scope' hmem => ?_) fun scope' hmem entry hentry => ?_
  · rcases List.mem_cons.mp hmem with rfl | hrest
    · exact ⟨hfunc ▸ hhead.1, hfunc ▸ hblock⟩
    · exact hs.valid scope' (hscopes ▸ hrest)
  · rcases List.mem_cons.mp hmem with rfl | hrest
    · have hknown := hs.bound scope (by simp [hscopes]) entry hentry
      show (s.code.function d.func).Available _ d.block entry.2.value
      rw [hfunc]
      exact hknown.below (.step (.refl _ _) hedge hlt)
    · exact hs.bound scope' (hscopes ▸ hrest) entry hentry

/-! ### The module -/

/-- A change to one function. -/
theorem update (hs : s.Sound) {func : FuncId} {change : IR.Function → IR.Function}
    (hf : func < s.code.functions.length)
    (hkeeps : Keeps (s.code.function func) (change (s.code.function func)))
    (hblocks : (s.code.function func).blocks.length ≤ (change (s.code.function func)).blocks.length)
    (hlaid : (change (s.code.function func)).Laid s.code)
    (hphis : (change (s.code.function func)).Phis) : (s.update func change).Sound := by
  have hfun : ∀ g, (s.update func change).code.function g
      = if g = func then change (s.code.function func) else s.code.function g := by
    intro g
    by_cases hg : g = func
    · rw [if_pos hg, hg, Lowerer.function_update_self change hf]
    · rw [if_neg hg, Lowerer.function_update_ne change hg]
  have hext : s.code.Extends (s.update func change).code := by
    refine ⟨Nat.le_refl _, by simp, fun {g} _ => ?_⟩
    rw [hfun]
    split
    · rename_i hg
      rw [hg, hkeeps.sig]
    · rfl
  refine ⟨fun scope hmem => ?_, fun {g} hg => ?_, fun {g} hg => ?_,
    fun scope hmem entry hentry => ?_⟩
  · obtain ⟨hlt, hblock⟩ := hs.valid scope hmem
    refine ⟨by simpa using hlt, ?_⟩
    rw [hfun]
    split
    · rename_i heq
      rw [heq] at hblock
      exact Nat.lt_of_lt_of_le hblock hblocks
    · exact hblock
  · rw [hfun]
    split
    · exact hlaid.mono hext
    · exact (hs.laid (by simpa using hg)).mono hext
  · rw [hfun]
    split
    · exact hphis
    · exact hs.phis (by simpa using hg)
  · have hknown := hs.bound scope hmem entry hentry
    rw [hfun]
    split
    · rename_i heq
      rw [heq] at hknown
      exact hkeeps.available (Nat.le_refl _) hknown
    · exact hknown

/-- An instruction that is no phi, with branches to blocks that have none. -/
theorem emit (hs : s.Sound) (hf : c.func < s.code.functions.length)
    (hb : c.block < (s.body c).blocks.length) {op : Op} {ty : Ty} (name : Option String)
    (hfits : IR.Function.Laid.Fits s.code (s.body c) c.block op ty) (hop : op.isPhi = false)
    (hsucc : ∀ q ∈ op.successors, (s.body c).ids q = []) : (s.emit c op ty name).Sound := by
  refine hs.update hf (.ofGrows (.push _ _ _ _ _)) (by simp) ((hs.laid hf).push hb name hfits)
    ((hs.phis hf).push hb ty name hop fun q hq k i hi _ heq => ?_)
  have hmem := (hs.laid hf).placement.placed hi
  rw [heq] at hmem
  rw [show (s.code.function c.func).ids q = [] from hsucc q hq] at hmem
  cases hmem

/-- An instruction that computes something from values at hand. -/
theorem emitPlain (hs : s.Sound) (hc : s.At c) {op : Op} {ty : Ty} (name : Option String)
    (hty : (s.body c).Typed s.code op ty) (hop : op.isPhi = false) (hsucc : op.successors = [])
    (huse : ∀ v ∈ op.operands, Usable s v) : (s.emit c op ty name).Sound := by
  refine hs.emit (hs.valid.cursor hc).1 (hs.valid.cursor hc).2 name
    (.of_not_isPhi hop ?_ hty ?_) hop ?_
  · exact fun v hv => (huse v hv).available hs hc
  · simp [hsucc]
  · simp [hsucc]

theorem addBlock (hs : s.Sound) {func : FuncId} (hf : func < s.code.functions.length)
    (base : String) : (s.addBlock func base).Sound :=
  hs.update hf (.ofGrows (.createBlock 0 _ base)) (by simp) ((hs.laid hf).createBlock base)
    ((hs.phis hf).createBlock base)

theorem rename (hs : s.Sound) {func : FuncId} (hf : func < s.code.functions.length) (v : Value)
    (name : String) : (s.rename func v name).Sound :=
  hs.update hf (.setValueName _ v name) (by simp) ((hs.laid hf).setValueName v name)
    ((hs.phis hf).setValueName v name)

end Lowerer.Sound

/-! ### Branches to new blocks -/

/-- A block that has just been added may be the target of a branch. -/
theorem fits_target (hs : s.Sound) (hc : s.At c) {f : IR.Function} {q : BlockId}
    (hq : s.nextBlock c ≤ q) (hlt : q < f.blocks.length)
    (hedge : ∀ p, f.Edge p q → (s.body c).Edge p q) :
    q < f.blocks.length ∧ c.block ≤ q ∧ 0 < q ∧ (c.block ≠ q → ∀ p, f.Edge p q → p = q) := by
  have hc' : c.block < s.nextBlock c := (hs.valid.cursor hc).2
  have hcq : c.block < q := Nat.lt_of_lt_of_le hc' hq
  refine ⟨hlt, Nat.le_of_lt hcq, Nat.lt_of_le_of_lt (Nat.zero_le _) hcq, fun _ p he => ?_⟩
  exact absurd (hedge p he) ((hs.laid (hs.valid.cursor hc).1).not_edge_of_length_le hq)

theorem sound_fork (hs : s.Sound) (hc : s.At c) {cond : Value} (hu : Usable s cond) :
    (s.fork c cond).Sound := by
  have hf := (hs.valid.cursor hc).1
  have hs' : ((s.addBlock c.func "then").addBlock c.func "else").Sound :=
    (hs.addBlock hf "then").addBlock (by simpa using hf) "else"
  have hbody := body_addArms hf
  have hsucc : ∀ q ∈ [s.nextBlock c, s.nextBlock c + 1], s.nextBlock c ≤ q ∧
      q < (((s.body c).createBlock "then").2.createBlock "else").2.blocks.length := by
    intro q hq
    have hlen : (s.body c).blocks.length = s.nextBlock c := rfl
    obtain rfl | rfl : q = s.nextBlock c ∨ q = s.nextBlock c + 1 := by simpa using hq
    · simp only [IR.Function.createBlock_blocks_length, hlen]
      exact ⟨Nat.le_refl _, Nat.lt_succ_of_lt (Nat.lt_succ_self _)⟩
    · simp only [IR.Function.createBlock_blocks_length, hlen]
      exact ⟨Nat.le_succ _, Nat.lt_succ_self _⟩
  refine hs'.emit (by simpa using hf) (hs'.valid.cursor hc).2 none
    (.of_not_isPhi rfl ?_ (.condBr _ _ _) ?_) rfl ?_
  · intro v hv
    obtain rfl : v = cond := by simpa [Op.operands] using hv
    exact (hu.advances (advances_addArms hc) hs.valid).available hs' hc
  · intro q hq
    rw [hbody]
    exact fits_target hs hc (hsucc q hq).1 (hsucc q hq).2 fun p he => he
  · intro q hq
    rw [hbody, IR.Function.ids_createBlock, IR.Function.ids_createBlock]
    exact IR.Function.ids_of_length_le (hsucc q hq).1

theorem edge_fork (hf : c.func < s.code.functions.length) (cond : Value) {q : BlockId}
    (hq : q ∈ [s.nextBlock c, s.nextBlock c + 1]) : ((s.fork c cond).body c).Edge c.block q := by
  rw [body_fork hf]
  exact IR.Function.edge_push.mpr (.inr ⟨rfl, hq⟩)

theorem sound_then (hs : s.Sound) (hc : s.At c) {cond : Value} (hu : Usable s cond) :
    ((s.fork c cond).enter (s.nextCursor c)).Sound := by
  have hf := (hs.valid.cursor hc).1
  refine (sound_fork hs hc hu).enter hc rfl ?_ (edge_fork hf cond (by simp [Lowerer.nextCursor]))
    (hs.valid.cursor hc).2
  rw [fork_blocks hf]
  exact Nat.lt_add_of_pos_right (by decide)

/-- The second arm: what was done in the first is no obstacle. -/
theorem sound_else (hs : s.Sound) (hc : s.At c) {cond : Value}
    (ha : Advances ((s.fork c cond).enter (s.nextCursor c)) t) (ht : t.Sound) :
    (t.leave.enter { c with block := s.nextBlock c + 1 }).Sound := by
  have hf := (hs.valid.cursor hc).1
  have ho := opens_then hs.valid hc cond
  have hgrows : ((s.fork c cond).body c).GrowsAt (s.nextBlock c) (t.body c) := by
    have h := ha.body (ho.valid hs.valid) ho.opened
    rw [Lowerer.body, enter_code] at h
    exact h
  have hc' : t.leave.At c := by
    unfold Lowerer.At
    rw [ho.leave_scopes ha]
    exact hc
  refine ht.leave.enter hc' rfl ?_ ?_ (Nat.lt_succ_of_lt (hs.valid.cursor hc).2)
  · refine Nat.lt_of_lt_of_le ?_ hgrows.blocks
    rw [fork_blocks hf]
    exact Nat.lt_succ_self _
  · exact (Keeps.ofGrows hgrows).edge (edge_fork hf cond (by simp))

/-! ### Loops -/

theorem sound_jump (hs : s.Sound) (hc : s.At c) : (s.jump c).Sound := by
  have hf := (hs.valid.cursor hc).1
  have hs' : (s.addBlock c.func "loop").Sound := hs.addBlock hf "loop"
  have hbody : (s.addBlock c.func "loop").body c = ((s.body c).createBlock "loop").2 :=
    Lowerer.body_update _ hf
  refine hs'.emit (by simpa using hf) (hs'.valid.cursor hc).2 none
    (.of_not_isPhi rfl ?_ (.br _) ?_) rfl ?_
  · simp [Op.operands]
  · intro q hq
    obtain rfl : q = s.nextBlock c := by simpa [Op.successors] using hq
    rw [hbody]
    refine fits_target hs hc (Nat.le_refl _) ?_ fun p he => he
    rw [IR.Function.createBlock_blocks_length]
    exact Nat.lt_succ_self _
  · intro q hq
    obtain rfl : q = s.nextBlock c := by simpa [Op.successors] using hq
    rw [hbody, IR.Function.ids_createBlock]
    exact IR.Function.ids_of_length_le (Nat.le_refl _)

/-- The only branch to the block of a new loop is the jump that opens it. -/
theorem edge_jump (hs : s.Sound) (hc : s.At c) {p : BlockId} :
    ((s.jump c).body c).Edge p (s.nextBlock c) ↔ p = c.block := by
  have hf := (hs.valid.cursor hc).1
  rw [body_jump hf, IR.Function.edge_push, IR.Function.edge_createBlock]
  constructor
  · rintro (he | ⟨hp, -⟩)
    · exact absurd he ((hs.laid hf).not_edge_of_length_le (Nat.le_refl _))
    · exact hp
  · rintro rfl
    exact .inr ⟨rfl, by simp [Op.successors]⟩

theorem sound_openLoop (hs : s.Sound) (hc : s.At c) {start : Value} (hu : Usable s start) :
    (s.openLoop c start).Sound := by
  have hf := (hs.valid.cursor hc).1
  have ho := opens_jump hs.valid hc
  have hjump : (s.jump c).body c = ((s.jump c).enter (s.nextCursor c)).body (s.nextCursor c) := by
    rw [Lowerer.body, Lowerer.body, enter_code]
    rfl
  -- The region is entered by the jump,
  have hs' : ((s.jump c).enter (s.nextCursor c)).Sound := by
    refine (sound_jump hs hc).enter hc rfl ?_ ((edge_jump hs hc).mpr rfl) (hs.valid.cursor hc).2
    rw [hjump]
    exact ho.exists_block.2
  -- and its first instruction is the phi, whose only input comes from where the jump does.
  have hphi : (((s.jump c).enter (s.nextCursor c)).emit (s.nextCursor c)
      (.phi [(start, c.block)]) .f64
      (some s.options.inductionName)).Sound := by
    have hstart : ((s.jump c).body c).Available (s.jump c).code.globals.length c.block start :=
      (hu.advances (advances_jump hc) hs.valid).available (sound_jump hs hc) hc
    refine hs'.update ho.exists_block.1 (.ofGrows (.push _ _ _ _ _)) (by simp)
      ((hs'.laid ho.exists_block.1).push ho.exists_block.2 _
        ⟨fun hno => ?_, ?_, .phi _, by simp [Op.successors]⟩)
      ((hs'.phis ho.exists_block.1).pushPhi ho.exists_block.2 ?_ _ _ ?_)
    · cases hno
    · intro incoming hop x hx
      cases hop
      obtain rfl : x = (start, c.block) := by simpa using hx
      rw [enter_code]
      exact hstart
    · have hne : s.nextBlock c ≠ c.block := Nat.ne_of_gt (hs.valid.cursor hc).2
      show (Lowerer.body _ (s.nextCursor c)).ids (s.nextBlock c) = []
      rw [← hjump, body_jump hf, IR.Function.ids_push_ne _ _ _ _ _ hne, IR.Function.ids_createBlock]
      exact IR.Function.ids_of_length_le (Nat.le_refl _)
    · intro p
      show _ ↔ (Lowerer.body _ (s.nextCursor c)).Edge p (s.nextBlock c)
      rw [← hjump, edge_jump hs hc]
      simp
  refine hphi.bindName ho.opened ?_ _ _
  have hcounter := getElem?_emit ho.exists_block.1 (.phi [(start, c.block)]) .f64
    (some s.options.inductionName)
  rw [counter_eq hs.valid hc] at hcounter
  exact ⟨_, hcounter, .refl _ _⟩

/-- The test of a loop, before the block after it is added. -/
theorem sound_test (hs : s.Sound) (hd : s.At d) {next : InstId} {bound : Value}
    (hnext : Usable s (.inst next)) (hbound : Usable s bound) :
    (((s.emit d (.fcmp .ole (.inst next) bound) .i1 none).rename d.func (.inst next)
      "nextvar").rename d.func (.inst (s.body d).insts.length) "loopcond").Sound := by
  have hf := (hs.valid.cursor hd).1
  have htest : (s.emit d (.fcmp .ole (.inst next) bound) .i1 none).Sound := by
    refine hs.emitPlain hd none (.plain .fcmp) rfl rfl fun v hv => ?_
    obtain rfl | rfl : v = .inst next ∨ v = bound := by simpa [Op.operands] using hv
    · exact hnext
    · exact hbound
  exact (htest.rename (by simpa using hf) _ _).rename (by simpa using hf) _ _

theorem sound_testLoop (hs : s.Sound) (hd : s.At d) {next : InstId} {bound : Value}
    (hnext : Usable s (.inst next)) (hbound : Usable s bound) : (s.testLoop d next bound).Sound :=
  (sound_test hs hd hnext hbound).addBlock (by simpa using (hs.valid.cursor hd).1) "afterloop"

theorem keeps_testLoop (hf : d.func < s.code.functions.length) (next : InstId) (bound : Value) :
    Keeps (s.body d) ((s.testLoop d next bound).body d) := by
  rw [body_testLoop hf]
  exact (((Keeps.ofGrows (.push _ _ _ _ _)).trans (.setValueName _ _ _)).trans
    (.setValueName _ _ _)).trans (.ofGrows (.createBlock 0 _ _))

/-- The test of a loop is known at its end. -/
theorem available_test (hf : d.func < s.code.functions.length) (next : InstId) (bound : Value)
    (n : Nat) :
    ((s.testLoop d next bound).body d).Available n d.block (.inst (s.body d).insts.length) := by
  have hkeeps : Keeps ((s.body d).push d.block (.fcmp .ole (.inst next) bound) .i1 none).2
      ((s.testLoop d next bound).body d) := by
    rw [body_testLoop hf]
    exact ((Keeps.setValueName _ _ _).trans (.setValueName _ _ _)).trans
      (.ofGrows (.createBlock 0 _ _))
  obtain ⟨i, hi, -, hblock, -⟩ := hkeeps.insts (IR.Function.getElem?_push.mpr (.inr ⟨rfl, rfl⟩))
  exact ⟨i, hi, hblock ▸ .refl _ _⟩

/-- The block after a loop is the last one.  No instruction stands in it, and no branch leads to
it. -/
theorem testLoop_fresh (hs : s.Sound) (hd : s.At d) {next : InstId} {bound : Value}
    (hnext : Usable s (.inst next)) (hbound : Usable s bound) :
    ((s.testLoop d next bound).body d).blocks.length = (s.body d).blocks.length + 1 ∧
      (∀ (j : InstId) (i : IR.Inst), ((s.testLoop d next bound).body d).insts[j]? = some i →
        i.block ≠ (s.body d).blocks.length) ∧
      ∀ p, ¬ ((s.testLoop d next bound).body d).Edge p (s.body d).blocks.length := by
  have hf := (hs.valid.cursor hd).1
  obtain ⟨tested, htested, hf₁, hbody, hlen⟩ : ∃ tested : Lowerer, tested.Sound ∧
      d.func < tested.code.functions.length ∧
      (s.testLoop d next bound).body d = ((tested.body d).createBlock "afterloop").2 ∧
      (tested.body d).blocks.length = (s.body d).blocks.length := by
    refine ⟨_, sound_test hs hd hnext hbound, by simpa using hf,
      Lowerer.body_update _ (by simpa using hf), ?_⟩
    rw [Lowerer.body_update _ (by simpa using hf), Lowerer.body_update _ (by simpa using hf),
      Lowerer.body_update _ hf]
    simp
  have hlaid := htested.laid hf₁
  rw [hbody, ← hlen]
  refine ⟨IR.Function.createBlock_blocks_length _ _, ?_, ?_⟩
  · intro j i hi
    exact Nat.ne_of_lt (hlaid.placement.block_lt hi)
  · intro p he
    rw [IR.Function.edge_createBlock] at he
    exact hlaid.not_edge_of_length_le (Nat.le_refl _) he

/-- **The end of a loop.**  Its branch leads back to the block of the loop, whose phi gets the
matching input in the same step, and to a new block. -/
theorem sound_closeLoop (hs : s.Sound) (hd : s.At d) {k next : InstId} {name : String}
    {incoming : List (Value × BlockId)} {bound : Value}
    (hk : (s.body d).insts[k]?
      = some { op := .phi incoming, ty := .f64, name := some name, block := d.block })
    (hkn : k ≠ next) (hnext : Usable s (.inst next)) (hbound : Usable s bound)
    (hpos : 0 < d.block) :
    (s.closeLoop d k next name incoming bound).Sound := by
  have hf := (hs.valid.cursor hd).1
  have hw := sound_testLoop hs hd hnext hbound
  have hfw : d.func < (s.testLoop d next bound).code.functions.length := by
    simpa [Lowerer.testLoop] using hf
  have hbw : d.block < ((s.testLoop d next bound).body d).blocks.length := (hw.valid.cursor hd).2
  obtain ⟨hlen, hempty, hedge⟩ := testLoop_fresh hs hd hnext hbound
  have hfits : IR.Function.Laid.Fits (s.testLoop d next bound).code
      ((s.testLoop d next bound).body d) d.block (.condBr (.inst (s.body d).insts.length) d.block
        (s.body d).blocks.length) .void := by
    refine .of_not_isPhi rfl (fun v hv => ?_) (.condBr _ _ _) (fun q hq => ?_)
    · obtain rfl : v = .inst (s.body d).insts.length := by simpa [Op.operands] using hv
      exact available_test hf next bound _
    · obtain rfl | rfl : q = d.block ∨ q = (s.body d).blocks.length := by
        simpa [Op.successors] using hq
      · exact ⟨hbw, Nat.le_refl _, hpos, fun hne => absurd rfl hne⟩
      · have hdb : d.block < (s.body d).blocks.length := (hs.valid.cursor hd).2
        refine ⟨?_, Nat.le_of_lt hdb, Nat.lt_trans hpos hdb, fun _ p he => absurd he (hedge p)⟩
        rw [hlen]
        exact Nat.lt_succ_self _
  have hclosed := IR.Function.GrowsAt.push ((s.testLoop d next bound).body d) d.block
    (.condBr (.inst (s.body d).insts.length) d.block (s.body d).blocks.length) .void none
  have hphi := getElem?_testLoop hf hk hkn bound
  have hphi' := hclosed.some_of_some hphi
  have hkept := (keeps_testLoop hf next bound).trans (Keeps.ofGrows hclosed)
  rw [Lowerer.closeLoop, Lowerer.replace, Lowerer.update_update _ hfw]
  refine hw.update hfw ((Keeps.ofGrows hclosed).trans (.replacePhi hphi' rfl rfl rfl rfl)) (by simp)
    (((hw.laid hfw).push hbw none hfits).addInput hphi' rfl ?_)
    ((hw.phis hfw).close hbw hphi rfl rfl hempty _ _)
  exact hkept.available (Nat.le_refl _) (hnext.available hs hd)

theorem closeLoop_blocks (hf : d.func < s.code.functions.length) {k next : InstId} {name : String}
    {incoming : List (Value × BlockId)} {bound : Value} :
    ((s.closeLoop d k next name incoming bound).body d).blocks.length
      = (s.body d).blocks.length + 1 := by
  have hfw : d.func < (s.testLoop d next bound).code.functions.length := by
    simpa [Lowerer.testLoop] using hf
  rw [Lowerer.closeLoop, Lowerer.body_update _ (by simpa using hfw), Lowerer.body_update _ hfw,
    body_testLoop hf]
  simp

/-! ### Functions -/

theorem laid_of_insts_nil {m : IR.Module} {f : IR.Function} (hinsts : f.insts = [])
    (hids : ∀ b, f.ids b = []) : f.Laid m ∧ f.Phis := by
  have hno : ∀ {k : InstId} {i : IR.Inst}, f.insts[k]? ≠ some i := by simp [hinsts]
  refine ⟨⟨⟨fun hi => absurd hi hno, fun hk => ?_, fun b => ?_⟩, ⟨?_, fun hi => absurd hi hno⟩,
    ⟨fun hi => absurd hi hno, fun hi => absurd hi hno⟩⟩, ⟨fun hi => absurd hi hno, fun hi =>
      absurd hi hno⟩⟩
  · rw [hids] at hk
    cases hk
  · rw [hids]
    exact .nil
  · rintro p q ⟨k, i, hi, -, -⟩
    exact absurd hi hno

theorem function_addFunction_of_lt (s : Lowerer) (name : String) (params : List Param) (ret : Ty)
    {f : FuncId} (hf : f < s.code.functions.length) :
    (s.addFunction name params ret).code.function f = s.code.function f := by
  have hne : f ≠ s.nextFunction.func := Nat.ne_of_lt hf
  rw [Lowerer.addFunction, Lowerer.function_update_ne _ hne, Lowerer.declareFunction,
    Lowerer.function_update_ne _ hne]
  exact IR.Module.function_addFunction_of_lt _ _ _ hf

theorem sound_addFunction (hs : s.Sound) (name : String) (params : List Param) (ret : Ty) :
    (s.addFunction name params ret).Sound := by
  have ha := advances_addFunction s name params ret
  have hext : s.code.Extends (s.addFunction name params ret).code :=
    ⟨ha.code.globals.length_le, ha.code.functions, fun hf => ha.sig hf⟩
  obtain ⟨names, hbody⟩ := body_addFunction s name params ret
  have hnew : ((s.addFunction name params ret).code.function s.code.functions.length).Laid
        (s.addFunction name params ret).code ∧
      ((s.addFunction name params ret).code.function s.code.functions.length).Phis := by
    show ((s.addFunction name params ret).body s.nextFunction).Laid _ ∧
      ((s.addFunction name params ret).body s.nextFunction).Phis
    rw [hbody]
    refine laid_of_insts_nil rfl fun b => ?_
    rw [IR.Function.ids_createBlock]
    rfl
  have hcases : ∀ {f : FuncId}, f < (s.addFunction name params ret).code.functions.length →
      f < s.code.functions.length ∨ f = s.code.functions.length := by
    intro f hf
    rw [addFunction_functions_length] at hf
    exact Nat.lt_or_eq_of_le (Nat.le_of_lt_succ hf)
  refine ⟨ha.valid hs.valid, fun {f} hf => ?_, fun {f} hf => ?_, fun scope hmem entry hentry => ?_⟩
  · rcases hcases hf with hold | rfl
    · rw [function_addFunction_of_lt s name params ret hold]
      exact (hs.laid hold).mono hext
    · exact hnew.1
  · rcases hcases hf with hold | rfl
    · rw [function_addFunction_of_lt s name params ret hold]
      exact hs.phis hold
    · exact hnew.2
  · rw [function_addFunction_of_lt s name params ret (hs.valid scope hmem).1]
    exact (Keeps.refl _).available hext.globals (hs.bound scope hmem entry hentry)

theorem sound_bindParams (hs : s.Sound) (hc : s.At c) (i : Nat) (params : List Param)
    (hlen : i + params.length ≤ (s.body c).sig.params.length) : (s.bindParams i params).Sound := by
  induction params generalizing s i with
  | nil => exact hs
  | cons p ps ih =>
    have hlt : i < (s.body c).sig.params.length :=
      Nat.lt_of_lt_of_le (Nat.lt_add_of_pos_right (by simp)) hlen
    have hrec : (s.record
        { node := p.id, name := p.name, ty := typeOf p.ty, kind := .parameter }).Sound :=
      hs.record _
    have hbind := hrec.bindName hc (v := .param i) hlt p.name (some s.decls.length)
    have ha := (advances_record s { node := p.id, name := p.name, ty := typeOf p.ty,
                                    kind := .parameter }).trans
      (advances_bindName _ p.name (.param i) (some s.decls.length))
    refine ih hbind (ha.at_iff.mpr hc) (i + 1) ?_
    rw [(ha.body hs.valid hc).sig]
    simp only [List.length_cons] at hlen
    omega

theorem sound_openFunction (hs : s.Sound) (name : String) (params : List Param) (ret : Ty) :
    (s.openFunction name params ret).Sound := by
  have hadd := sound_addFunction hs name params ret
  obtain ⟨names, hbody⟩ := body_addFunction s name params ret
  have hblock : s.nextFunction.func < (s.addFunction name params ret).code.functions.length ∧
      s.nextFunction.block < ((s.addFunction name params ret).body
        s.nextFunction).blocks.length := by
    refine ⟨nextFunction_lt_addFunction s name params ret, ?_⟩
    rw [hbody]
    exact Nat.zero_lt_one
  have hempty : ((s.addFunction name params ret).enterEmpty s.nextFunction).Sound := by
    refine hadd.withScopes (fun scope hmem => ?_) fun scope hmem entry hentry => ?_
    · rcases List.mem_cons.mp hmem with rfl | hrest
      · exact hblock
      · exact hadd.valid scope hrest
    · rcases List.mem_cons.mp hmem with rfl | hrest
      · cases hentry
      · exact hadd.bound scope hrest entry hentry
  refine sound_bindParams hempty (c := s.nextFunction) rfl 0 params ?_
  show _ ≤ ((s.addFunction name params ret).body s.nextFunction).sig.params.length
  rw [hbody]
  simp [Lowerer.signature, IR.Function.createBlock, IR.Function.new]

/-! ### Runs -/

/-- **Every run keeps the module laid out well.** -/
theorem Runs.sound (h : Runs s t) (hs : s.Sound) : t.Sound := by
  induction h with
  | refl s => exact hs
  | trans _ _ ih ih' => exact ih' (ih hs)
  | string s name text =>
    have ha := (Runs.string s name text).advances hs.valid
    have hext : s.code.Extends (s.code.addGlobalString name text).2 :=
      ⟨ha.code.globals.length_le, Nat.le_refl _, fun _ => rfl⟩
    exact ⟨hs.valid, fun hf => (hs.laid hf).mono hext, hs.phis, fun scope hmem entry hentry =>
      (Keeps.refl _).available hext.globals (hs.bound scope hmem entry hentry)⟩
  | error s _ => exact ⟨hs.valid, hs.laid, hs.phis, hs.bound⟩
  | plain hc hop huse =>
    refine hs.emitPlain hc none (.plain hop) ?_ ?_ huse
    · cases hop <;> rfl
    · cases hop <;> rfl
  | @slot s c hc node ty name =>
    have hslot := hs.emitPlain hc (some name) (.alloca ty) rfl rfl (by simp [Op.operands])
    refine (hslot.record _).bindName hc ?_ _ _
    exact ⟨_, getElem?_emit (hs.valid.cursor hc).1 _ _ _, .refl _ _⟩
  | branch hc hu hthen _ ihthen ihelse =>
    have hsthen := sound_then hs hc hu
    exact (ihelse (sound_else hs hc (hthen.advances hsthen.valid) (ihthen hsthen))).leave
  | branchBroken hc hu _ ih => exact (ih (sound_then hs hc hu)).leave
  | @loop s t u c start bound hc hu hbody hlimit hb ihbody ihlimit =>
    have hs₀ := sound_openLoop hs hc hu
    have hend := hbody.loopEnd hs.valid hc hlimit
    have hstep : (t.advance (s.nextCursor c) (s.counter c)).Sound :=
      (ihbody hs₀).emitPlain hend.body_at none (.plain .arith) rfl rfl hend.step
    have hpos : 0 < s.nextBlock c := Nat.lt_of_le_of_lt (Nat.zero_le _) (hs.valid.cursor hc).2
    have hclose := (sound_closeLoop (ihlimit hstep) hend.bound_at hend.counter
      (Nat.ne_of_lt hend.counter_lt) hend.next hb hpos).leave
    have hf := (hend.bound_valid.cursor hend.bound_at).1
    refine hclose.emit ?_ ?_ none
      (.of_not_isPhi rfl (by simp [Op.operands]) (.plain .ret) (by simp [Op.successors]))
      rfl (by simp [Op.successors])
    · simpa [Lowerer.leave, Lowerer.closeLoop, Lowerer.testLoop, Lowerer.nextCursor] using hf
    · show (u.body c).blocks.length < _
      exact Nat.lt_of_lt_of_eq (Nat.lt_succ_self _) (closeLoop_blocks hf).symm
  | loopBroken hc hu _ ih => exact (ih (sound_openLoop hs hc hu)).leave
  | function name params ret _ ih => exact (ih (sound_openFunction hs name params ret)).leave

/-! ### Programs -/

/-- The helper calls the printing function twice and returns. -/
theorem laid_helperBody {m : IR.Module} (hglobals : 0 < m.globals.length)
    (hfunctions : 0 < m.functions.length) (hprintf : m.function 0 = printfFunction)
    {f : IR.Function} (hinsts : f.insts = []) (hblocks : f.blocks = [])
    (hparams : 0 < f.sig.params.length) :
    (helperBody 0 (.global 0) f).2.Laid m ∧ (helperBody 0 (.global 0) f).2.Phis := by
  have hpush : ∀ {g : IR.Function} {op : Op} {ty : Ty}, 0 < g.blocks.length → g.Laid m ∧ g.Phis →
      (∀ v ∈ op.operands, g.Available m.globals.length 0 v) → g.Plain m op ty →
      (g.push 0 op ty none).2.Laid m ∧ (g.push 0 op ty none).2.Phis := by
    intro g op ty hb hg huse hplain
    have hop : op.isPhi = false ∧ op.successors = [] := by cases hplain <;> exact ⟨rfl, rfl⟩
    refine ⟨hg.1.push hb none ⟨fun _ => huse, ?_, .plain hplain, by simp [hop.2]⟩,
      hg.2.push hb ty none hop.1 (by simp [hop.2])⟩
    intro incoming hphi
    rw [hphi] at hop
    cases hop.1
  have hcall : ∀ {g : IR.Function} (v : Value), g.Plain m (.call 0 [v]) .i32 := by
    intro g v
    have h := @IR.Function.Plain.call m g 0 [v] hfunctions (by rw [hprintf]; rfl)
    rwa [hprintf] at h
  have hnew : ((f.setParamName 0 "text").createBlock "entry").2.Laid m ∧
      ((f.setParamName 0 "text").createBlock "entry").2.Phis := by
    refine laid_of_insts_nil hinsts fun b => ?_
    rw [IR.Function.ids_createBlock]
    simp [IR.Function.ids, IR.Function.setParamName, hblocks]
  have hentry : ((f.setParamName 0 "text").createBlock "entry").1 = 0 := by
    simp [IR.Function.setParamName, hblocks]
  unfold helperBody
  simp only [IR.Function.call, IR.Function.ret, hentry]
  refine hpush (by simp) (hpush (by simp) (hpush (by simp) hnew ?_ (hcall _)) ?_ (hcall _)) ?_ .ret
  · intro v hv
    obtain rfl : v = .param 0 := by simpa [Op.operands] using hv
    exact hparams
  · intro v hv
    obtain rfl : v = .global 0 := by simpa [Op.operands] using hv
    exact hglobals
  · simp [Op.operands]

theorem start_sound (options : Options) : (start options).Sound := by
  obtain ⟨helperName, entryName, hfunctions⟩ := openModule_functions options
  have hlaid : ∀ {f : Nat}, f < 3 → ((start options).code.function f).Laid (start options).code ∧
      ((start options).code.function f).Phis := by
    intro f hf
    have hget : ∀ f, (start options).code.function f
        = ((openModule options).2.functions[f]?).getD default := fun _ => rfl
    obtain rfl | rfl | rfl : f = 0 ∨ f = 1 ∨ f = 2 := by omega
    · rw [hget, hfunctions]
      exact laid_of_insts_nil rfl fun _ => rfl
    · rw [hget, hfunctions]
      exact laid_helperBody (m := (start options).code) Nat.zero_lt_one (Nat.succ_pos 2) rfl rfl rfl
        Nat.zero_lt_one
    · rw [hget, hfunctions]
      refine laid_of_insts_nil rfl fun b => ?_
      show ((IR.Function.new entryName _ _).createBlock "entry").2.ids b = []
      rw [IR.Function.ids_createBlock]
      rfl
  refine ⟨start_valid options, fun hf => (hlaid hf).1, fun hf => (hlaid hf).2, ?_⟩
  intro scope hmem entry hentry
  obtain rfl : scope = { cursor := entryCursor } := by simpa [start] using hmem
  cases hentry

/-- **The module of a program is laid out well**, whether or not statements are missing in it. -/
theorem lowerProgram_laid {root : Program.Block} {options : Options} {l : Lowered}
    (h : lowerProgram root options = .ok l) {f : FuncId} (hf : f < l.code.functions.length) :
    (l.code.function f).Laid l.code ∧ (l.code.function f).Phis := by
  obtain ⟨t, hrun, hcode, -⟩ := lowerProgram_ok h
  have hs := hrun.sound (start_sound options)
  rw [← hcode] at hf ⊢
  exact ⟨hs.laid hf, hs.phis hf⟩

/-! ### What holds of every function -/

/-- Every function of the module has a property. -/
def Lowerer.Each (P : IR.Function → Prop) (s : Lowerer) : Prop :=
  ∀ f, f < s.code.functions.length → P (s.code.function f)

namespace Lowerer.Each

variable {P : IR.Function → Prop}

theorem congr (hs : s.Each P) (hcode : t.code = s.code) : t.Each P := by
  unfold Lowerer.Each
  rw [hcode]
  exact hs

/-- A change to one function. -/
theorem update (hs : s.Each P) {func : FuncId} {change : IR.Function → IR.Function}
    (hchange : func < s.code.functions.length → P (s.code.function func) →
      P (change (s.code.function func))) : (s.update func change).Each P := by
  intro f hf
  rw [Lowerer.update_functions_length] at hf
  by_cases heq : f = func
  · subst heq
    rw [Lowerer.function_update_self change hf]
    exact hchange hf (hs f hf)
  · rw [Lowerer.function_update_ne change heq]
    exact hs f hf

theorem openFunction (hs : s.Each P) (name : String) (params : List Param) (ret : Ty)
    (hnew : ∀ name names, P ({ IR.Function.new name (Lowerer.signature params ret) .internal with
      paramNames := names }.createBlock "entry").2) : (s.openFunction name params ret).Each P := by
  refine congr (s := s.addFunction name params ret) ?_ (bindParams_code _ _ _)
  intro f hf
  rw [addFunction_functions_length] at hf
  rcases Nat.lt_or_eq_of_le (Nat.le_of_lt_succ hf) with hold | rfl
  · rw [function_addFunction_of_lt s name params ret hold]
    exact hs f hold
  · obtain ⟨names, hbody⟩ := body_addFunction s name params ret
    show P ((s.addFunction name params ret).body s.nextFunction)
    rw [hbody]
    exact hnew _ names

end Lowerer.Each

/-- A property that functions keep whatever a run does to them.  Instructions are added, a phi never
without inputs, blocks are added, results are named, and phis are given other inputs.  A function
that is added has it. -/
structure Lasting (P : IR.Function → Prop) : Prop where
  push : ∀ {f : IR.Function} {op : Op} (b : BlockId) (ty : Ty) (name : Option String),
    op ≠ .phi [] → P f →
    P (f.push b op ty name).2
  block : ∀ {f : IR.Function} {base : String}, base ∈ ["then", "else", "loop", "afterloop"] → P f →
    P (f.createBlock base).2
  rename : ∀ {f : IR.Function} (v : Value) (name : String), P f → P (f.setValueName v name)
  setPhi : ∀ {f : IR.Function} (k : InstId) {phi : IR.Inst}, phi.op ≠ .phi [] → P f →
    P (f.setPhi k phi)
  opened : ∀ (name : String) (sig : IR.Signature) (names : List String),
    P ({ IR.Function.new name sig .internal with paramNames := names }.createBlock "entry").2

namespace Lasting

variable {P : IR.Function → Prop} (hP : Lasting P)

include hP

theorem emit (hs : s.Each P) (c : Cursor) {op : Op} (hop : op ≠ .phi []) (ty : Ty)
    (name : Option String) :
    (s.emit c op ty name).Each P :=
  hs.update fun _ hf => hP.push _ _ _ hop hf

theorem addBlock (hs : s.Each P) (func : FuncId) {base : String}
    (hbase : base ∈ ["then", "else", "loop", "afterloop"]) : (s.addBlock func base).Each P :=
  hs.update fun _ hf => hP.block hbase hf

theorem fork (hs : s.Each P) (c : Cursor) (cond : Value) : (s.fork c cond).Each P :=
  hP.emit (hP.addBlock (hP.addBlock hs c.func (by simp)) c.func (by simp)) c (by simp) _ _

theorem openLoop (hs : s.Each P) (c : Cursor) (start : Value) : (s.openLoop c start).Each P := by
  have hjump : ((s.jump c).enter (s.nextCursor c)).Each P :=
    (hP.emit (hP.addBlock hs c.func (by simp)) c (by simp) _ _).congr (enter_code _ _)
  exact (hP.emit hjump _ (by simp) _ _).congr (bindName_code _ _ _ _)

theorem closeLoop (hs : s.Each P) (inside : Cursor) (counter next : InstId) (name : String)
    (incoming : List (Value × BlockId)) (bound : Value) :
    (s.closeLoop inside counter next name incoming bound).Each P := by
  have htest : (s.testLoop inside next bound).Each P :=
    hP.addBlock (((hP.emit hs inside (by simp) _ _).update fun _ hf => hP.rename _ _ hf).update
      fun _ hf => hP.rename _ _ hf) _ (by simp)
  exact (hP.emit htest inside (by simp) _ _).update fun _ hf => hP.setPhi counter (by simp) hf

end Lasting

/-- **What lasts holds of all functions after a run** if it holds of all functions before. -/
theorem Runs.each {P : IR.Function → Prop} (h : Runs s t) (hP : Lasting P) (hs : s.Each P) :
    t.Each P := by
  induction h with
  | refl s => exact hs
  | trans _ _ ih ih' => exact ih' (ih hs)
  | string s name text => exact hs
  | error s _ => exact hs
  | plain hc hop _ => exact hP.emit hs _ (by rintro rfl; cases hop) _ _
  | slot hc node ty name => exact (hP.emit hs _ (by simp) _ _).congr (bindName_code _ _ _ _)
  | branch hc hu _ _ ihthen ihelse =>
    have hthen := ihthen ((hP.fork hs _ _).congr (enter_code _ _))
    exact ihelse (hthen.congr (enter_code _ _))
  | branchBroken hc hu _ ih => exact ih ((hP.fork hs _ _).congr (enter_code _ _))
  | loop hc hu _ _ hb ihbody ihlimit =>
    have hlimit := ihlimit (hP.emit (ihbody (hP.openLoop hs _ _)) _ (by simp) _ _)
    exact hP.emit ((hP.closeLoop hlimit _ _ _ _ _ _).congr rfl) _ (by simp) _ _
  | loopBroken hc hu _ ih => exact ih (hP.openLoop hs _ _)
  | function name params ret _ ih =>
    exact ih (hs.openFunction name params ret fun _ _ => hP.opened _ _ _)

/-- It holds of the three functions that lowering starts with. -/
theorem start_each {P : IR.Function → Prop} (options : Options) (hprintf : P printfFunction)
    (hhelper : ∀ name,
      P (helperBody 0 (.global 0) (.new name { params := [.str], ret := .void } .concealed)).2)
    (hentry : ∀ name,
      P ((IR.Function.new name { params := [], ret := .void } .external).createBlock "entry").2) :
    (start options).Each P := by
  obtain ⟨helperName, entryName, hfunctions⟩ := openModule_functions options
  have hget : ∀ f, (start options).code.function f
      = ((openModule options).2.functions[f]?).getD default := fun _ => rfl
  intro f hf
  rw [start_functions_length] at hf
  obtain rfl | rfl | rfl : f = 0 ∨ f = 1 ∨ f = 2 := by omega
  · rw [hget, hfunctions]
    exact hprintf
  · rw [hget, hfunctions]
    exact hhelper helperName
  · rw [hget, hfunctions]
    exact hentry entryName

end TreeCompiler.Lowering
