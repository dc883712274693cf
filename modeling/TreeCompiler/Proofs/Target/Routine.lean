/-
Which functions code can be made for.

A function that lowering gave and the verifier accepted is made into target code block by block.  An
operand is found if it is known where it is used and has a value at all: what an instruction of type
`void` gives is nothing, and no target value stands for it.  That is the only thing that can be
missing.  Strings and callees have been declared, branches lead to blocks of the function, and every
phi has an input for each branch to its block, made before the branch.

So the code of a function is refused exactly if an instruction uses a value of type `void`
(`refuses_buildBlocks`).  The verifier does not rule that out: a function without a result may
return what a call of another such function gives, and the printing function takes anything after
its first argument.
-/
import Mathlib.Data.List.TakeWhile
import TreeCompiler.Proofs.IR.Void
import TreeCompiler.Proofs.Target.Refusal
import TreeCompiler.Target.Routine

namespace TreeCompiler.Target

open IR (FuncId BlockId InstId GlobalId Ty Value Op)

/-! ### What is known of a function and of its draft -/

/-- A function that lowering gave and the verifier accepted, with all it refers to declared. -/
structure Buildable (env : Environment) (f : IR.Function) : Prop extends f.Checked env.code where
  params : Ty.void ∉ f.sig.params
  strings : ∀ {id : GlobalId}, id < env.code.globals.length → id ∈ env.strings
  callees : ∀ {callee : FuncId}, callee < env.code.functions.length → ∃ number sig,
    env.callees.lookup callee = some (number, sig) ∧
      sig.ret = MachineTy.ofTy? (env.code.function callee).sig.ret

/-- Where code is made: the blocks before `b` are done, and so are these instructions of `b`. -/
structure Place where
  b : BlockId
  before : List (InstId × IR.Inst)

/-- The instructions that have their values: all phis, and what was made before. -/
def Place.Made (p : Place) (f : IR.Function) (k : InstId) : Prop :=
  ∃ i, f.insts[k]? = some i ∧ (i.op.isPhi = true ∨ i.block < p.b ∨ k ∈ p.before.map (·.1))

/-- Of the instructions that were made, those that are not `void` have values, and no others
have. -/
structure Drafted (f : IR.Function) (p : Place) (d : Draft) : Prop where
  complete : ∀ {k}, p.Made f k → f.valueType (.inst k) ≠ .void → (d.results.lookup k).isSome = true
  sound : ∀ {k}, (d.results.lookup k).isSome = true → f.valueType (.inst k) ≠ .void

/-- An operand that is within reach. -/
def Reached (env : Environment) (f : IR.Function) (p : Place) : Value → Prop
  | .const _ => True
  | .inst k => p.Made f k
  | .param i => i < f.sig.params.length
  | .global id => id < env.code.globals.length

section Instructions

variable {env : Environment} {f : IR.Function} {p : Place} {d d' : Draft} {entry : List ValueId}
  {v : Value}

theorem Drafted.congr (h : Drafted f p d) (hr : d'.results = d.results) : Drafted f p d' := by
  refine ⟨?_, ?_⟩
  · intro k hk hty
    rw [hr]
    exact h.complete hk hty
  · intro k hk
    rw [hr] at hk
    exact h.sound hk

/-! ### Values and operands -/

theorem refuses_make (h : Drafted f p d) (ty : MachineTy) (i : ValueId → Instr) :
    Refuses False (fun _ d' => Drafted f p d') (make ty i) d :=
  .of_ok rfl (h.congr rfl)

theorem refuses_append (h : Drafted f p d) (i : Instr) :
    Refuses False (fun _ d' => Drafted f p d') (append i) d :=
  .of_ok rfl (h.congr rfl)

theorem refuses_newValue (h : Drafted f p d) (ty : MachineTy) :
    Refuses False (fun _ d' => Drafted f p d') (newValue ty) d :=
  .of_ok rfl (h.congr rfl)

theorem refuses_typeOf (h : Drafted f p d) (x : ValueId) :
    Refuses False (fun _ d' => Drafted f p d') (typeOf x) d :=
  .of_ok rfl h

theorem refuses_stringNumber (h : Drafted f p d) (id : GlobalId) :
    Refuses False (fun _ d' => Drafted f p d') (stringNumber id) d := by
  refine .get_bind ?_
  dsimp only
  split
  · exact .pure h
  · exact (Refuses.modify (Q := fun _ d' => Drafted f p d') (h.congr rfl)).bind_right
      fun _ _ h' => .pure h'

/-- **An operand within reach is refused exactly if it is `void`.** -/
theorem refuses_operand (hb : Buildable env f) (hentry : f.sig.params.length ≤ entry.length)
    (h : Drafted f p d) (hv : Reached env f p v) :
    Refuses (f.valueType v = .void) (fun _ d' => Drafted f p d') (operand env entry v) d := by
  cases v with
  | const c =>
    cases c with
    | int n => exact (refuses_make h _ _).of_not (by simp [IR.Function.valueType, IR.Const.ty])
    | float x => exact (refuses_make h _ _).of_not (by simp [IR.Function.valueType, IR.Const.ty])
  | param i =>
    have hlt : i < f.sig.params.length := hv
    have hty : f.valueType (.param i) ≠ .void := by
      intro hvoid
      refine hb.params (List.mem_iff_getElem.mpr ⟨i, hlt, ?_⟩)
      simpa [IR.Function.valueType, List.getElem?_eq_getElem hlt] using hvoid
    have hget : entry[i]? = some (entry.get ⟨i, Nat.lt_of_lt_of_le hlt hentry⟩) :=
      List.getElem?_eq_getElem _
    simp only [operand, hget]
    exact .accepted rfl hty h
  | global id =>
    have hmem : id ∈ env.strings := hb.strings hv
    simp only [operand, if_pos hmem]
    refine ((refuses_stringNumber h id).bind_right fun n d' h' => refuses_make h' _ _).congr ?_
    simp [IR.Function.valueType]
  | inst k =>
    refine .get_bind ?_
    have hmade : p.Made f k := hv
    rcases hk : d.results.lookup k with _ | x
    · refine .refused rfl ?_
      by_contra hty
      have hsome := h.complete hmade hty
      rw [hk] at hsome
      cases hsome
    · refine .accepted rfl ?_ h
      exact h.sound (by rw [hk]; rfl)

/-- The operands of an instruction, one after the other. -/
theorem refuses_operands (hb : Buildable env f) (hentry : f.sig.params.length ≤ entry.length)
    (h : Drafted f p d) {vs : List Value} (hvs : ∀ v ∈ vs, Reached env f p v) :
    Refuses (∃ v ∈ vs, f.valueType v = .void) (fun _ d' => Drafted f p d')
      (vs.mapM (operand env entry)) d := by
  refine (Refuses.mapM (I := fun _ d' => Drafted f p d') ?_ h).mono fun _ _ h' => h'.2
  intro before v after hsplit d' h'
  exact refuses_operand hb hentry h' (hvs v (by simp [hsplit]))

/-! ### Edges -/

/-- What stands at the head of a block that starts with a phi. -/
theorem of_mem_leadingPhis {b : BlockId} {x : InstId × IR.Inst} (h : x ∈ leadingPhis f b) :
    x ∈ f.blockInsts b ∧ ∃ incoming, x.2.op = .phi incoming := by
  refine ⟨(List.takeWhile_prefix _).subset h, ?_⟩
  have hphi : x.2.op.isPhi = true :=
    List.mem_takeWhile_imp (p := fun x : InstId × IR.Inst => x.2.op.isPhi) h
  cases hop : x.2.op with
  | phi incoming => exact ⟨incoming, rfl⟩
  | _ => simp [hop, Op.isPhi] at hphi

/-- The input of a phi for the branch at the end of a block was made before the branch. -/
theorem Buildable.reached_input (hb : Buildable env f) {k : InstId} {i : IR.Inst}
    (hend : f.blockInsts p.b = p.before ++ [(k, i)]) (hvoid : i.ty = .void) {k' : InstId}
    {i' : IR.Inst} {incoming : List (Value × BlockId)} (hi : f.insts[k']? = some i')
    (hop : i'.op = .phi incoming) {x : Value × BlockId} (hx : x ∈ incoming) (hsource : x.2 = p.b) :
    Reached env f p x.1 := by
  have havail := (hb.laid.rules.sourced hi).inputs incoming hop x hx
  have hty := hb.input_ty hi hop hx
  obtain ⟨v, source⟩ := x
  obtain rfl : source = p.b := hsource
  cases v with
  | const c => trivial
  | param n => exact havail
  | global id => exact havail
  | inst j =>
    obtain ⟨source, hj, habove⟩ := havail
    refine ⟨source, hj, .inr ?_⟩
    rcases Nat.lt_or_eq_of_le habove.le with hlt | heq
    · exact .inl hlt
    · -- The input stands in the block itself, and it is not the branch.
      have hmem : j ∈ f.ids p.b := by
        rw [← show source.block = p.b from heq]
        exact hb.laid.placement.placed hj
      rw [← hb.laid.placement.map_blockInsts, hend, List.map_append, List.mem_append] at hmem
      rcases hmem with hbefore | hbranch
      · exact .inr hbefore
      · obtain rfl : j = k := by simpa using hbranch
        have hk := (hb.laid.placement.mem_blockInsts (b := p.b) (e := (j, i))).mp (by simp [hend])
        simp only [IR.Function.valueType, hk.1, Option.map_some, Option.getD_some, hvoid] at hty
        cases hty

/-- A branch passes an input to each phi of its target. -/
theorem refuses_edgeArgs (hb : Buildable env f) (hentry : f.sig.params.length ≤ entry.length)
    (h : Drafted f p d) {k : InstId} {i : IR.Inst} (hend : f.blockInsts p.b = p.before ++ [(k, i)])
    (hvoid : i.ty = .void) {target : BlockId} (htarget : target ∈ i.op.successors) :
    Refuses False (fun _ d' => Drafted f p d') (edgeArgs env f entry p.b target) d := by
  have hplace := hb.laid.placement
  have hk := (hplace.mem_blockInsts (b := p.b) (e := (k, i))).mp (by simp [hend])
  refine (Refuses.mapM_accepted (I := fun _ d' => Drafted f p d') ?_ h).mono fun _ _ h' => h'.2
  rintro before ⟨k', i'⟩ after hsplit d' h'
  have hmem : (k', i') ∈ leadingPhis f target := by simp [hsplit]
  obtain ⟨hin, incoming, (hop : i'.op = .phi incoming)⟩ := of_mem_leadingPhis hmem
  obtain ⟨hi, rfl⟩ := hplace.mem_blockInsts.mp hin
  have hsource : p.b ∈ incoming.map (·.2) :=
    (hb.phis.inputs hi hop p.b).mpr ⟨k, i, hk.1, hk.2, htarget⟩
  simp only [hop, phiInputs]
  rcases hfind : incoming.find? (·.2 = p.b) with _ | x
  · obtain ⟨x, hx, hxb⟩ := List.mem_map.mp hsource
    have hnone := List.find?_eq_none.mp hfind x hx
    simp [hxb] at hnone
  · have hx := List.mem_of_find?_eq_some hfind
    have hxb : x.2 = p.b := by simpa using List.find?_some hfind
    have hreached := hb.reached_input hend hvoid hi hop hx hxb
    simp only [hfind]
    exact (refuses_operand hb hentry h' hreached).congr (by simp [hb.input_ty hi hop hx])

/-! ### Instructions -/

theorem isSome_ofTy? (ty : Ty) : (MachineTy.ofTy? ty).isSome = true ↔ ty ≠ .void := by
  cases ty <;> simp [MachineTy.ofTy?]

/-- A value for the result of a call, if it has one. -/
theorem refuses_mapM_newValue (h : Drafted f p d) (ty : Option MachineTy) :
    Refuses False (fun r d' => Drafted f p d' ∧ r.isSome = ty.isSome) (ty.mapM newValue) d := by
  cases ty with
  | none => exact .pure ⟨h, rfl⟩
  | some ty => exact .of_ok rfl ⟨h.congr rfl, rfl⟩

/-- A call of a function of the module never fails, and has a value unless the callee gives none. -/
theorem refuses_buildCall (hb : Buildable env f) (h : Drafted f p d) {callee : FuncId}
    (hcallee : callee < env.code.functions.length) (args : List ValueId) :
    Refuses False
      (fun r d' => Drafted f p d' ∧
        (r.isSome = true ↔ (env.code.function callee).sig.ret ≠ .void))
      (buildCall env callee (env.code.function callee).sig.ret args) d := by
  obtain ⟨number, sig, hlookup, hret⟩ := hb.callees hcallee
  simp only [buildCall, hlookup]
  have hresult : ∀ (ty : Option MachineTy) (i : Option ValueId → Instr) (d : Draft), Drafted f p d →
      ty = MachineTy.ofTy? (env.code.function callee).sig.ret →
      Refuses False (fun r d' => Drafted f p d' ∧
        (r.isSome = true ↔ (env.code.function callee).sig.ret ≠ .void))
        (do
          let dst ← ty.mapM newValue
          append (i dst)
          return dst) d := by
    rintro ty i d h rfl
    refine (refuses_mapM_newValue h _).bind_right ?_
    rintro dst d' ⟨h', hdst⟩
    refine (refuses_append h' _).bind_right ?_
    intro _ d'' h''
    exact .pure ⟨h'', by rw [hdst, isSome_ofTy?]⟩
  split
  · have htypes : Refuses False (fun _ d' => Drafted f p d') (args.mapM typeOf) d := by
      refine (Refuses.mapM_accepted (I := fun _ d' => Drafted f p d') ?_ h).mono fun _ _ h' => h'.2
      intro _ x _ _ d' h'
      exact refuses_typeOf h' x
    refine htypes.bind_right ?_
    intro params d' h'
    refine (refuses_make h' _ _).bind_right ?_
    intro addr d'' h''
    exact hresult _ _ d'' h'' rfl
  · exact hresult _ _ d h hret

/-- The operands of an instruction were made before it. -/
theorem Buildable.reached (hb : Buildable env f) {k : InstId} {i : IR.Inst}
    {after : List (InstId × IR.Inst)} (hsplit : f.blockInsts p.b = p.before ++ (k, i) :: after)
    (hphi : i.op.isPhi = false) (hv : v ∈ i.op.operands) : Reached env f p v := by
  have hplace := hb.laid.placement
  obtain ⟨hi, hblock⟩ := (hplace.mem_blockInsts (b := p.b) (e := (k, i))).mp (by simp [hsplit])
  obtain ⟨havail, hlt⟩ := (hb.laid.rules.sourced hi).operands hphi v hv
  cases v with
  | const c => trivial
  | param n => exact havail
  | global id => exact havail
  | inst j =>
    obtain ⟨source, hj, habove⟩ := havail
    have hle : source.block ≤ p.b := hblock ▸ habove.le
    refine ⟨source, hj, .inr ?_⟩
    rcases Nat.lt_or_eq_of_le hle with hless | heq
    · exact .inl hless
    · exact .inr (hplace.mem_before hsplit (heq ▸ hplace.placed hj) (hlt j rfl))

/-- A block that a branch names is there. -/
theorem refuses_checkBlockExists (hb : Buildable env f) (h : Drafted f p d) {k : InstId}
    {i : IR.Inst} (hi : f.insts[k]? = some i) {target : BlockId}
    (htarget : target ∈ i.op.successors) :
    Refuses False (fun _ d' => Drafted f p d') (checkBlockExists f target) d := by
  have hlt : target < f.blocks.length := (hb.laid.branching.target ⟨k, i, hi, rfl, htarget⟩).1
  rw [checkBlockExists, if_pos hlt]
  exact .pure h

/-- A terminator is the last instruction of its block. -/
theorem Buildable.last (hb : Buildable env f) {k : InstId} {i : IR.Inst}
    {after : List (InstId × IR.Inst)} (hsplit : f.blockInsts p.b = p.before ++ (k, i) :: after)
    (hterm : i.op.isTerminator = true) : f.blockInsts p.b = p.before ++ [(k, i)] := by
  have hplace := hb.laid.placement
  obtain ⟨hi, hblock⟩ := (hplace.mem_blockInsts (b := p.b) (e := (k, i))).mp (by simp [hsplit])
  have hshape := hb.shaped (hblock ▸ hplace.block_lt hi)
  rw [hsplit, List.map_append, List.map_cons] at hshape
  have hnil := List.map_eq_nil_iff.mp (IR.eq_nil_of_checkShape hshape hterm)
  rw [hsplit, hnil]

theorem refuses_nonVoid (h : Drafted f p d) {ty : Ty} (hty : ty ≠ .void) (u : Unsupported) :
    Refuses False (fun _ d' => Drafted f p d') (nonVoid ty u) d := by
  obtain ⟨t, ht⟩ := Option.isSome_iff_exists.mp ((isSome_ofTy? ty).mpr hty)
  simp only [nonVoid, ht]
  exact .pure h

/-- Two operands, and then a step that never refuses. -/
theorem refuses_two_operands (hb : Buildable env f) (hentry : f.sig.params.length ≤ entry.length)
    (h : Drafted f p d) {v w : Value} (hv : Reached env f p v) (hw : Reached env f p w) {α : Type}
    {Q : α → Draft → Prop} {k : ValueId → ValueId → RoutineM α}
    (hk : ∀ x y d', Drafted f p d' → Refuses False Q (k x y) d') :
    Refuses (∃ u ∈ [v, w], f.valueType u = .void) Q
      (operand env entry v >>= fun x => operand env entry w >>= k x) d := by
  have htwo := (refuses_operand hb hentry h hv).bind fun x d' h' =>
    (refuses_operand hb hentry h' hw).bind_left fun y d' h' => hk x y d' h'
  exact htwo.congr (by simp)

/-- **The code of an instruction is refused exactly if one of its operands is `void`**, and it has a
value unless its type is `void`.  Phis have theirs already. -/
theorem refuses_buildInst (hb : Buildable env f) (hentry : f.sig.params.length ≤ entry.length)
    (h : Drafted f p d) {k : InstId} {i : IR.Inst} {after : List (InstId × IR.Inst)}
    (hsplit : f.blockInsts p.b = p.before ++ (k, i) :: after) :
    Refuses (∃ v ∈ i.op.operands, f.valueType v = .void)
      (fun r d' => Drafted f p d' ∧ (r.isSome = true ↔ i.ty ≠ .void ∧ i.op.isPhi = false))
      (buildInst env f entry p.b i) d := by
  have hplace := hb.laid.placement
  obtain ⟨(hi : f.insts[k]? = some i), (hblock : i.block = p.b)⟩ :=
    (hplace.mem_blockInsts (b := p.b) (e := (k, i))).mp (by simp [hsplit])
  have hreached : ∀ {v}, i.op.isPhi = false → v ∈ i.op.operands → Reached env f p v :=
    fun hphi hv => hb.reached hsplit hphi hv
  obtain ⟨op, ty, name, block⟩ := i
  have htyped : f.Typed env.code op ty := hb.laid.rules.typed hi
  cases htyped with
  | alloca ty =>
    refine Refuses.congr (V := False) ?_ (by simp [Op.operands])
    refine .get_bind ?_
    refine (Refuses.modify (Q := fun _ d' => Drafted f p d') (h.congr rfl)).bind_right ?_
    intro _ d' h'
    exact .of_ok rfl ⟨h'.congr rfl, by simp [Op.isPhi]⟩
  | phi incoming =>
    refine .accepted rfl ?_ ⟨h, by simp [Op.isPhi]⟩
    rintro ⟨v, hv, hvoid⟩
    obtain ⟨x, hx, rfl⟩ := List.mem_map.mp hv
    rw [hb.input_ty hi rfl hx] at hvoid
    cases hvoid
  | br target =>
    have hend := hb.last hsplit rfl
    have htarget : target ∈ (Op.br target).successors := by simp [Op.successors]
    refine Refuses.congr (V := False) ?_ (by simp [Op.operands])
    refine (refuses_edgeArgs hb hentry h hend rfl htarget).bind_right fun args d' h' => ?_
    refine (refuses_checkBlockExists hb h' hi htarget).bind_right fun _ d' h' => ?_
    exact (refuses_append h' _).bind_right fun _ d' h' => .pure ⟨h', by simp⟩
  | condBr cond thenBlock elseBlock =>
    have hend := hb.last hsplit rfl
    have hthen : thenBlock ∈ (Op.condBr cond thenBlock elseBlock).successors := by
      simp [Op.successors]
    have helse : elseBlock ∈ (Op.condBr cond thenBlock elseBlock).successors := by
      simp [Op.successors]
    refine Refuses.congr (V := f.valueType cond = .void) ?_ (by simp [Op.operands])
    have hcond := hreached (v := cond) rfl (by simp [Op.operands])
    refine (refuses_operand hb hentry h hcond).bind_left fun cond' d' h' => ?_
    refine (refuses_edgeArgs hb hentry h' hend rfl hthen).bind_right fun _ d' h' => ?_
    refine (refuses_edgeArgs hb hentry h' hend rfl helse).bind_right fun _ d' h' => ?_
    refine (refuses_checkBlockExists hb h' hi hthen).bind_right fun _ d' h' => ?_
    refine (refuses_checkBlockExists hb h' hi helse).bind_right fun _ d' h' => ?_
    exact (refuses_append h' _).bind_right fun _ d' h' => .pure ⟨h', by simp⟩
  | plain hplain =>
    cases hplain with
    | @load ty ptr hp =>
      have hty := hb.slot_ty hp
      refine Refuses.congr (V := f.valueType ptr = .void) ?_ (by simp [Op.operands])
      refine (refuses_nonVoid h hty _).bind_right fun ty' d' h' => ?_
      have hptr := hreached (v := ptr) rfl (by simp [Op.operands])
      refine (refuses_operand hb hentry h' hptr).bind_left fun addr d' h' => ?_
      exact .of_ok rfl ⟨h'.congr rfl, by simp [Op.isPhi, hty]⟩
    | @store ty value ptr hp =>
      refine refuses_two_operands hb hentry h (hreached rfl (by simp [Op.operands]))
        (hreached rfl (by simp [Op.operands])) ?_
      intro value' ptr' d' h'
      exact (refuses_append h' _).bind_right fun _ d' h' => .pure ⟨h', by simp⟩
    | @arith op lhs rhs =>
      have hty := hb.arith_ty hi rfl
      refine refuses_two_operands hb hentry h (hreached rfl (by simp [Op.operands]))
        (hreached rfl (by simp [Op.operands])) ?_
      intro lhs' rhs' d' h'
      refine (refuses_typeOf h' lhs').bind_right fun ty' d' h' => ?_
      exact .of_ok rfl ⟨h'.congr rfl, by simp [Op.isPhi, hty]⟩
    | @fcmp pred lhs rhs =>
      refine refuses_two_operands hb hentry h (hreached rfl (by simp [Op.operands]))
        (hreached rfl (by simp [Op.operands])) ?_
      intro lhs' rhs' d' h'
      exact .of_ok rfl ⟨h'.congr rfl, by simp [Op.isPhi]⟩
    | @call callee args hf ha =>
      refine (refuses_operands hb hentry h fun v hv => hreached rfl hv).bind_left
        fun args' d' h' => ?_
      refine (refuses_buildCall hb h' hf args').mono ?_
      rintro r d' ⟨h', hr⟩
      exact ⟨h', by simp [hr, Op.isPhi]⟩
    | @ret value =>
      cases value with
      | none =>
        refine Refuses.congr (V := False) ?_ (by simp [Op.operands])
        exact (refuses_append h _).bind_right fun _ d' h' => .pure ⟨h', by simp⟩
      | some value =>
        refine Refuses.congr (V := f.valueType value = .void) ?_ (by simp [Op.operands])
        have hvalue := hreached (v := value) rfl (by simp [Op.operands])
        refine (refuses_operand hb hentry h hvalue).bind_left fun value' d' h' => ?_
        exact (refuses_append h' _).bind_right fun _ d' h' => .pure ⟨h', by simp⟩

end Instructions

/-! ### Blocks -/

section Blocks

variable {env : Environment} {f : IR.Function} {b : BlockId} {before : List (InstId × IR.Inst)}
  {d : Draft} {entry : List ValueId}

/-- The result of an instruction is noted. -/
theorem refuses_bindResult (h : Drafted f ⟨b, before⟩ d) {k : InstId} {i : IR.Inst}
    (hi : f.insts[k]? = some i) {r : Option ValueId}
    (hr : r.isSome = true ↔ i.ty ≠ .void ∧ i.op.isPhi = false) :
    Refuses False (fun _ d' => Drafted f ⟨b, before ++ [(k, i)]⟩ d')
      (match r with
      | some v => bindResult k v
      | none => return) d := by
  have hty : f.valueType (.inst k) = i.ty := by simp [IR.Function.valueType, hi]
  have hmade : ∀ {j}, Place.Made ⟨b, before ++ [(k, i)]⟩ f j → j ≠ k →
      Place.Made ⟨b, before⟩ f j := by
    rintro j ⟨i', hj, hwhere⟩ hne
    refine ⟨i', hj, ?_⟩
    simpa [hne] using hwhere
  cases r with
  | some v =>
    refine .of_ok rfl ⟨?_, ?_⟩
    · intro j hj hvoid
      show (List.lookup j ((k, v) :: d.results)).isSome = true
      by_cases heq : j = k
      · simp [heq]
      · have hne : (j == k) = false := by simpa using heq
        simpa only [List.lookup_cons, hne] using h.complete (hmade hj heq) hvoid
    · intro j hj
      replace hj : (List.lookup j ((k, v) :: d.results)).isSome = true := hj
      by_cases heq : j = k
      · rw [heq, hty]
        exact (hr.mp rfl).1
      · have hne : (j == k) = false := by simpa using heq
        simp only [List.lookup_cons, hne] at hj
        exact h.sound hj
  | none =>
    refine .pure ⟨?_, h.sound⟩
    intro j hj hvoid
    by_cases heq : j = k
    · -- Without a value, what is not `void` is a phi.
      subst heq
      have hphi : i.op.isPhi = true := by
        by_contra hno
        rw [hty] at hvoid
        simpa using hr.mpr ⟨hvoid, by simpa using hno⟩
      exact h.complete ⟨i, hi, .inl hphi⟩ hvoid
    · exact h.complete (hmade hj heq) hvoid

/-- What is made when a block is done. -/
theorem Drafted.next (hplace : f.Placement) (h : Drafted f ⟨b, f.blockInsts b⟩ d) :
    Drafted f ⟨b + 1, []⟩ d := by
  refine ⟨?_, h.sound⟩
  rintro k ⟨i, hi, hwhere⟩ hvoid
  refine h.complete ⟨i, hi, ?_⟩ hvoid
  rcases hwhere with hphi | hlt | hmem
  · exact .inl hphi
  · rcases Nat.lt_or_eq_of_le (Nat.le_of_lt_succ hlt) with hless | rfl
    · exact .inr (.inl hless)
    · refine .inr (.inr ?_)
      rw [hplace.map_blockInsts]
      exact hplace.placed hi
  · cases hmem

/-- **The code of a block is refused exactly if one of its instructions uses a value of type
`void`.** -/
theorem refuses_buildBlock (hb : Buildable env f) (hentry : f.sig.params.length ≤ entry.length)
    (h : Drafted f ⟨b, []⟩ d) :
    Refuses (∃ x ∈ f.blockInsts b, ∃ v ∈ x.2.op.operands, f.valueType v = .void)
      (fun _ d' => Drafted f ⟨b + 1, []⟩ d') (buildBlock env f entry b) d := by
  have hplace := hb.laid.placement
  refine (Refuses.modify (Q := fun _ d' => Drafted f ⟨b, []⟩ d') (h.congr rfl)).bind_right
    fun _ d h => ?_
  refine (Refuses.forM (I := fun before d => Drafted f ⟨b, before⟩ d) ?_ h).bind_left
    fun _ d h => .get_bind (.pure (Drafted.next hplace h))
  rintro before ⟨k, i⟩ after hsplit d h
  have hi := (hplace.mem_blockInsts (b := b) (e := (k, i))).mp (by simp [hsplit])
  refine (refuses_buildInst hb hentry h hsplit).bind_left ?_
  rintro r d' ⟨h', hr⟩
  exact refuses_bindResult h' hi.1 hr

/-! ### Functions -/

/-- These instructions have values, and nothing that is `void` has one. -/
structure Headed (f : IR.Function) (ks : List InstId) (d : Draft) : Prop where
  complete : ∀ k ∈ ks, (d.results.lookup k).isSome = true
  sound : ∀ {k}, (d.results.lookup k).isSome = true → f.valueType (.inst k) ≠ .void

/-- A value is made for a phi. -/
theorem Headed.bind {ks : List InstId} {k : InstId} {v : ValueId} {d' : Draft} (h : Headed f ks d)
    (hk : f.valueType (.inst k) ≠ .void) (hd : d'.results = (k, v) :: d.results) :
    Headed f (ks ++ [k]) d' := by
  refine ⟨?_, ?_⟩
  · intro j hj
    rw [hd]
    by_cases heq : j = k
    · simp [heq]
    · have hne : (j == k) = false := by simpa using heq
      simpa only [List.lookup_cons, hne] using h.complete j (by simpa [heq] using hj)
  · intro j hj
    rw [hd] at hj
    by_cases heq : j = k
    · rw [heq]
      exact hk
    · have hne : (j == k) = false := by simpa using heq
      simp only [List.lookup_cons, hne] at hj
      exact h.sound hj

theorem refuses_phiParams (hb : Buildable env f) {ks : List InstId} (h : Headed f ks d)
    (b : BlockId) :
    Refuses False (fun _ d' => Headed f (ks ++ (leadingPhis f b).map (·.1)) d')
      (phiParams f b) d := by
  refine (Refuses.mapM_accepted (I := fun before d => Headed f (ks ++ before.map (·.1)) d) ?_
    (by simpa using h)).mono fun _ _ h' => h'.2
  rintro before ⟨k, i⟩ after hsplit d h
  obtain ⟨hin, incoming, (hop : i.op = .phi incoming)⟩ :=
    of_mem_leadingPhis (f := f) (b := b) (x := (k, i)) (by simp [hsplit])
  have hi := (hb.laid.placement.mem_blockInsts.mp hin).1
  have hphi : i.ty = .f64 := hb.phi_ty hi hop
  have hty : f.valueType (.inst k) = .f64 := by
    simp [IR.Function.valueType, show f.insts[k]? = some i from hi, hphi]
  simp only [hphi]
  refine .of_ok rfl ?_
  rw [List.map_append, ← List.append_assoc]
  exact h.bind (by simp [hty]) rfl

/-- A phi is at the head of its block. -/
theorem mem_leadingPhis (hplace : f.Placement) (hphis : f.Phis) {k : InstId} {i : IR.Inst}
    (hi : f.insts[k]? = some i) (hphi : i.op.isPhi = true) : (k, i) ∈ leadingPhis f i.block := by
  have hfirst := hphis.first hi hphi
  rw [← hplace.map_blockInsts, List.head?_map] at hfirst
  obtain ⟨x, hx, rfl⟩ := Option.map_eq_some_iff.mp hfirst
  obtain ⟨rest, hrest⟩ : ∃ rest, f.blockInsts i.block = x :: rest := List.head?_eq_some_iff.mp hx
  have hsame := (hplace.mem_blockInsts.mp (List.mem_of_mem_head? hx)).1
  rw [hi] at hsame
  obtain rfl : i = x.2 := by simpa using hsame
  unfold leadingPhis
  rw [hrest]
  simp [hphi]

/-- Once the phis of all blocks have their values, the first block can be made. -/
theorem refuses_allPhis (hb : Buildable env f) :
    Refuses False (fun ys d => ys.length = f.blocks.length ∧ Drafted f ⟨0, []⟩ d)
      ((List.range f.blocks.length).mapM (phiParams f)) {} := by
  have hempty : Headed f [] {} := ⟨by simp, by simp⟩
  refine (Refuses.mapM_accepted
    (I := fun done d => Headed f ((done.flatMap (leadingPhis f)).map (·.1)) d)
    ?_ hempty).mono ?_
  · intro before b after _ d h
    refine (refuses_phiParams hb h b).mono fun _ d' h' => ?_
    simpa using h'
  · rintro ys d ⟨hlen, h⟩
    refine ⟨by simpa using hlen, ?_, h.sound⟩
    rintro k ⟨i, hi, hphi | hlt | hmem⟩ -
    · refine h.complete k (List.mem_map.mpr ⟨(k, i), List.mem_flatMap.mpr ⟨i.block, ?_, ?_⟩, rfl⟩)
      · exact List.mem_range.mpr (hb.laid.placement.block_lt hi)
      · exact mem_leadingPhis hb.laid.placement hb.phis hi hphi
    · exact absurd hlt (Nat.not_lt_zero _)
    · cases hmem

theorem usesVoid_iff (hplace : f.Placement) : f.UsesVoid ↔
    ∃ b ∈ List.range f.blocks.length, ∃ x ∈ f.blockInsts b, ∃ v ∈ x.2.op.operands,
      f.valueType v = .void := by
  constructor
  · rintro ⟨i, hi, v, hv, hvoid⟩
    obtain ⟨k, hk⟩ := List.mem_iff_getElem?.mp hi
    refine ⟨i.block, List.mem_range.mpr (hplace.block_lt hk), (k, i), ?_, v, hv, hvoid⟩
    exact hplace.mem_blockInsts.mpr ⟨hk, rfl⟩
  · rintro ⟨b, -, x, hx, v, hv, hvoid⟩
    exact ⟨x.2, List.mem_of_getElem? (hplace.mem_blockInsts.mp hx).1, v, hv, hvoid⟩

/-- The blocks of a function, in order. -/
theorem refuses_allBlocks (hb : Buildable env f) (hentry : f.sig.params.length ≤ entry.length)
    (h : Drafted f ⟨0, []⟩ d) :
    Refuses f.UsesVoid (fun _ _ => True)
      ((List.range f.blocks.length).mapM (buildBlock env f entry)) d := by
  refine ((Refuses.mapM (I := fun done d => Drafted f ⟨done.length, []⟩ d) ?_ h).congr
    (usesVoid_iff hb.laid.placement).symm).mono fun _ _ _ => trivial
  intro before b after hsplit d h
  obtain rfl : before.length = b := by
    have hget : (List.range f.blocks.length)[before.length]? = some b := by simp [hsplit]
    simpa using (List.getElem?_eq_some_iff.mp hget).2
  refine (refuses_buildBlock hb hentry h).mono fun _ d' h' => ?_
  rwa [List.length_append]

/-- **Code can be made for a function exactly if no instruction uses a value of type `void`.** -/
theorem refuses_buildBlocks (hb : Buildable env f) {sig : CodeSig}
    (hsig : sig.params.length = f.sig.params.length) (hbody : 0 < f.blocks.length) :
    Refuses f.UsesVoid (fun _ _ => True) (buildBlocks env f sig) {} := by
  refine (refuses_allPhis hb).bind_right ?_
  rintro phis d ⟨hlen, h⟩
  have hargs : Refuses False (fun ys d' => ys.length = sig.params.length ∧ Drafted f ⟨0, []⟩ d')
      (sig.params.mapM fun ty => return (← newValue ty, ty)) d := by
    refine Refuses.mapM_accepted (I := fun _ d => Drafted f ⟨0, []⟩ d) ?_ h
    intro _ ty _ _ d h
    exact (refuses_newValue h ty).bind_right fun _ _ h' => .pure h'
  refine hargs.bind_right ?_
  rintro args d ⟨hlen', h⟩
  have hentry : f.sig.params.length
      ≤ (((phis.modifyHead (· ++ args)).headD []).map (·.1)).length := by
    cases phis with
    | nil =>
      rw [← hlen] at hbody
      cases hbody
    | cons first rest => simp [← hsig, ← hlen']
  exact (refuses_allBlocks hb hentry h).bind_left fun _ _ _ => .pure trivial

/-- The same for the finished code. -/
theorem build_cases (hb : Buildable env f) {sig : CodeSig}
    (hsig : sig.params.length = f.sig.params.length) (hbody : f.isDeclaration = false) :
    (¬ f.UsesVoid ∧ ∃ r, Routine.build env f sig = .ok r) ∨
      (f.UsesVoid ∧ ∃ u, Routine.build env f sig = .error (.ofUnsupported u)) := by
  have hpos : 0 < f.blocks.length := by
    rcases hblocks : f.blocks with _ | ⟨first, rest⟩
    · simp [IR.Function.isDeclaration, hblocks] at hbody
    · simp
  cases refuses_buildBlocks hb hsig hpos with
  | @accepted blocks d hx hv _ =>
    refine .inl ⟨hv, { sig, slots := d.slots, blocks }, ?_⟩
    simp only [Routine.build, hbody, hx]
    rfl
  | @refused u hx hv =>
    refine .inr ⟨hv, u, ?_⟩
    simp only [Routine.build, hbody, hx]
    rfl

end Blocks

end TreeCompiler.Target
