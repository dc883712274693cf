/-
Lowering is local and only adds.

`Runs.advances` says what a run keeps, but a run needs a block at every cursor.  Here nothing is
assumed of the state: its cursor may name a block or a function that does not exist, and still
nothing that does exist is touched.  So the walk is done once more, construct by construct, with
`Advances` as the relation between the state before and the state after.

Only a loop changes instructions that are there: its phi gets a second input, and the sum and the
test at its end get names.  All of them were added after the loop began, so seen from before it
nothing has changed (`Advances.replace`, `Advances.rename`).
-/
import TreeCompiler.Proofs.Lowering.Start

namespace TreeCompiler.IR.Function

/-- `g` is `f` with more at the end: instructions, blocks, and positions in the block `b`. -/
structure ExtendedAt (b : BlockId) (f g : Function) : Prop where
  name : g.name = f.name
  sig : g.sig = f.sig
  linkage : g.linkage = f.linkage
  paramNames : g.paramNames = f.paramNames
  insts : f.insts <+: g.insts
  blocks : f.blocks.length ≤ g.blocks.length
  others : ∀ a < f.blocks.length, a ≠ b → g.blocks[a]? = f.blocks[a]?
  here : ∀ block, f.blocks[b]? = some block →
    ∃ more, g.blocks[b]? = some { block with insts := block.insts ++ more }

/-- A block is its name and its positions. -/
theorem getElem?_blocks {f : Function} {a : BlockId} (ha : a < f.blocks.length) :
    f.blocks[a]? = some { name := f.label a, insts := f.ids a } := by
  simp [label, ids, List.getElem?_eq_getElem ha]

theorem GrowsAt.extendedAt {b : BlockId} {f g : Function} (h : f.GrowsAt b g) :
    f.ExtendedAt b g := by
  have hget : ∀ a < f.blocks.length, g.blocks[a]? = some { name := f.label a, insts := g.ids a } :=
    fun a ha => by rw [getElem?_blocks (Nat.lt_of_lt_of_le ha h.blocks), h.labels a ha]
  refine ⟨h.name, h.sig, h.linkage, h.paramNames, h.insts, h.blocks, fun a ha hab => ?_,
    fun block hb => ?_⟩
  · rw [hget a ha, getElem?_blocks ha, h.others a ha hab]
  · obtain ⟨hlt, -⟩ := List.getElem?_eq_some_iff.mp hb
    rw [getElem?_blocks hlt] at hb
    cases hb
    obtain ⟨more, hmore⟩ := h.ids b
    exact ⟨more, by rw [hget b hlt, hmore]⟩

end TreeCompiler.IR.Function

namespace TreeCompiler.Lowering

open IR (FuncId BlockId InstId Ty Value Op)
open Program (Expr Stmt Block BinOp NodeId Param)

/-! ### The function at the cursor -/

namespace Advances

variable {s t : Lowerer} {c d : Cursor}

/-- Nothing is taken away, and a function that does not exist is empty. -/
theorem lengths_le (h : Advances s t) (hc : s.At c) :
    (s.body c).insts.length ≤ (t.body c).insts.length ∧
      (s.body c).blocks.length ≤ (t.body c).blocks.length := by
  by_cases hf : c.func < s.code.functions.length
  · have hg : (s.body c).GrowsAt c.block (t.body c) := h.code.here c (Lowerer.mem_cursor?.mpr hc) hf
    exact ⟨hg.insts.length_le, hg.blocks⟩
  · have hempty : s.body c = default := by
      unfold Lowerer.body IR.Module.function
      rw [List.getElem?_eq_none (Nat.not_lt.mp hf)]
      rfl
    rw [hempty]
    exact ⟨Nat.zero_le _, Nat.zero_le _⟩

/-- A change to the module and nothing else. -/
theorem withCode (h : Advances s t) {m : IR.Module} (hm : CodeGrows s.cursor? s.code m) :
    Advances s { t with code := m } :=
  ⟨h.options, h.scopes, h.decls, h.errors, hm⟩

theorem addBlock (h : Advances s t) (hc : s.At c) (base : String) :
    Advances s (t.addBlock c.func base) :=
  h.withCode (hc.cursor? ▸ (hc.cursor? ▸ h.code).trans (.addBlock t c base))

theorem emit (h : Advances s t) (hc : s.At c) (op : Op) (ty : Ty) (name : Option String) :
    Advances s (t.emit c op ty name) :=
  h.withCode (hc.cursor? ▸ (hc.cursor? ▸ h.code).trans (.emit t c op ty name))

/-- An instruction in a block that `s` does not have. -/
theorem emitInner (h : Advances s t) (hd : CodeGrows.Fresh s.cursor? s.code d) (op : Op) (ty : Ty)
    (name : Option String) : Advances s (t.emit d op ty name) :=
  h.withCode (h.code.inner (.emit t d op ty name) hd)

theorem rename (h : Advances s t) (hc : s.At c) {k : InstId} (hk : (s.body c).insts.length ≤ k)
    (name : String) : Advances s (t.rename c.func (.inst k) name) :=
  h.withCode (hc.cursor? ▸ CodeGrows.rename (hc.cursor? ▸ h.code) hk name)

theorem replace (h : Advances s t) (hc : s.At c) {k : InstId} (hk : (s.body c).insts.length ≤ k)
    (i : IR.Inst) : Advances s (t.replace c.func k i) :=
  h.withCode (hc.cursor? ▸ CodeGrows.replace (hc.cursor? ▸ h.code) hk i)

/-- A block that the function at the cursor gets later is a new one. -/
theorem fresh (h : Advances s t) (hc : s.At c) :
    CodeGrows.Fresh s.cursor? s.code { c with block := (t.body c).blocks.length } :=
  fresh_of_block hc (h.lengths_le hc).2

/-- An input for a phi that `s` does not have: it is added, or the step fails and nothing
changes. -/
theorem addIncoming (h : Advances s t) (hc : s.At c) {k : InstId} (hk : (s.body c).insts.length ≤ k)
    (value : Value) (source : BlockId) :
    Advances s (outcome (addIncoming c.func (.inst k) value source) t).2 := by
  obtain ⟨g, hg, hout⟩ | ⟨_, hout⟩ := outcome_addIncoming_cases t c.func (.inst k) value source
  · obtain ⟨_, i, ⟨⟩, rfl⟩ := IR.Function.addIncoming_eq_ok hg
    rw [hout]
    exact h.replace hc hk i
  · rw [hout]
    exact h

end Advances

/-! ### Steps that only add -/

variable {α β : Type}

/-- From any state and however it ends, the step leaves all that was there in its place. -/
def Adds (x : LowerM α) : Prop := ∀ s, Advances s (outcome x s).2

/-- An end at which all that `base` has is still there; a value, if there is one, satisfies `P`. -/
structure Ends (base : Lowerer) (P : α → Prop) (r : Except LowerError α × Lowerer) : Prop where
  advances : Advances base r.2
  value : ∀ a, r.1 = .ok a → P a

theorem Ends.imp {base : Lowerer} {P Q : α → Prop} {r : Except LowerError α × Lowerer}
    (h : Ends base P r) (hpq : ∀ a, P a → Q a) : Ends base Q r :=
  ⟨h.advances, fun a ha => hpq a (h.value a ha)⟩

/-- The parts of a sequence, seen from where the sequence began. -/
theorem Ends.bind {base s : Lowerer} {x : LowerM α} {k : α → LowerM β} {P : β → Prop}
    (hx : Advances base (outcome x s).2)
    (hk : ∀ a t, outcome x s = (.ok a, t) → Advances base t → Ends base P (outcome (k a) t)) :
    Ends base P (outcome (x >>= k) s) := by
  rw [outcome_bind]
  rcases h : outcome x s with ⟨e | a, t⟩
  · rw [h] at hx
    exact ⟨hx, fun _ hok => by cases hok⟩
  · rw [h] at hx
    exact hk a t h hx

theorem Adds.ends {x : LowerM α} (hx : Adds x) (s : Lowerer) :
    Ends s (fun _ => True) (outcome x s) :=
  ⟨hx s, fun _ _ => trivial⟩

theorem advances_bind {base s : Lowerer} {x : LowerM α} {k : α → LowerM β}
    (hx : Advances base (outcome x s).2)
    (hk : ∀ a t, outcome x s = (.ok a, t) → Advances base t → Advances base (outcome (k a) t).2) :
    Advances base (outcome (x >>= k) s).2 :=
  (Ends.bind (P := fun _ => True) hx fun a t h ht => ⟨hk a t h ht, fun _ _ => trivial⟩).advances

namespace Adds

variable {x : LowerM α} {k : α → LowerM β}

theorem bind (hx : Adds x) (hk : ∀ a, Adds (k a)) : Adds (x >>= k) :=
  fun s => advances_bind (hx s) fun a t _ ht => ht.trans (hk a t)

theorem get_bind {k : Lowerer → LowerM α} (hk : ∀ s, Adds (k s)) : Adds (get >>= k) :=
  fun s => hk s s

theorem pure (a : α) : Adds (pure a : LowerM α) := .refl

theorem throw (e : LowerError) : Adds (throw e : LowerM α) := .refl

/-- A step whose value is passed on. -/
theorem map (hx : Adds x) (g : α → β) : Adds (do return g (← x)) :=
  hx.bind fun _ => .pure _

theorem cursor : Adds cursor := fun s => by
  rw [Lowering.cursor, outcome_liftScopes]
  exact .refl s

theorem addDecl (decl : Decl) : Adds (addDecl decl) := fun s => advances_record s decl

theorem addGlobalString (name text : String) : Adds (addGlobalString name text) :=
  fun _ => .ofCode (.string _ _ name text)

theorem declare (name : String) (value : Value) (decl : Option DeclId) :
    Adds (declare name value decl) := by
  intro s
  by_cases hs : s.scopes.scopes = []
  · have hfail : outcome (Lowering.declare name value decl) s = (.error .noActiveScope, s) := by
      rw [Lowering.declare, outcome_changeScopes]
      simp only [ScopeStack.declare, hs]
    rw [hfail]
    exact .refl s
  · rw [outcome_declare hs]
    exact advances_bindName s name value decl

theorem emit {step : IR.Function → BlockId → Value × IR.Function}
    (hstep : ∀ f b, ∃ op ty name, step f b = f.push b op ty name) : Adds (emit step) := by
  intro s
  obtain ⟨c, hc⟩ | hs := s.at_or_empty
  · obtain ⟨op, ty, name, heq⟩ := hstep (s.body c) c.block
    rw [outcome_emit hc heq]
    exact advances_emit hc op ty name
  · rw [outcome_emit_empty hs]
    exact .refl s

theorem materialize (value : Value) : Adds (materialize value) := by
  intro s
  obtain ⟨c, hc⟩ | hs := s.at_or_empty
  · rw [Lowering.materialize, outcome_bind_ok s _ (outcome_cursor hc),
      outcome_bind_ok s _ (outcome_slotType c value)]
    split
    · rw [outcome_emitAt rfl]
      exact advances_emit hc _ _ _
    · exact .refl s
  · rw [Lowering.materialize, outcome_bind_error s _ (outcome_cursor_empty hs)]
    exact .refl s

theorem recovering {x : LowerM (Option Value)} (hx : Adds x) : Adds (recovering x) := by
  intro s
  have hadv := hx s
  rcases h : outcome x s with ⟨e | v, t⟩
  · rw [h] at hadv
    rw [outcome_recovering_error h]
    split
    · exact hadv
    · exact ⟨hadv.options, hadv.scopes, hadv.decls, hadv.errors.trans (List.prefix_append _ _),
        hadv.code⟩
  · rw [outcome_recovering_ok h]
    rwa [h] at hadv

end Adds

/-! ### Regions -/

section Regions

variable {base t : Lowerer} {body : LowerM α} {P : α → Prop}

/-- A table is opened for a new block or function, and closed after a body that only adds. -/
theorem ends_closingScope {scope : Scope} (ha : Advances base t) (hs : t.scopes = base.scopes)
    (hnew : CodeGrows.Fresh base.cursor? base.code scope.cursor)
    (hbody : Ends { t with scopes := ⟨scope :: t.scopes.scopes⟩ } P
      (outcome body { t with scopes := ⟨scope :: t.scopes.scopes⟩ })) :
    Ends base P (outcome (closingScope body) { t with scopes := ⟨scope :: t.scopes.scopes⟩ }) ∧
      (outcome (closingScope body) { t with scopes := ⟨scope :: t.scopes.scopes⟩ }).2.scopes
        = base.scopes := by
  rcases h : outcome body { t with scopes := ⟨scope :: t.scopes.scopes⟩ } with ⟨r, u⟩
  rw [h] at hbody
  obtain ⟨hadv, hvalue⟩ := hbody
  have hne : u.scopes.scopes ≠ [] := fun hnil => by simpa using hadv.scopes.nil_iff.mp hnil
  have hclosed : u.leave.scopes = base.scopes := by
    show ScopeStack.mk u.scopes.scopes.tail = base.scopes
    rw [hadv.scopes.tail, ← hs]
    rfl
  rw [outcome_closingScope h hne]
  refine ⟨⟨⟨hadv.options.trans ha.options, ?_, ha.decls.trans hadv.decls,
    ha.errors.trans hadv.errors, ha.code.inner hadv.code hnew⟩, hvalue⟩, hclosed⟩
  rw [hclosed]
  exact .refl _

theorem ends_lowerRegion {d : Cursor} (ha : Advances base t) (hs : t.scopes = base.scopes)
    (hnew : CodeGrows.Fresh base.cursor? base.code d)
    (hbody : ∀ o : Lowerer, o.At d → o.code = t.code → Ends o P (outcome body o)) :
    Ends base P (outcome (lowerRegion d body) t) ∧
      (outcome (lowerRegion d body) t).2.scopes = base.scopes := by
  obtain ⟨c, hc⟩ | hempty := t.at_or_empty
  · obtain ⟨scope, rfl, hopen⟩ := enter_eq hc d
    rw [lowerRegion, outcome_bind, outcome_pushScopeCopy, if_neg hc.ne_nil, hopen]
    exact ends_closingScope ha hs hnew (hbody _ (Lowerer.at_of_scopes rfl) rfl)
  · rw [lowerRegion, outcome_bind, outcome_pushScopeCopy, if_pos hempty]
    exact ⟨⟨ha, fun _ hok => by cases hok⟩, hs⟩

end Regions

/-! ### Constructs -/

namespace Adds

variable {x y z : LowerM (Option Value)}

theorem ofOption (context : String) (value : Option Value) :
    Adds (match value with
      | some value => Pure.pure value
      | none => MonadExcept.throw (.missingValue context) : LowerM Value) := by
  cases value
  · exact .throw _
  · exact .pure _

theorem operand (hx : Adds x) (context : String) : Adds (operand context x) :=
  (hx.bind (ofOption context)).bind materialize

theorem lowerIdent (name : String) : Adds (lowerIdent name) := by
  refine .get_bind fun s => ?_
  split
  · exact .pure _
  · exact .throw _

theorem lowerBinary (hx : Adds x) (hy : Adds y) (op : BinOp) : Adds (lowerBinary op x y) := by
  refine (hx.operand _).bind fun lhs => (hy.operand _).bind fun rhs => ?_
  split
  · exact .emit fun _ _ => ⟨_, _, _, rfl⟩
  · exact .emit fun _ _ => ⟨_, _, _, rfl⟩
  · exact .throw _

theorem lowerAssign (hx : Adds x) (target : String) : Adds (lowerAssign target x) := by
  refine .get_bind fun s => ?_
  split
  · refine cursor.bind fun c => Adds.bind (.get_bind fun _ => .pure _) fun ty => ?_
    split
    · exact .get_bind fun _ => .throw _
    · exact (hx.operand _).bind fun _ => .emit fun _ _ => ⟨_, _, _, rfl⟩
  · exact .throw _

theorem lowerArg (hx : Adds x) (key : Option String) : Adds (lowerArg key x) := by
  refine (hx.bind (ofOption _)).bind fun value => ?_
  split
  · refine .get_bind fun s => ?_
    split
    · exact materialize _
    · exact .pure _
  · exact .pure _

theorem lowerCall {args : LowerM (List Value)} (hargs : Adds args) (callee : String) (count : Nat) :
    Adds (lowerCall callee count args) := by
  have hcall : ∀ (func : FuncId) (ret : Ty), Adds (do
      let values ← args
      Lowering.emit (·.call · func ret values)) :=
    fun _ _ => hargs.bind fun _ => .emit fun _ _ => ⟨_, _, _, rfl⟩
  refine .get_bind fun s => ?_
  split
  · refine .get_bind fun s => ?_
    dsimp only
    split
    · exact hcall _ _
    · exact (throw _).bind fun _ => hcall _ _
  · exact .throw _

theorem lowerIf (hx : Adds x) (hy : Adds y) (hz : Adds z) : Adds (lowerIf x y z) := by
  refine (hx.operand _).bind fun cond s => ?_
  obtain ⟨c, hc⟩ | hs := s.at_or_empty
  · -- Both arms are new, whatever was done in the first.
    have hthen := (Advances.refl s).addBlock hc "then"
    have helse := hthen.addBlock hc "else"
    have hfork := helse.emit hc (.condBr cond (s.body c).blocks.length
      ((s.addBlock c.func "then").body c).blocks.length) .void none
    have harm := ends_lowerRegion hfork rfl ((Advances.refl s).fresh hc) fun o _ _ => hy.ends o
    rw [outcome_bind_ok s _ (outcome_cursor hc), outcome_bind_ok _ _ (outcome_createBlock _ _),
      outcome_bind_ok _ _ (outcome_createBlock _ _), outcome_bind_ok _ _ (outcome_emitAt rfl)]
    refine advances_bind harm.1.advances fun _ t ht hadv => advances_bind ?_ fun _ _ _ hend => hend
    have hscopes : t.scopes = s.scopes := (congrArg (·.2.scopes) ht).symm.trans harm.2
    exact (ends_lowerRegion hadv hscopes (hthen.fresh hc) fun o _ _ => hz.ends o).1.advances
  · rw [outcome_bind_error s _ (outcome_cursor_empty hs)]
    exact .refl s

/-- The inside of a loop.  The block it yields is one that the function did not have at the
beginning. -/
theorem ends_lowerLoopBody {base : Lowerer} {inside : Cursor} (hc : base.At inside) (hx : Adds x)
    (hy : Adds y) (source : BlockId) (start : Value) :
    Ends base ((base.body inside).blocks.length ≤ ·)
      (outcome (lowerLoopBody { inside with block := source } inside start x y) base) := by
  rw [lowerLoopBody, outcome_get_bind, outcome_bind_ok _ _ (outcome_emitAt rfl)]
  have hphi := (Advances.refl base).emit hc (.phi []) .f64 (some base.options.inductionName)
  refine .bind (hphi.addIncoming hc (Nat.le_refl _) _ _) fun _ _ _ h => ?_
  refine .bind (h.trans (declare _ _ _ _)) fun _ _ _ h =>
    .bind (h.trans (hx _)) fun _ t _ hbody => ?_
  rw [outcome_bind_ok _ _ (outcome_emit (hbody.at_iff.mpr hc) rfl)]
  refine .bind ((hbody.emit hc _ _ _).trans (hy.operand _ _)) fun bound u _ hlimit => ?_
  rw [outcome_bind_ok _ _ (outcome_cursor (hlimit.at_iff.mpr hc)),
    outcome_bind_ok _ _ (outcome_emitAt rfl), outcome_bind_ok _ _ (outcome_nameValue _ _ _),
    outcome_bind_ok _ _ (outcome_nameValue _ _ _), outcome_bind_ok _ _ (outcome_createBlock _ _),
    outcome_bind_ok _ _ (outcome_emitAt rfl)]
  -- The sum and the test are new, so their names are no change to what was there.
  have htest := ((hlimit.emit hc (.fcmp .ole (.inst (t.body inside).insts.length) bound)
    .i1 none).rename hc (hbody.lengths_le hc).1 "nextvar").rename hc (hlimit.lengths_le hc).1
    "loopcond"
  refine .bind (((htest.addBlock hc "afterloop").emit hc _ _ _).addIncoming hc (Nat.le_refl _) _ _)
    fun _ _ _ hend => ⟨hend, fun after hok => ?_⟩
  cases hok
  exact (htest.lengths_le hc).2

theorem lowerLoop (hx : Adds x) (hy : Adds y) (hz : Adds z) : Adds (lowerLoop x y z) := by
  refine (hx.operand _).bind fun start s => ?_
  obtain ⟨c, hc⟩ | hs := s.at_or_empty
  · have hblock := (Advances.refl s).addBlock hc "loop"
    have hjump := hblock.emit hc (.br (s.body c).blocks.length) .void none
    -- The region has the blocks that were there, so the block after the loop is new to both.
    have hin : Ends s (s.nextBlock c ≤ ·) _ :=
      (ends_lowerRegion hjump rfl ((Advances.refl s).fresh hc) fun o ho hcode =>
        (ends_lowerLoopBody ho hy hz c.block start).imp fun after hafter => by
          refine Nat.le_trans (hjump.lengths_le hc).2 ?_
          rwa [Lowerer.body, hcode] at hafter).1
    rw [outcome_bind_ok s _ (outcome_cursor hc), outcome_bind_ok _ _ (outcome_createBlock _ _),
      outcome_bind_ok _ _ (outcome_emitAt rfl)]
    refine advances_bind hin.advances fun after t ht hadv => ?_
    have hafter : s.nextBlock c ≤ after := hin.value after (congrArg (·.1) ht)
    rw [outcome_bind_ok _ _ (outcome_emitAt rfl)]
    exact hadv.emitInner (fresh_of_block hc hafter) _ _ _
  · rw [outcome_bind_error s _ (outcome_cursor_empty hs)]
    exact .refl s

theorem lowerVar (hx : Adds x) (node : NodeId) (ty name : String) :
    Adds (lowerVar node ty name x) :=
  (emit fun _ _ => ⟨_, _, _, rfl⟩).bind fun _ => (addDecl _).bind fun _ =>
    (declare _ _ _).bind fun _ => (hx.lowerAssign _).bind fun _ => .pure _

theorem declareParams (i : Nat) (params : List Param) : Adds (declareParams i params) := by
  induction params generalizing i with
  | nil => exact .pure _
  | cons p ps ih => exact (addDecl _).bind fun _ => (declare _ _ _).bind fun _ => ih _

theorem functionBody (hx : Adds x) (params : List Param) (void : Prop) [Decidable void] :
    Adds (do
      Lowering.declareParams 0 params
      let _ ← x
      if void then
        let _ ← Lowering.emit (·.ret · none)) := by
  refine (declareParams 0 params).bind fun _ => hx.bind fun _ => ?_
  split
  · exact (emit fun _ _ => ⟨_, _, _, rfl⟩).bind fun _ => .pure _
  · exact .pure _

theorem lowerFn (hx : Adds x) (retTy : Option String) (name : String) (params : List Param)
    (returns : Bool) : Adds (lowerFn retTy name params returns x) := by
  intro s
  rw [outcome_openFunction]
  exact (ends_closingScope (advances_addFunction s name params (returnType retTy)) rfl
    (.inl (Nat.le_refl _)) ((hx.functionBody params _).ends _)).1.advances

end Adds

/-! ### The walk -/

mutual

theorem lowerExpr_adds : ∀ e : Expr, Adds (lowerExpr e)
  | .int .. | .double .. => .pure _
  | .string .. => (Adds.addGlobalString _ _).map _
  | .ident _ name => (Adds.lowerIdent name).map _
  | .call _ callee args => ((lowerArgs_adds args).lowerCall callee _).map _
  | .binary _ op left right => ((lowerExpr_adds left).lowerBinary (lowerExpr_adds right) op).map _
  | .assign _ target value => ((lowerExpr_adds value).lowerAssign target).map _
  | .ifElse _ cond thenBlock elseBlock =>
    ((lowerExpr_adds cond).lowerIf (lowerBlock_adds thenBlock) (lowerBlock_adds elseBlock)).map
      fun _ => none
  | .loop _ start limit body =>
    ((lowerExpr_adds start).lowerLoop (lowerBlock_adds body) (lowerExpr_adds limit)).map
      fun _ => none
  | .block _ body => lowerBlock_adds body

theorem lowerArgs_adds : ∀ args : List Expr, Adds (lowerArgs args)
  | [] => .pure _
  | arg :: args => ((lowerExpr_adds arg).lowerArg _).bind fun _ => (lowerArgs_adds args).map _

theorem lowerStmt_adds : ∀ stmt : Stmt, Adds (lowerStmt stmt)
  | .expr _ value => lowerExpr_adds value
  | .ret _ none => (Adds.emit fun _ _ => ⟨_, _, _, rfl⟩).map _
  | .ret _ (some value) =>
    (((lowerExpr_adds value).operand _).bind fun _ => .emit fun _ _ => ⟨_, _, _, rfl⟩).map _
  | .var _ _ name none => (Adds.lowerIdent name).map _
  | .var id ty name (some init) => ((lowerExpr_adds init).lowerVar id ty name).map _
  | .fn _ retTy name params body =>
    ((lowerBlock_adds body).lowerFn retTy name params _).map fun _ => none
  | .block _ body => lowerBlock_adds body

theorem lowerBlock_adds : ∀ block : Block, Adds (lowerBlock block)
  | .mk _ stmts => lowerStmts_adds stmts none

theorem lowerStmts_adds : ∀ (stmts : List Stmt) (last : Option Value), Adds (lowerStmts last stmts)
  | [], _ => .pure _
  | stmt :: stmts, _ =>
    (lowerStmt_adds stmt).recovering.bind fun value => lowerStmts_adds stmts value

end

/-! ### What stays in its place -/

/-- `t` is `s` with more at the end.  Strings, declarations, errors and functions come after those
that were there, and of these functions only the one at the cursor differs. -/
structure Lowerer.ExtendedAt (c : Cursor) (s t : Lowerer) : Prop where
  globals : s.code.globals <+: t.code.globals
  decls : s.decls <+: t.decls
  errors : s.errors <+: t.errors
  functions : s.code.functions.length ≤ t.code.functions.length
  others : ∀ f < s.code.functions.length, f ≠ c.func → t.code.functions[f]? = s.code.functions[f]?
  here : ∀ f, s.code.functions[c.func]? = some f →
    ∃ g, t.code.functions[c.func]? = some g ∧ f.ExtendedAt c.block g

theorem Advances.extendedAt {s t : Lowerer} {c : Cursor} (h : Advances s t) (hc : s.At c) :
    s.ExtendedAt c t := by
  refine ⟨h.code.globals, h.decls, h.errors, h.code.functions, fun f hf hne => ?_, fun f hf => ?_⟩
  · have hsame := h.code.others f hf fun d hd => by
      rwa [Lowerer.At.unique (Lowerer.mem_cursor?.mp hd) hc]
    rw [IR.Module.getElem?_functions hf,
      IR.Module.getElem?_functions (Nat.lt_of_lt_of_le hf h.code.functions), hsame]
  · obtain ⟨hlt, -⟩ := List.getElem?_eq_some_iff.mp hf
    rw [IR.Module.getElem?_functions hlt] at hf
    cases hf
    exact ⟨_, IR.Module.getElem?_functions (Nat.lt_of_lt_of_le hlt h.code.functions),
      (h.code.here c (Lowerer.mem_cursor?.mpr hc) hlt).extendedAt⟩

/-- **Lowering is local and only adds.**  Whatever is lowered in a state with a cursor, under either
policy and however it ends: all that the state has stays in its place, and what is new comes after
it. -/
theorem lowering_extends {s : Lowerer} {c : Cursor} (hc : s.At c) :
    (∀ e : Expr, s.ExtendedAt c (outcome (lowerExpr e) s).2) ∧
    (∀ stmt : Stmt, s.ExtendedAt c (outcome (lowerStmt stmt) s).2) ∧
    ∀ block : Block, s.ExtendedAt c (outcome (lowerBlock block) s).2 :=
  ⟨fun e => (lowerExpr_adds e s).extendedAt hc, fun stmt => (lowerStmt_adds stmt s).extendedAt hc,
    fun block => (lowerBlock_adds block s).extendedAt hc⟩

/-- A loop that declares a function and then has no bound. -/
def boundlessLoop : Expr :=
  .loop 0 (.double 1 .one) (.ident 2 "n") (.mk 3 [.fn 4 none "f" [] (.mk 5 [])])

theorem lowering_extends_boundlessLoop :
    (start {}).At entryCursor ∧
      (outcome (lowerExpr boundlessLoop) (start {})).1 = .error (.unresolvedIdentifier "n") ∧
      (start {}).ExtendedAt entryCursor (outcome (lowerExpr boundlessLoop) (start {})).2 :=
  ⟨start_at {}, by decide +kernel, (lowering_extends (start_at {})).1 boundlessLoop⟩

end TreeCompiler.Lowering
