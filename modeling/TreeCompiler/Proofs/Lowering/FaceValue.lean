/-
Declared types at face value.

Lowering checks no types.  It gives a variable a slot of the type that its declaration names, takes
what a function declares to return for what a call of it returns, and takes the type of its left
operand for that of a sum.  So the type of the value that a node is lowered to can be read off the
tree, without a look at the instructions (`Scene.read`).

Lowering and reading are followed side by side (`Follows`): where the one gives a value, the other
gives its type.  A value may be a slot, so its type is that of what is loaded from it
(`loadedType`).  Which nodes have no value at all is read off their form (`Silent`).
-/
import TreeCompiler.Proofs.Lowering.Abreast

namespace TreeCompiler.IR.Function

variable {f : Function}

/-- The type of a value once it is loaded: what a slot holds, and any other value as it is. -/
def loadedType (f : Function) (v : Value) : Ty := (f.slotType v).getD (f.valueType v)

/-- Only an instruction that makes a slot has another type once it is loaded. -/
theorem loadedType_inst {k : InstId} {i : Inst} (hi : f.insts[k]? = some i)
    (hop : ∀ ty, i.op ≠ .alloca ty) : f.loadedType (.inst k) = i.ty := by
  have hslot : f.slotType (.inst k) = none := by
    rw [Option.eq_none_iff_forall_ne_some]
    intro ty hty
    obtain ⟨_, i', hk, hi', hop'⟩ := slotType_eq_some_iff.mp hty
    cases hk
    cases hi.symm.trans hi'
    exact hop ty hop'
  rw [loadedType, hslot, Option.getD_none, valueType, hi]
  rfl

end TreeCompiler.IR.Function

namespace TreeCompiler.Lowering

open IR (FuncId BlockId InstId Ty Value Op)
open Program (Expr Stmt Block BinOp NodeId Param)

/-! ### Values and their types -/

/-- A value of the function that is being filled, which has this type once it is loaded. -/
def Typed (t : Lowerer) (v : Value) (ty : Ty) : Prop :=
  ∀ c, t.At c → (t.body c).Knows v ∧ (t.body c).loadedType v = ty

/-- A value of the function that is being filled, which has this type as it is. -/
def Held (t : Lowerer) (v : Value) (ty : Ty) : Prop :=
  ∀ c, t.At c → (t.body c).Knows v ∧ (t.body c).valueType v = ty

/-- A value where a type was read, and none where none was. -/
inductive TypedAs (t : Lowerer) : Option Value → Option Ty → Prop
  | none : TypedAs t none none
  | some {v : Value} {ty : Ty} (typed : Typed t v ty) : TypedAs t (some v) (some ty)

/-- Nothing is said of the results. -/
abbrev Whatever {α β : Type} : Lowerer → α → β → Prop := fun _ _ _ => True

section Steps

variable {α : Type} {s t : Lowerer} {c d : Cursor} {v w : Value} {r : Option Value} {ty : Ty}

/-- What a step adds to the function at its cursor. -/
theorem Adds.growsAt {x : LowerM α} {result : Except LowerError α} (hx : Adds x)
    (hf : c.func < s.code.functions.length) (hc : s.At c) (h : outcome x s = (result, t)) :
    (s.body c).GrowsAt c.block (t.body c) := by
  have ha := hx s
  rw [h] at ha
  exact ha.code.here c hc.cursor? hf

theorem Adds.at_iff {x : LowerM α} {result : Except LowerError α} (hx : Adds x)
    (h : outcome x s = (result, t)) : t.At c ↔ s.At c := by
  have ha := hx s
  rw [h] at ha
  exact ha.at_iff

/-- The result of an instruction that makes no slot has the type that it was added with. -/
theorem typed_emit (hs : s.Consistent) (hd : s.At d) {op : Op} (hop : ∀ ty, op ≠ .alloca ty)
    (ty : Ty) : Typed (s.emit d op ty none) (.inst (s.body d).insts.length) ty := by
  intro c hc
  obtain rfl : c = d := Lowerer.At.unique (s := s) hc hd
  have hi := getElem?_emit (hs.func_lt hd) op ty none
  exact ⟨(List.getElem?_eq_some_iff.mp hi).1, IR.Function.loadedType_inst hi hop⟩

/-- Loading a value gives one of the type that it has once it is loaded. -/
theorem held_materialize (hs : s.Consistent) (hv : Typed s v ty)
    (h : outcome (materialize v) s = (.ok w, t)) : Held t w ty := by
  obtain ⟨d, hd, ⟨hslot, rfl, rfl⟩ | ⟨slotTy, hslot, rfl, rfl⟩⟩ := materialize_succeeds h
  · intro c hc
    obtain ⟨hknown, hty⟩ := hv c hc
    obtain rfl := hc.unique hd
    rw [IR.Function.loadedType, hslot] at hty
    exact ⟨hknown, hty⟩
  · intro c hc
    obtain rfl : c = d := Lowerer.At.unique (s := s) hc hd
    obtain ⟨-, hty⟩ := hv c hd
    have hi := getElem?_emit (hs.func_lt hd) (.load slotTy v) slotTy none
    rw [IR.Function.loadedType, hslot] at hty
    refine ⟨(List.getElem?_eq_some_iff.mp hi).1, ?_⟩
    rw [IR.Function.valueType, hi]
    exact hty

theorem exists_materialize (hc : s.At c) (v : Value) :
    ∃ w t, outcome (materialize v) s = (.ok w, t) := by
  rw [outcome_materialize_elim hc]
  cases (s.body c).slotType v with
  | none => exact ⟨v, s, rfl⟩
  | some ty => exact ⟨_, _, outcome_emitAt rfl⟩

end Steps

/-- A name has the type of its declaration, since its binding agrees with it. -/
theorem Plays.typed {s : Lowerer} {c : Cursor} {name : String} {b : Binding} {role : Role}
    (h : Plays s.decls s.options.inductionName (s.body c) name b role) (hc : s.At c) :
    Typed s b.value (s.meaning b).ty := by
  intro d hd
  obtain rfl := hc.unique hd
  cases h with
  | slot alloca decl =>
    refine ⟨IR.Function.knows_of_slotType alloca, ?_⟩
    simp [Lowerer.meaning, decl, Decl.meaning, Meaning.ty, IR.Function.loadedType, alloca]
  | parameter param decl =>
    refine ⟨trivial, ?_⟩
    simp [Lowerer.meaning, decl, Decl.meaning, Meaning.ty, IR.Function.loadedType,
      IR.Function.slotType, IR.Function.valueType, param]
  | @counter k i inst phi float named =>
    refine ⟨(List.getElem?_eq_some_iff.mp inst).1, ?_⟩
    have hop : ∀ ty, i.op ≠ .alloca ty := by
      intro ty hop
      simp [hop, Op.isPhi] at phi
    rw [IR.Function.loadedType_inst inst hop, float]
    rfl

/-- The slot that a meaning asks for. -/
def Meaning.slot : Meaning → Option Ty
  | .variable ty => some ty
  | .parameter _ | .counter => none

/-- Only what was declared as a variable stands for a slot. -/
theorem Plays.slotType_eq {s : Lowerer} {f : IR.Function} {name : String} {b : Binding}
    {role : Role} (h : Plays s.decls s.options.inductionName f name b role)
    (hb : s.scopes.lookup name = some b) :
    f.slotType b.value = (s.meaning b).slot := by
  obtain ⟨hrole, -⟩ | ⟨hslot, hrole⟩ := h.slotType_or_refusal hb
  · cases h with
    | slot alloca decl => simp [Lowerer.meaning, decl, Decl.meaning, Meaning.slot, alloca]
    | parameter | counter => cases hrole
  · rw [hslot]
    cases h with
    | slot => cases hrole
    | parameter param decl => simp [Lowerer.meaning, decl, Decl.meaning, Meaning.slot]
    | counter => rfl

/-! ### Constructs -/

section Constructs

variable {options : Options} {x y z : LowerM (Option Value)} {j : Journey x} {k : Journey y}
  {l : Journey z} {u v w : ReadM (Option Ty)} {seen : List Arrival} {r : Reader} {s : Lowerer}
  {c : Cursor}

theorem follows_required (hj : Follows options j u TypedAs) (context : String) :
    Follows options (j.required context) (needed u) Typed := by
  intro seen r s h
  refine (hj seen r s h).bind fun a b t r' _ hab hrt => ?_
  cases hab with
  | none => exact .throw hrt fun _ h => by cases h
  | some typed => exact .pure hrt typed

theorem follows_operand (hj : Follows options j u TypedAs) (context : String) :
    Follows options (j.operand context) (needed u) Held := by
  intro seen r s h
  refine (follows_required hj context seen r s h).andThen fun value ty t r' htyped hrt => ?_
  exact .neutral (unmarked_materialize value) (.materialize value) hrt fun _ _ hmat _ _ =>
    held_materialize hrt.sees.consistent htyped hmat

/-- A name is bound in the state exactly if it is declared on the tree, and it has the type that was
declared. -/
theorem Sees.lookup_cases {scene : Scene} (h : Sees options scene s) (name : String) :
    (s.scopes.lookup name = none ∧ scene.names.lookup name = none) ∨
      ∃ b, s.scopes.lookup name = some b ∧ scene.names.lookup name = some (s.meaning b) ∧
        Typed s b.value (s.meaning b).ty := by
  have hname := h.names name
  rcases hb : s.scopes.lookup name with _ | b <;> rw [hb] at hname
  · exact .inl ⟨rfl, hname⟩
  · refine .inr ⟨b, rfl, hname, fun c hc => ?_⟩
    obtain ⟨role, hplays⟩ := h.consistent.role hc hb
    exact hplays.typed hc c hc

theorem follows_ident (name : String) :
    Follows options (.lowerIdent name) (readName name) Typed := by
  intro seen r s h
  refine .step_ok rfl ?_
  generalize hres : s.scopes.resolve name = value
  rw [ScopeStack.resolve] at hres
  obtain ⟨hnone, hread⟩ | ⟨b, hb, hread, htyped⟩ := h.sees.lookup_cases name
  · rw [hnone] at hres
    cases hres
    rw [readName, result_bind_none (by rw [result_meaningOf, hread])]
    exact .throw h fun _ h => by cases h
  · rw [hb] at hres
    cases hres
    rw [readName, result_bind_some (by rw [result_meaningOf, hread])]
    exact .pure h htyped

/-- A sum has the type of its left operand, however the right one is lowered; a comparison is true
or false. -/
theorem follows_binary (hj : Follows options j u TypedAs) (hk : Follows options k v TypedAs)
    (hadds : Adds y) (op : BinOp) :
    Follows options (j.lowerBinary k op) (readBinary op u v) Typed := by
  intro seen r s h
  refine (follows_operand hj _ seen r s h).bind fun lhs ty t r' _ hlhs hrt => ?_
  refine (follows_operand hk _ _ r' t hrt).bind fun rhs ty' t' r'' hright _ hrt' => ?_
  have ht := hrt.sees.consistent
  have hkept : ∀ c, t'.At c → (t'.body c).valueType lhs = ty := by
    intro c hc
    have hc' := ((hadds.operand _).at_iff hright).mp hc
    have hgrows := (hadds.operand _).growsAt (ht.func_lt hc') hc' hright
    obtain ⟨hknown, hty⟩ := hlhs c hc'
    rw [(IR.Function.Keeps.ofGrows hgrows).valueType hknown, hty]
  cases op with
  | add | sub | mul | div =>
    refine .neutral (unmarked_emit _) (.emit fun _ _ => ⟨_, _, _, rfl⟩) hrt'
      fun a t'' hemit _ _ => ?_
    obtain ⟨c, hc, rfl, rfl⟩ := emit_succeeds (·.valueType lhs) (fun _ _ => rfl) hemit
    rw [← hkept c hc]
    exact typed_emit hrt'.sees.consistent hc (fun _ heq => by cases heq) _
  | lt | gt =>
    refine .neutral (unmarked_emit _) (.emit fun _ _ => ⟨_, _, _, rfl⟩) hrt'
      fun a t'' hemit _ _ => ?_
    obtain ⟨c, hc, rfl, rfl⟩ := emit_succeeds (fun _ => .i1) (fun _ _ => rfl) hemit
    exact typed_emit hrt'.sees.consistent hc (fun _ heq => by cases heq) _
  | le | ge | eq | ne => exact .throw hrt' fun _ h => by cases h

theorem follows_assign (hj : Follows options j u TypedAs) (target : String) :
    Follows options (j.lowerAssign target) (readAssign target u) Typed := by
  intro seen r s h
  refine .step_ok rfl ?_
  generalize hres : s.scopes.resolve target = value
  rw [ScopeStack.resolve] at hres
  obtain ⟨hnone, hread⟩ | ⟨b, hb, hread, -⟩ := h.sees.lookup_cases target
  · rw [hnone] at hres
    cases hres
    rw [readAssign, result_bind_none (by rw [result_meaningOf, hread])]
    exact .throw h fun _ h => by cases h
  · rw [hb] at hres
    cases hres
    rw [readAssign, result_bind_some (by rw [result_meaningOf, hread])]
    refine .neutral_bind (.step _) .cursor h fun c t hcursor _ _ => ?_
    obtain ⟨hc, rfl⟩ := cursor_succeeds hcursor
    refine .own_ok (unmarked_slotType c b.value) (outcome_slotType c b.value) ?_
    obtain ⟨role, hplays⟩ := h.sees.consistent.role hc hb
    have hslot := hplays.slotType_eq hb
    generalize hty : (t.body c).slotType b.value = ty at hslot ⊢
    generalize t.meaning b = meaning at hslot ⊢
    cases meaning with
    | «variable» declared =>
      cases hslot
      refine (follows_operand hj _ seen r t h).bind fun value _ t' r' _ _ hrt => ?_
      refine .neutral (unmarked_emit _) (.emit fun _ _ => ⟨_, _, _, rfl⟩) hrt
        fun a t'' hemit _ _ => ?_
      obtain ⟨c', hc', rfl, rfl⟩ := emit_succeeds (fun _ => .void) (fun _ _ => rfl) hemit
      exact typed_emit hrt.sees.consistent hc' (fun _ heq => by cases heq) _
    | parameter | counter =>
      cases hslot
      exact .step_ok rfl (.throw h (h.sees.consistent.justified_notAssignable hc hb hty))

/-- Any type will do for an argument, and the value that is passed does not matter. -/
theorem follows_arg (hj : Follows options j u TypedAs) (key : Option String) :
    Follows options (j.lowerArg key) (needed u) Whatever := by
  intro seen r s h
  refine (follows_required hj _ seen r s h).andThen fun value ty t r' _ hrt => ?_
  cases key with
  | some name =>
    refine .step_ok rfl (.either (fun _ => ?_) fun _ => .pure hrt trivial)
    exact .neutral (unmarked_materialize value) (.materialize value) hrt fun _ _ _ _ _ => trivial
  | none => exact .pure hrt trivial

/-- A call has the type that the function was declared to return. -/
theorem follows_call {args : LowerM (List Value)} {i : Journey args} {y : ReadM Unit}
    (hi : Follows options i y Whatever) (callee : String) (count : Nat) :
    Follows options (i.lowerCall callee count) (readCall callee count y) Typed := by
  intro seen r s h
  refine .step_ok rfl ?_
  have hread := h.sees.lookup_callee callee
  generalize s.code.getFunction? callee = func at hread ⊢
  cases func with
  | none =>
    rw [readCall, result_bind_none (by rw [result_calleeOf, hread]; rfl)]
    exact .throw h fun _ h => by cases h
  | some func =>
    rw [readCall, result_bind_some (by rw [result_calleeOf, hread]; rfl)]
    refine .step_ok rfl (.either (fun haccepts => ?_) fun hrefuses => ?_)
    · rw [if_pos haccepts]
      refine (hi seen r s h).bind fun values _ t r' _ _ hrt => ?_
      refine .neutral (unmarked_emit _) (.emit fun _ _ => ⟨_, _, _, rfl⟩) hrt
        fun a t' hemit _ _ => ?_
      obtain ⟨c, hc, rfl, rfl⟩ := emit_succeeds _ (fun _ _ => rfl) hemit
      exact typed_emit hrt.sees.consistent hc (fun _ heq => by cases heq) _
    · rw [if_neg hrefuses]
      exact .throw_bind h fun _ h => by cases h

/-- The slot of a variable is one of the type that was declared, whatever comes after it. -/
theorem typed_variable {α : Type} {node : NodeId} {ty : Ty} {name : String} {x : LowerM α}
    {result : Except LowerError α} {t : Lowerer} (hs : s.Consistent) (hc : s.At c) (hadds : Adds x)
    (h : outcome x (s.declareVariable c node ty name) = (result, t)) :
    Typed t (.inst (s.body c).insts.length) ty := by
  have hadvances := advances_declareVariable hc node ty name
  have hslot : ((s.declareVariable c node ty name).body c).slotType
      (.inst (s.body c).insts.length) = some ty := by
    rw [Lowerer.declareVariable, Lowerer.body, bindName_code]
    exact IR.Function.slotType_eq_some_iff.mpr
      ⟨_, _, rfl, getElem?_emit (hs.func_lt hc) _ _ _, rfl⟩
  have hopen := hadvances.at_iff.mpr hc
  have hgrows := hadds.growsAt
    (Nat.lt_of_lt_of_le (hs.func_lt hc) hadvances.code.functions) hopen h
  intro d hd
  obtain rfl := ((hadds.at_iff h).mp hd).unique hopen
  have hkept : (t.body d).slotType (.inst (s.body d).insts.length) = some ty := by
    rw [hgrows.slotType (IR.Function.knows_of_slotType hslot), hslot]
  exact ⟨IR.Function.knows_of_slotType hkept, by rw [IR.Function.loadedType, hkept]; rfl⟩

/-! ### Regions -/

/-- Both arms are regions, and what they declare is not seen after them. -/
theorem follows_if (hj : Follows options j u TypedAs) (hk : Follows options k v TypedAs)
    (haddsk : Adds y) (hl : Follows options l w TypedAs) (haddsl : Adds z) :
    Follows options (j.lowerIf k l) (readIf u v w) Whatever := by
  intro seen r s h
  refine (follows_operand hj _ seen r s h).bind fun cond _ t r' _ _ hrt => ?_
  refine .neutral_bind (.step _) .cursor hrt fun c t₁ hcursor _ _ => ?_
  obtain ⟨hc, rfl⟩ := cursor_succeeds hcursor
  refine .neutral_bind (.step _) (.createBlock _ _) hrt fun thenBlock t₂ _ hframe₂ hrt₂ => ?_
  refine .neutral_bind (.step _) (.createBlock _ _) hrt₂ fun elseBlock t₃ _ hframe₃ hrt₃ => ?_
  refine .neutral_bind (.step _) (.emitAt (fun _ _ => ⟨_, _, _, rfl⟩) c) hrt₃
    fun _ t₄ _ hframe₄ hrt₄ => ?_
  have hscopes : t₄.scopes = t₁.scopes := (hframe₂.trans (hframe₃.trans hframe₄)).scopes
  have hc₄ : t₄.At c := hc.of_scopes hscopes
  refine (Concurs.region hrt₄ hc₄ thenBlock (haddsk _)
    (hk _ _ _ ⟨hrt₄.sees.enter hc₄ thenBlock, hrt₄.readings⟩)).bind fun _ _ t₅ r₅ _ hsame hrt₅ => ?_
  have hc₅ : t₅.At c := hc₄.of_scopes hsame
  exact (Concurs.region hrt₅ hc₅ elseBlock (haddsl _)
    (hl _ _ _ ⟨hrt₅.sees.enter hc₅ elseBlock, hrt₅.readings⟩)).bind
      fun _ _ _ _ _ _ hrt₆ => .pure hrt₆ trivial

/-- The counter is in scope in the body of a loop and in its limit. -/
theorem follows_loopBody (hj : Follows options j u TypedAs) (hk : Follows options k v TypedAs)
    (h : Abreast options seen r s) {before : Cursor} {b : BlockId} (start : Value)
    (hc : s.At { before with block := b }) :
    Concurs options Whatever
      (seen ++ (j.lowerLoopBody k before { before with block := b } start).arrivals s)
      (outcome (lowerLoopBody before { before with block := b } start x y) s)
      (ReadM.result (do
        changeScene (·.bind options.inductionName .counter)
        let _ ← u
        let _ ← needed v
        return) r) := by
  have hs := h.sees.consistent
  refine .step_ok rfl (.step_ok (outcome_emitAt rfl) ?_)
  refine .step_ok (outcome_firstIncoming (hs.func_lt hc) _ start before.block) ?_
  refine .step_ok (outcome_declare (by exact hc.ne_nil) _ _ _) ?_
  have hinside : Abreast options seen
      { r with scene := r.scene.bind options.inductionName .counter }
      ((s.emit { before with block := b } (.phi [(start, before.block)]) .f64
        (some s.options.inductionName)).bindName s.options.inductionName
          (.inst (s.body { before with block := b }).insts.length) none) := by
    have hname : options.inductionName = s.options.inductionName := by rw [h.sees.options]
    rw [hname]
    exact ⟨(h.sees.emit _ _ _ _).bindName (by exact hc.ne_nil) (hs.bindCounter hc _)
      rfl, h.readings⟩
  rw [result_changeScene_bind]
  refine (hj _ _ _ hinside).bind fun _ _ t r₁ _ _ h₁ => ?_
  refine .neutral_bind (unmarked_emit _) (.emit fun _ _ => ⟨_, _, _, rfl⟩) h₁
    fun next t₂ _ _ h₂ => ?_
  refine (follows_operand hk _ _ _ _ h₂).bind fun bound _ t₃ r₃ _ _ h₃ => ?_
  refine .neutral ?_ ?_ h₃ fun _ _ _ _ _ => trivial
  · exact .bind (.step _) fun _ => .bind (.step _) fun _ => .bind (.step _) fun _ =>
      .bind (.step _) fun _ => .bind (.step _) fun _ => .bind (.step _) fun _ =>
      .bind (.step _) fun _ => .step _
  · exact .bind .cursor fun closing => .bind (.emitAt (fun _ _ => ⟨_, _, _, rfl⟩) _) fun test =>
      .bind (.nameValue _ _ _) fun _ => .bind (.nameValue _ _ _) fun _ =>
      .bind (.createBlock _ _) fun after => .bind (.emitAt (fun _ _ => ⟨_, _, _, rfl⟩) _) fun _ =>
      .bind (.addIncoming _ _ _ _) fun _ => .pure _

theorem follows_loop (hj : Follows options j u TypedAs) (hk : Follows options k v TypedAs)
    (haddsk : Adds y) (hl : Follows options l w TypedAs) (haddsl : Adds z) :
    Follows options (j.lowerLoop k l) (readLoop options.inductionName u v w) Whatever := by
  intro seen r s h
  refine (follows_operand hj _ seen r s h).bind fun start _ t r' _ _ hrt => ?_
  refine .neutral_bind (.step _) .cursor hrt fun c t₁ hcursor _ _ => ?_
  obtain ⟨hc, rfl⟩ := cursor_succeeds hcursor
  refine .neutral_bind (.step _) (.createBlock _ _) hrt fun b t₂ _ hframe₂ hrt₂ => ?_
  refine .neutral_bind (.step _) (.emitAt (fun _ _ => ⟨_, _, _, rfl⟩) c) hrt₂
    fun _ t₃ _ hframe₃ hrt₃ => ?_
  have hc₃ : t₃.At c := hc.of_scopes (hframe₂.trans hframe₃).scopes
  have hinside : (t₃.enter { c with block := b }).At { c with block := b } := by
    obtain ⟨scope, rest, hscopes, -⟩ := hc₃.scopes
    simp only [Lowerer.enter, hscopes]
    rfl
  have hadvances := (Adds.ends_lowerLoopBody hinside haddsk haddsl c.block start).advances
  refine (Concurs.region hrt₃ hc₃ b hadvances (follows_loopBody hk hl
    ⟨hrt₃.sees.enter hc₃ b, hrt₃.readings⟩ start hinside)).andThen fun after _ t₄ r₄ _ hrt₄ => ?_
  exact .neutral (.bind (.step _) fun _ => .step _)
    (.bind (.emitAt (fun _ _ => ⟨_, _, _, rfl⟩) _) fun _ => .pure _) hrt₄ fun _ _ _ _ _ => trivial

theorem follows_return (hj : Follows options j u TypedAs) :
    Follows options j.lowerReturn (readReturn u) Typed := by
  intro seen r s h
  refine (follows_operand hj _ seen r s h).bind fun value _ t r' _ _ hrt => ?_
  refine .neutral (unmarked_emit _) (.emit fun _ _ => ⟨_, _, _, rfl⟩) hrt fun a t' hemit _ _ => ?_
  obtain ⟨c, hc, rfl, rfl⟩ := emit_succeeds (fun _ => .void) (fun _ _ => rfl) hemit
  exact typed_emit hrt.sees.consistent hc (fun _ heq => by cases heq) _

theorem follows_return_none :
    Follows options (.map (.emit (fun _ _ => ⟨_, _, _, rfl⟩) : Journey (emit (·.ret · none))) some)
      (pure (some .void)) TypedAs := by
  intro seen r s h
  refine .neutral (.bind (unmarked_emit _) fun _ => .step _)
    (.bind (.emit fun _ _ => ⟨_, _, _, rfl⟩) fun _ => .pure _) h fun _ _ hok _ _ => ?_
  obtain ⟨v, t, hemit, hsome⟩ := (outcome_bind_eq_ok s).mp hok
  cases hsome
  obtain ⟨c, hc, rfl, rfl⟩ := emit_succeeds (fun _ => .void) (fun _ _ => rfl) hemit
  exact .some (typed_emit h.sees.consistent hc (fun _ heq => by cases heq) _)

/-- A declaration with a value stands for its slot, whatever is stored there. -/
theorem follows_var (hj : Follows options j u TypedAs) (hadds : Adds x) (node : NodeId)
    (ty name : String) : Follows options (j.lowerVar node ty name) (readVar ty name u) Typed := by
  intro seen r s h
  have hs := h.sees.consistent
  refine .neutral_bind (unmarked_emit _) (.emit fun _ _ => ⟨_, _, _, rfl⟩) h
    fun slot t hemit _ _ => ?_
  obtain ⟨c, t', hcursor, hpush⟩ := (outcome_bind_eq_ok s).mp hemit
  obtain ⟨hc, rfl⟩ := cursor_succeeds hcursor
  rw [outcome_emitAt rfl] at hpush
  cases hpush
  refine .step_ok (outcome_addDecl _) (.step_ok (outcome_declare (by exact hc.ne_nil) _ _ _) ?_)
  have hdeclared : Abreast options seen
      { r with scene := r.scene.bind name (.variable (typeOf ty)) }
      (t'.declareVariable c node (typeOf ty) name) := by
    refine ⟨((h.sees.emit _ _ _ _).record _).bindName (by exact hc.ne_nil)
      (hs.declareVariable hc node (typeOf ty) name) ?_, h.readings⟩
    exact meaning_record _ _ _
  rw [readVar, result_changeScene_bind]
  refine (follows_assign hj name seen _ _ hdeclared).bind fun _ _ t r' hassign _ hrt => ?_
  exact .pure hrt (typed_variable hs hc (hadds.lowerAssign name) hassign)

/-- The body of a function that has just been added. -/
theorem follows_functionBody (hj : Follows options j u TypedAs) (hadds : Adds x)
    (params : List Param) {void : Prop} [Decidable void] (h : Abreast options seen r s)
    (hinside : Sees options (r.scene.inFunction params) ((s.enterEmpty c).bindParams 0 params)) :
    Concurs options Whatever
      (seen ++ (Journey.bind (.step (.pushScope c)) fun _ => Journey.closingScope <|
        .bind (Journey.declareParams 0 params) fun _ => .bind j fun _ =>
          Journey.either (c := void)
            (.bind (.emit (fun _ _ => ⟨_, _, _, rfl⟩) : Journey (emit (·.ret · none))) fun _ =>
              .step (.pure ()))
            (.step (.pure ()))).arrivals s)
      (outcome (do
        pushScope c
        closingScope do
          declareParams 0 params
          let _ ← x
          if void then
            let _ ← emit (·.ret · none)) s)
      ((enclosed do
        changeScene (·.inFunction params)
        let _ ← u
        return).result r) := by
  have hne : (s.enterEmpty c).scopes.scopes ≠ [] := List.cons_ne_nil _ _
  refine .step_ok rfl ((Concurs.close (V := Whatever) h hne rfl rfl
    (hadds.functionBody params void _) ?_).imp fun _ _ _ _ => trivial)
  refine .own_ok (unmarked_declareParams params 0) (outcome_declareParams hne 0 params) ?_
  have hopen : Abreast options seen { r with scene := r.scene.inFunction params }
      ((s.enterEmpty c).bindParams 0 params) := ⟨hinside, h.readings⟩
  rw [result_changeScene_bind]
  refine (hj _ _ _ hopen).bind fun _ _ t r' _ _ hrt => ?_
  refine .either (fun _ => ?_) fun _ => ?_
  · exact .neutral (.bind (unmarked_emit _) fun _ => .step _)
      (.bind (.emit fun _ _ => ⟨_, _, _, rfl⟩) fun _ => .pure _) hrt fun _ _ _ _ _ => trivial
  · exact .pure hrt trivial

theorem follows_fn (hj : Follows options j u TypedAs) (hadds : Adds x) (retTy : Option String)
    (name : String) (params : List Param) (returns : Bool) :
    Follows options (j.lowerFn retTy name params returns) (readFn retTy name params u)
      Whatever := by
  intro seen r s h
  have hadded : Abreast options seen
      { r with scene := r.scene.addFunction name (declaredSignature retTy params) }
      (s.addFunction name params (returnType retTy)) :=
    ⟨h.sees.addFunction retTy name params, h.readings⟩
  have hbody := h.sees.openFunction retTy name params
  rw [readFn, result_changeScene_bind]
  refine .step_ok rfl (.step_ok rfl
    (.step_ok (outcome_createEntry s name params (returnType retTy)) ?_))
  exact follows_functionBody hj hadds params hadded hbody

/-- A refused statement is left out or ends both. -/
theorem follows_recovering (hj : Follows options j u TypedAs) :
    Follows options j.recovering (leavingOut options.policy u) TypedAs := by
  intro seen r s h
  have hboth := hj seen r s h
  rw [arrivals_recovering]
  rcases hx : outcome x s with ⟨e | a, t⟩ <;> rcases hu : u.result r with ⟨result, r'⟩ <;>
    rw [hx, hu] at hboth
  · rw [outcome_recovering_error hx]
    cases hboth with
    | refused justified abreast =>
      have hpolicy : t.options.policy = options.policy := by rw [abreast.sees.options]
      rw [result_leavingOut_none _ hu, hpolicy]
      by_cases hinternal : e.isInternal = true
      · rw [if_pos (by simp [hinternal])]
        exact .fault hinternal
      · by_cases hfast : options.policy = .failFast
        · rw [if_pos (by simp [hfast]), if_pos hfast]
          exact .refused justified abreast
        · rw [if_neg (by simp [hinternal, hfast]), if_neg hfast]
          exact .accepted .none ⟨abreast.sees.recordError justified, abreast.readings⟩
    | fault internal =>
      rw [if_pos (by simp [internal])]
      exact .fault internal
  · cases hboth with
    | accepted value abreast =>
      rw [outcome_recovering_ok hx, result_leavingOut_some _ hu]
      exact .accepted value abreast

/-- A step that has a value. -/
theorem Follows.some {x : LowerM Value} {i : Journey x} {y : ReadM Ty}
    (h : Follows options i y Typed) :
    Follows options (i.map some) (do return some (← y)) TypedAs := by
  intro seen r s hrs
  exact (h seen r s hrs).bind fun _ _ _ _ _ htyped hrt => .pure hrt (.some htyped)

/-- A step that has none. -/
theorem Follows.none {x : LowerM Unit} {i : Journey x} {y : ReadM Unit}
    (h : Follows options i y Whatever) :
    Follows options (i.map fun _ => (none : Option Value)) (do y; return (none : Option Ty))
      TypedAs := by
  intro seen r s hrs
  exact (h seen r s hrs).bind fun _ _ _ _ _ _ hrt => .pure hrt .none

theorem follows_literal {value : Value} {ty : Ty} {hx : Elementary (pure (some value) : LowerM _)}
    (h : ∀ s, Typed s value ty) : Follows options (.step hx) (pure (some ty)) TypedAs :=
  fun _ _ s hrs => .pure hrs (.some (h s))

/-- A text gets a name of the module. -/
theorem follows_text (text : String) :
    Follows options (.map (.step (.addGlobalString "str" text)) some)
      (do changeScene (·.request "str"); return some .str) TypedAs := by
  intro seen r s h
  have hs := h.sees.consistent
  have hnamed : Sees options (r.scene.request "str")
      { s with code := (s.code.addGlobalString "str" text).2 } := by
    refine h.sees.grow (maintains_addGlobalString "str" text s hs).after rfl (fun _ => rfl)
      (List.prefix_refl _) ?_ rfl
    have hsupply : s.code.names = r.scene.supply := congrArg IR.Directory.names h.sees.functions
    have hfunctions : s.code.directory.functions = r.scene.functions := by rw [h.sees.functions]
    rw [Scene.request, ← hsupply, ← hfunctions]
    rfl
  rw [result_changeScene_bind]
  exact .step_ok rfl (.pure ⟨hnamed, h.readings⟩ (.some fun _ _ => ⟨trivial, rfl⟩))

end Constructs

/-! ### The walk -/

mutual

theorem exprJourney_follows (options : Options) :
    ∀ e : Expr, Follows options (exprJourney e) (readExpr options e) TypedAs
  | .int .. | .double .. => .node (follows_literal fun _ _ _ => ⟨trivial, rfl⟩)
  | .string .. => .node (follows_text _)
  | .ident _ name => .node (follows_ident name).some
  | .call _ callee args => .node (follows_call (argsJourney_follows options args) callee _).some
  | .binary _ op left right =>
    .node (follows_binary (exprJourney_follows options left) (exprJourney_follows options right)
      (lowerExpr_adds right) op).some
  | .assign _ target value => .node (follows_assign (exprJourney_follows options value) target).some
  | .ifElse _ cond thenBlock elseBlock =>
    .node (follows_if (exprJourney_follows options cond) (blockJourney_follows options thenBlock)
      (lowerBlock_adds thenBlock) (blockJourney_follows options elseBlock)
      (lowerBlock_adds elseBlock)).none
  | .loop _ start limit body =>
    .node (follows_loop (exprJourney_follows options start) (blockJourney_follows options body)
      (lowerBlock_adds body) (exprJourney_follows options limit) (lowerExpr_adds limit)).none
  | .block _ body => .node (blockJourney_follows options body)

theorem argsJourney_follows (options : Options) :
    ∀ args : List Expr, Follows options (argsJourney args) (readArgs options args) Whatever
  | [] => fun _ _ _ h => .pure h trivial
  | arg :: args => fun seen r s h => by
    refine (follows_arg (exprJourney_follows options arg) _ seen r s h).bind
      fun _ _ t r' _ _ hrt => ?_
    exact (argsJourney_follows options args _ r' t hrt).andThen fun _ _ _ _ _ hrt' =>
      .pure hrt' trivial

theorem stmtJourney_follows (options : Options) :
    ∀ stmt : Stmt, Follows options (stmtJourney stmt) (readStmt options stmt) TypedAs
  | .expr _ value => .node (exprJourney_follows options value)
  | .ret _ none => .node follows_return_none
  | .ret _ (some value) => .node (follows_return (exprJourney_follows options value)).some
  | .var _ _ name none => .node (follows_ident name).some
  | .var id ty name (some init) =>
    .node (follows_var (exprJourney_follows options init) (lowerExpr_adds init) id ty name).some
  | .fn _ retTy name params body =>
    .node (follows_fn (blockJourney_follows options body) (lowerBlock_adds body) retTy name params
      _).none
  | .block _ body => .node (blockJourney_follows options body)

theorem blockJourney_follows (options : Options) :
    ∀ block : Block, Follows options (blockJourney block) (readBlock options block) TypedAs
  | .mk _ stmts => .node fun _ _ _ h => stmtsJourney_follows options stmts h .none

theorem stmtsJourney_follows (options : Options) :
    ∀ (stmts : List Stmt) {last : Option Value} {ty : Option Ty} {seen : List Arrival} {r : Reader}
      {s : Lowerer}, Abreast options seen r s → TypedAs s last ty →
      Concurs options TypedAs (seen ++ (stmtsJourney stmts last).arrivals s)
        (outcome (lowerStmts last stmts) s) ((readStmts options stmts ty).result r)
  | [], _, _, _, _, _, h, hlast => .pure h hlast
  | stmt :: stmts, _, _, seen, r, s, h, _ =>
    (follows_recovering (stmtJourney_follows options stmt) seen r s h).bind
      fun _ _ _ _ _ htyped hrt => stmtsJourney_follows options stmts hrt htyped

end

/-! ### No value -/

section Silence

variable {s t : Lowerer} {v : Value} {r : Option Value}

theorem outcome_some_eq_ok {x : LowerM Value} :
    outcome (do return some (← x)) s = (.ok r, t) ↔
      ∃ v, r = some v ∧ outcome x s = (.ok v, t) := by
  rw [outcome_bind_eq_ok]
  constructor
  · rintro ⟨v, u, hx, hr⟩
    cases hr
    exact ⟨v, rfl, hx⟩
  · rintro ⟨v, rfl, hx⟩
    exact ⟨v, t, hx, rfl⟩

theorem eq_none_of_outcome {x : LowerM Unit} (h : outcome (do x; return none) s = (.ok r, t)) :
    r = none := by
  obtain ⟨_, u, -, hr⟩ := (outcome_bind_eq_ok s).mp h
  cases hr
  rfl

/-- A statement with a value was not left out. -/
theorem recovering_some {x : LowerM (Option Value)}
    (h : outcome (recovering x) s = (.ok (some v), t)) : outcome x s = (.ok (some v), t) := by
  rcases hx : outcome x s with ⟨e | a, u⟩
  · rw [outcome_recovering_error hx] at h
    split at h <;> cases h
  · rw [outcome_recovering_ok hx] at h
    exact h

theorem lowerStmts_append (front back : List Stmt) (last : Option Value) :
    lowerStmts last (front ++ back) = (do lowerStmts (← lowerStmts last front) back) := by
  induction front generalizing last with
  | nil => simp [lowerStmts]
  | cons stmt front ih => simp [lowerStmts, ih]

/-- Statements without a value: there are none, or the last of them fails or has no value itself. -/
def Lowerer.EndsSilently (s : Lowerer) (stmts : List Stmt) : Prop :=
  stmts = [] ∨ ∃ front last r u, stmts = front ++ [last] ∧
    outcome (lowerStmts none front) s = (.ok r, u) ∧
    ∀ v, (outcome (lowerStmt last) u).1 ≠ .ok (some v)

/-- Expressions without a value. -/
def Lowerer.SilentExpr (s : Lowerer) : Expr → Prop
  | .ifElse .. | .loop .. => True
  | .block _ body => s.EndsSilently body.stmts
  | _ => False

/-- Statements without a value. -/
def Lowerer.SilentStmt (s : Lowerer) : Stmt → Prop
  | .expr _ value => s.SilentExpr value
  | .fn .. => True
  | .block _ body => s.EndsSilently body.stmts
  | _ => False

/-- Nodes without a value: conditionals, loops, functions, and blocks that end without one. -/
def Lowerer.Silent (s : Lowerer) : Node → Prop
  | .expr e => s.SilentExpr e
  | .stmt stmt => s.SilentStmt stmt
  | .block block => s.EndsSilently block.stmts

/-- Statements leave the value of the last of them, if it has one. -/
theorem lowerStmts_silent (stmts : List Stmt) (h : outcome (lowerStmts none stmts) s = (.ok r, t)) :
    r = none ↔ s.EndsSilently stmts := by
  rcases List.eq_nil_or_concat stmts with rfl | ⟨front, last, rfl⟩
  · cases h
    exact iff_of_true rfl (.inl rfl)
  · rw [List.concat_eq_append] at h ⊢
    rw [lowerStmts_append] at h
    obtain ⟨r', u, hfront, hk⟩ := (outcome_bind_eq_ok s).mp h
    rw [lowerStmts] at hk
    obtain ⟨value, u', hlast, hend⟩ := (outcome_bind_eq_ok u).mp hk
    cases hend
    constructor
    · rintro rfl
      refine .inr ⟨front, last, r', u, rfl, hfront, fun v hv => ?_⟩
      rw [outcome_recovering_ok (t := (outcome (lowerStmt last) u).2) (by rw [← hv])] at hlast
      cases hlast
    · rintro (hnil | ⟨front', last', r'', u'', heq, hfront', hnone⟩)
      · simp at hnil
      · obtain ⟨rfl, hsame⟩ := List.append_inj' heq rfl
        cases hsame
        cases hfront.symm.trans hfront'
        cases r with
        | none => rfl
        | some v => exact absurd (congrArg Prod.fst (recovering_some hlast)) (hnone v)

theorem lowerBlock_silent (block : Block) (h : outcome (lowerBlock block) s = (.ok r, t)) :
    r = none ↔ s.EndsSilently block.stmts := by
  cases block
  exact lowerStmts_silent _ h

theorem lowerExpr_silent (e : Expr) (h : outcome (lowerExpr e) s = (.ok r, t)) :
    r = none ↔ s.SilentExpr e := by
  cases e with
  | int | double =>
    cases h
    exact iff_of_false (Option.some_ne_none _) id
  | string | ident | call | binary | assign =>
    obtain ⟨v, rfl, -⟩ := outcome_some_eq_ok.mp h
    exact iff_of_false (Option.some_ne_none v) id
  | ifElse | loop => exact iff_of_true (eq_none_of_outcome h) trivial
  | block node body => exact lowerBlock_silent body h

theorem lowerStmt_silent (stmt : Stmt) (h : outcome (lowerStmt stmt) s = (.ok r, t)) :
    r = none ↔ s.SilentStmt stmt := by
  cases stmt with
  | expr node value => exact lowerExpr_silent value h
  | ret node value =>
    rcases value with _ | value <;>
    · obtain ⟨v, rfl, -⟩ := outcome_some_eq_ok.mp h
      exact iff_of_false (Option.some_ne_none v) id
  | var node ty name init =>
    rcases init with _ | init <;>
    · obtain ⟨v, rfl, -⟩ := outcome_some_eq_ok.mp h
      exact iff_of_false (Option.some_ne_none v) id
  | fn => exact iff_of_true (eq_none_of_outcome h) trivial
  | block node body => exact lowerBlock_silent body h

theorem Node.silent (n : Node) (h : outcome n.lower s = (.ok r, t)) : r = none ↔ s.Silent n := by
  cases n with
  | expr e => exact lowerExpr_silent e h
  | stmt stmt => exact lowerStmt_silent stmt h
  | block block => exact lowerBlock_silent block h

end Silence

/-! ### Programs -/

theorem Node.adds (n : Node) : Adds n.lower := by
  cases n with
  | expr e => exact lowerExpr_adds e
  | stmt stmt => exact lowerStmt_adds stmt
  | block block => exact lowerBlock_adds block

theorem Node.follows (options : Options) (n : Node) :
    ∃ j : Journey n.lower, Follows options j (n.read options) TypedAs := by
  cases n with
  | expr e => exact ⟨_, exprJourney_follows options e⟩
  | stmt stmt => exact ⟨_, stmtJourney_follows options stmt⟩
  | block block => exact ⟨_, blockJourney_follows options block⟩

/-- The value that a node was lowered to, if there is one, can be loaded and has this type then;
there is a type if and only if there is a value. -/
inductive LoadsAs (c : Cursor) (t : Lowerer) : Option Value → Option Ty → Prop
  | none : LoadsAs c t none none
  | some {v w : Value} {u : Lowerer} (loads : outcome (materialize v) t = (.ok w, u)) :
      LoadsAs c t (some v) (some ((u.body c).valueType w))

theorem TypedAs.loadsAs {t : Lowerer} {c : Cursor} {r : Option Value} {ty : Option Ty}
    (h : TypedAs t r ty) (ht : t.Consistent) (hc : t.At c) : LoadsAs c t r ty := by
  cases h with
  | none => exact .none
  | @some v ty typed =>
    obtain ⟨w, u, hmat⟩ := exists_materialize hc v
    have hu : u.At c := ((Adds.materialize v).at_iff hmat).mpr hc
    rw [← (held_materialize ht typed hmat c hu).2]
    exact .some hmat

/-- Whatever is lowered in a state has the type that is read off the tree with this in scope, and it
has no value exactly if it is of a kind that has none. -/
structure FaceValue (options : Options) (scene : Scene) (s : Lowerer) : Prop where
  value : ∀ c n r t, s.At c → outcome n.lower s = (.ok r, t) →
    ∃ ty, scene.read options n = some ty ∧ LoadsAs c t r ty
  silent : ∀ n r t, outcome n.lower s = (.ok r, t) → (r = none ↔ s.Silent n)

theorem Sees.faceValue {options : Options} {scene : Scene} {s : Lowerer}
    (h : Sees options scene s) : FaceValue options scene s := by
  refine ⟨fun c n r t hc hok => ?_, fun n r t hok => n.silent hok⟩
  obtain ⟨j, hj⟩ := n.follows options
  have hboth := hj [] { scene } s ⟨h, .nil⟩
  rcases hread : (n.read options).result { scene } with ⟨result, reader⟩
  rw [hok, hread] at hboth
  cases hboth with
  | @accepted _ ty _ _ value abreast =>
    refine ⟨ty, by rw [Scene.read, hread], value.loadsAs abreast.sees.consistent ?_⟩
    exact (n.adds.at_iff hok).mpr hc

theorem arrivals_eq (root : Block) (options : Options) :
    arrivals root options = (blockJourney root).arrivals (start options) := by
  have hopen : outcome (pushScope (openModule options).1) (initial options)
      = (.ok (), start options) := rfl
  refine (Journey.arrivals_bind_ok _ _ hopen).trans ?_
  rw [Journey.arrivals, List.nil_append]
  rcases hroot : outcome (lowerBlock root) (start options) with ⟨e | value, t⟩
  · exact Journey.arrivals_bind_error _ _ hroot
  · exact (Journey.arrivals_bind_ok _ _ hroot).trans (List.append_nil _)

theorem start_sees (options : Options) : Sees options (.initial options) (start options) :=
  ⟨start_consistent options, rfl, rfl, fun _ => rfl⟩

/-- **Declared types at face value.**  Reading a program and lowering it come to the same nodes in
the same order.  Where a node is come to, whatever is lowered to a value has the type that is read
off the tree there: a literal that of its kind, a name that of its declaration, a call what the
declaration of the function says, a sum that of its left operand, a comparison a truth value, an
assignment or a return none, a declaration its own or, without a value, that of the name it repeats,
and a block that of its last statement.  It has no value exactly if it is a conditional, a loop, a
function or a block that is empty or whose last statement fails or has none. -/
theorem lowerProgram_faceValue (root : Block) (options : Options) :
    (∀ arrival ∈ arrivals root options, arrival.state ∈ passed root options) ∧
      List.Forall₂ (fun reading arrival => arrival.node = reading.node ∧
          FaceValue options reading.scene arrival.state)
        (readings root options) (arrivals root options) := by
  refine ⟨fun _ => (programJourney root options).mem_passed_of_arrival, ?_⟩
  have hboth := blockJourney_follows options root [] { scene := .initial options } (start options)
    ⟨start_sees options, .nil⟩
  have hfault := (lowerBlock_yields root (start options) (start_valid options)).fault
  rw [List.nil_append] at hboth
  rw [arrivals_eq, readings]
  generalize (readBlock options root).result { scene := .initial options } = read at hboth ⊢
  generalize outcome (lowerBlock root) (start options) = lowered at hboth hfault
  have hmeets : List.Forall₂ (Meets options) read.2.readings
      ((blockJourney root).arrivals (start options)) := by
    cases hboth with
    | accepted value abreast => exact abreast.readings
    | refused justified abreast => exact abreast.readings
    | fault internal => cases hfault _ rfl internal
  exact hmeets.imp fun _ _ h => ⟨h.1, h.2.faceValue⟩

end TreeCompiler.Lowering
