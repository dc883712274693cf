/-
What lowering does not depend on.

Two programs that differ only in the numbers of their nodes lower to the same module.  Two programs
that differ also in the values of literals and in the types they name may lower to modules with
different instructions, but what is refused in one is refused in the other.

Both are shown by following two runs at once.  The states of the runs are `Twin`: they have the same
outline, and in the exact case the same bare state.  Two steps are `Paired` if from twins they end
in the same way and leave twins.  The modules of two runs that are not exact drift apart, even in
whether an instruction is there: a slot is loaded, another value is not, and a function without a
return type gets a return.  Steps of that kind are neutral, and any two neutral steps are paired.

Faults of the compiler are left aside on the way.  A step that ends in one goes with every other,
and only at the end it is remembered that none occurs.
-/
import TreeCompiler.Proofs.Lowering.Outline
import TreeCompiler.Proofs.Lowering.Policy

namespace TreeCompiler.Program

/-! ### Stripped programs -/

/-- A parameter without its number, and without its type unless contents are kept. -/
def Param.strip (contents : Bool) (p : Param) : Param :=
  { id := 0, ty := if contents then p.ty else "", name := p.name }

mutual

/-- An expression without the numbers of its nodes.  Unless contents are kept, also without the
values of its literals and without the types that it names. -/
def Expr.strip (contents : Bool) : Expr → Expr
  | .int _ value => .int 0 (if contents then value else 0)
  | .double _ value => .double 0 (if contents then value else .zero)
  | .string _ raw => .string 0 (if contents then raw else "")
  | .ident _ name => .ident 0 name
  | .call _ callee args => .call 0 callee (argsStrip contents args)
  | .binary _ op left right => .binary 0 op (left.strip contents) (right.strip contents)
  | .assign _ target value => .assign 0 target (value.strip contents)
  | .ifElse _ cond thenBlock elseBlock =>
    .ifElse 0 (cond.strip contents) (thenBlock.strip contents) (elseBlock.strip contents)
  | .loop _ start limit body =>
    .loop 0 (start.strip contents) (limit.strip contents) (body.strip contents)
  | .block _ body => .block 0 (body.strip contents)

def argsStrip (contents : Bool) : List Expr → List Expr
  | [] => []
  | arg :: args => arg.strip contents :: argsStrip contents args

def Stmt.strip (contents : Bool) : Stmt → Stmt
  | .expr _ value => .expr 0 (value.strip contents)
  | .ret _ none => .ret 0 none
  | .ret _ (some value) => .ret 0 (some (value.strip contents))
  | .var _ ty name none => .var 0 (if contents then ty else "") name none
  | .var _ ty name (some init) =>
    .var 0 (if contents then ty else "") name (some (init.strip contents))
  | .fn _ retTy name params body =>
    .fn 0 (if contents then retTy else none) name (params.map (·.strip contents))
      (body.strip contents)
  | .block _ body => .block 0 (body.strip contents)

def Block.strip (contents : Bool) : Block → Block
  | .mk _ stmts => .mk 0 (stmtsStrip contents stmts)

def stmtsStrip (contents : Bool) : List Stmt → List Stmt
  | [] => []
  | stmt :: stmts => stmt.strip contents :: stmtsStrip contents stmts

end

/-- A program without the numbers of its nodes. -/
def Block.unnumbered (b : Block) : Block := b.strip true

/-- A program without the numbers of its nodes, the values of its literals and the names of types.
What sort a literal is stays; whether a function names the type it returns does not. -/
def Block.skeleton (b : Block) : Block := b.strip false

section Strip

variable (contents : Bool)

@[simp] theorem bindingKey_strip (e : Expr) : (e.strip contents).bindingKey = e.bindingKey := by
  cases e <;> rfl

@[simp] theorem length_argsStrip (args : List Expr) :
    (argsStrip contents args).length = args.length := by
  induction args with
  | nil => rfl
  | cons arg args ih => simp [argsStrip, ih]

@[simp] theorem isReturn_strip (stmt : Stmt) : (stmt.strip contents).isReturn = stmt.isReturn := by
  cases stmt with
  | ret id value => cases value <;> rfl
  | var id ty name init => cases init <;> rfl
  | _ => rfl

theorem any_isReturn_stmtsStrip (stmts : List Stmt) :
    (stmtsStrip contents stmts).any Stmt.isReturn = stmts.any Stmt.isReturn := by
  induction stmts with
  | nil => rfl
  | cons stmt stmts ih => simp [stmtsStrip, ih]

@[simp] theorem hasTopLevelReturn_strip (b : Block) :
    (b.strip contents).hasTopLevelReturn = b.hasTopLevelReturn := by
  cases b with
  | mk id stmts => exact any_isReturn_stmtsStrip contents stmts

end Strip

end TreeCompiler.Program

namespace TreeCompiler.Lowering

open IR (FuncId BlockId InstId Ty Value Op)
open Program (Expr Stmt Block BinOp NodeId Param argsStrip stmtsStrip)

variable {α β : Type} {exact : Prop}

/-! ### Twins -/

/-- Two states with the same outline, and in the exact case the same state but for numbers of nodes
and the heading of the module. -/
structure Twin (exact : Prop) (s t : Lowerer) : Prop where
  left : s.Consistent
  right : t.Consistent
  outline : t.outline = s.outline
  bare : exact → t.bare = s.bare

namespace Twin

variable {s t : Lowerer} {c d : Cursor}

theorem scopes (h : Twin exact s t) (he : exact) : t.scopes = s.scopes :=
  (congrArg Lowerer.scopes (h.bare he) :)

theorem function (h : Twin exact s t) (he : exact) (f : FuncId) :
    t.code.function f = s.code.function f :=
  (congrArg (fun u : Lowerer => u.code.function f) (h.bare he) :)

theorem body (h : Twin exact s t) (he : exact) (hcd : c = d) : t.body d = s.body c :=
  hcd ▸ h.function he c.func

theorem decls_length (h : Twin exact s t) : t.decls.length = s.decls.length := by
  have hkinds := congrArg (·.kinds.length) h.outline
  simpa [Lowerer.outline] using hkinds

/-- A name is bound in both states or in neither, and by the same declaration. -/
theorem lookup_cases (h : Twin exact s t) (name : String) :
    (s.scopes.lookup name = none ∧ t.scopes.lookup name = none) ∨
    ∃ b b', s.scopes.lookup name = some b ∧ t.scopes.lookup name = some b' ∧ b'.decl = b.decl ∧
      (exact → b' = b) := by
  have hlookup : (t.scopes.lookup name).map (·.decl) = (s.scopes.lookup name).map (·.decl) := by
    rw [← outline_lookup, ← outline_lookup, h.outline]
  rcases hb : s.scopes.lookup name with _ | b <;> rcases hb' : t.scopes.lookup name with _ | b' <;>
    simp only [hb, hb', Option.map_some, Option.map_none, Option.some.injEq,
      reduceCtorEq] at hlookup
  · exact .inl ⟨rfl, rfl⟩
  · refine .inr ⟨b, b', rfl, rfl, hlookup, fun he => ?_⟩
    rw [h.scopes he, hb] at hb'
    exact (Option.some.inj hb').symm

theorem declOf (h : Twin exact s t) (name : String) :
    t.scopes.declOf name = s.scopes.declOf name := by
  obtain ⟨hb, hb'⟩ | ⟨b, b', hb, hb', hdecl, -⟩ := h.lookup_cases name
  · simp [ScopeStack.declOf, hb, hb']
  · simp [ScopeStack.declOf, hb, hb', hdecl]

theorem enter (h : Twin exact s t) (hc : s.At c) (hd : t.At d) {b b' : BlockId}
    (hbd : exact → ({ c with block := b } : Cursor) = { d with block := b' }) :
    Twin exact (s.enter { c with block := b }) (t.enter { d with block := b' }) := by
  refine ⟨h.left.enter hc rfl, h.right.enter hd rfl, ?_, fun he => ?_⟩
  · rw [outline_enter, outline_enter, h.outline]
  · rw [bare_enter, bare_enter, h.bare he, hbd he]

theorem leave (h : Twin exact s t) : Twin exact s.leave t.leave := by
  refine ⟨h.left.leave, h.right.leave, ?_, fun he => ?_⟩
  · rw [outline_leave, outline_leave, h.outline]
  · exact congrArg Lowerer.leave (h.bare he)

theorem recordError (h : Twin exact s t) {e : LowerError} (he : Justified e) :
    Twin exact { s with errors := s.errors ++ [e] } { t with errors := t.errors ++ [e] } := by
  refine ⟨h.left.recordError he, h.right.recordError he, ?_, fun hx => ?_⟩
  · exact congrArg (fun o : Outline => { o with errors := o.errors ++ [e] }) h.outline
  · exact congrArg (fun u : Lowerer => { u with errors := u.errors ++ [e] }) (h.bare hx)

theorem addGlobalString (h : Twin exact s t) (name : String) {text text' : String}
    (htext : exact → text = text') :
    Twin exact { s with code := (s.code.addGlobalString name text).2 }
      { t with code := (t.code.addGlobalString name text').2 } := by
  refine ⟨(maintains_addGlobalString name text).stable s h.left,
    (maintains_addGlobalString name text').stable t h.right, ?_, fun he => ?_⟩
  · rw [outline_addGlobalString, outline_addGlobalString, h.outline]
  · rw [← htext he]
    exact congrArg (fun u : Lowerer => { u with code := (u.code.addGlobalString name text).2 })
      (h.bare he)

end Twin

/-! ### Paired steps -/

/-- Two steps ended in the same way and left twins, or one of them ended in a fault of the
compiler. -/
inductive Concur (exact : Prop) (V : α → β → Prop) :
    Except LowerError α × Lowerer → Except LowerError β × Lowerer → Prop
  | ok {a : α} {b : β} {s t : Lowerer} (value : V a b) (twin : Twin exact s t) :
      Concur exact V (.ok a, s) (.ok b, t)
  | error {e : LowerError} {s t : Lowerer} (justified : Justified e) (twin : Twin exact s t) :
      Concur exact V (.error e, s) (.error e, t)
  | faultLeft {e : LowerError} {s : Lowerer} {q : Except LowerError β × Lowerer}
      (h : e.isInternal = true) :
      Concur exact V (.error e, s) q
  | faultRight {e : LowerError} {t : Lowerer} {p : Except LowerError α × Lowerer}
      (h : e.isInternal = true) :
      Concur exact V p (.error e, t)

/-- The same value, in the exact case. -/
def Same (exact : Prop) (a b : α) : Prop := exact → a = b

/-- Values where the other step has one, and the same in the exact case. -/
def SameValue (exact : Prop) (a b : Option Value) : Prop := a.isSome = b.isSome ∧ (exact → a = b)

/-- From twins the two steps end in the same way, with values related by `V`. -/
def Paired (exact : Prop) (V : α → β → Prop) (x : LowerM α) (y : LowerM β) : Prop :=
  ∀ s t, Twin exact s t → Concur exact V (outcome x s) (outcome y t)

/-- The same, where the cursors of the innermost tables are known. -/
def PairedAt (exact : Prop) (c d : Cursor) (V : α → β → Prop) (x : LowerM α) (y : LowerM β) :
    Prop :=
  ∀ s t, Twin exact s t → s.At c → t.At d → Concur exact V (outcome x s) (outcome y t)

section Rules

variable {α' β' : Type} {V : α → β → Prop} {W : α' → β' → Prop} {x : LowerM α} {y : LowerM β}
  {s t : Lowerer} {c d : Cursor}

theorem Concur.of_eq {p p' : Except LowerError α × Lowerer} {q q' : Except LowerError β × Lowerer}
    (hp : p = p') (hq : q = q') (h : Concur exact V p' q') : Concur exact V p q := hp ▸ hq ▸ h

theorem Concur.bind {k : α → LowerM α'} {l : β → LowerM β'}
    (h : Concur exact V (outcome x s) (outcome y t))
    (hk : ∀ a b u v, outcome x s = (.ok a, u) → outcome y t = (.ok b, v) → V a b → Twin exact u v →
      Concur exact W (outcome (k a) u) (outcome (l b) v)) :
    Concur exact W (outcome (x >>= k) s) (outcome (y >>= l) t) := by
  rw [outcome_bind, outcome_bind]
  rcases hx : outcome x s with ⟨e | a, u⟩ <;> rcases hy : outcome y t with ⟨e' | b, v⟩ <;>
    rw [hx, hy] at h
  · cases h with
    | error justified twin => exact .error justified twin
    | faultLeft h => exact .faultLeft h
    | faultRight h => exact .faultRight h
  · cases h with
    | faultLeft h => exact .faultLeft h
  · cases h with
    | faultRight h => exact .faultRight h
  · cases h with
    | ok value twin => exact hk a b u v hx hy value twin

/-- Both steps close their region. -/
theorem Concur.close (h : Concur exact V (outcome x s) (outcome y t)) :
    Concur exact V (outcome (closingScope x) s) (outcome (closingScope y) t) := by
  rcases hx : outcome x s with ⟨p, u⟩
  rcases hy : outcome y t with ⟨q, v⟩
  rw [hx, hy] at h
  obtain hleft | hleft := closingScope_cases hx
  · obtain hright | hright := closingScope_cases hy
    · rw [hleft, hright]
      cases h with
      | ok value twin => exact .ok value twin.leave
      | error justified twin => exact .error justified twin.leave
      | faultLeft h => exact .faultLeft h
      | faultRight h => exact .faultRight h
    · rw [hright]
      exact .faultRight rfl
  · rw [hleft]
    exact .faultLeft rfl

theorem Paired.bind {k : α → LowerM α'} {l : β → LowerM β'} (hx : Paired exact V x y)
    (hk : ∀ a b, V a b → Paired exact W (k a) (l b)) : Paired exact W (x >>= k) (y >>= l) :=
  fun s t h => (hx s t h).bind fun a b u v _ _ hab huv => hk a b hab u v huv

theorem Paired.at (hx : Paired exact V x y) (c d : Cursor) : PairedAt exact c d V x y :=
  fun s t h _ _ => hx s t h

theorem PairedAt.bind {k : α → LowerM α'} {l : β → LowerM β'} (hx : PairedAt exact c d V x y)
    (hleft : Restores x) (hright : Restores y)
    (hk : ∀ a b, V a b → PairedAt exact c d W (k a) (l b)) :
    PairedAt exact c d W (x >>= k) (y >>= l) := by
  intro s t h hc hd
  refine (hx s t h hc hd).bind fun a b u v hu hv hab huv => hk a b hab u v huv ?_ ?_
  · have hscopes := hleft s
    rw [hu] at hscopes
    rwa [Lowerer.At, ← hscopes]
  · have hscopes := hright t
    rw [hv] at hscopes
    rwa [Lowerer.At, ← hscopes]

/-- What comes last need not know the innermost tables. -/
theorem PairedAt.andThen {k : α → LowerM α'} {l : β → LowerM β'} (hx : PairedAt exact c d V x y)
    (hk : ∀ a b, V a b → Paired exact W (k a) (l b)) : PairedAt exact c d W (x >>= k) (y >>= l) :=
  fun s t h hc hd => (hx s t h hc hd).bind fun a b u v _ _ hab huv => hk a b hab u v huv

theorem paired_pure {a : α} {b : β} (h : V a b) : Paired exact V (pure a) (pure b) :=
  fun _ _ hst => .ok h hst

theorem paired_throw {e : LowerError} (he : Justified e) : Paired exact V (throw e) (throw e) :=
  fun _ _ hst => .error he hst

/-- Any two neutral steps are paired, and in the exact case if they are the same step. -/
theorem Neutral.paired {x y : LowerM α} (hx : Neutral x) (hy : Neutral y) (hxy : exact → x = y) :
    Paired exact (Same exact) x y := by
  intro s t h
  have hu := hx.stable s h.left
  have hv := hy.stable t h.right
  have houtline := ((hy.outline t).trans h.outline).trans (hx.outline s).symm
  have hbare : exact → (outcome y t).1 = (outcome x s).1 ∧
      (outcome y t).2.bare = (outcome x s).2.bare := by
    intro he
    have hsame := hy.blind t
    rw [h.bare he, ← hxy he, hx.blind s, Prod.mk.injEq] at hsame
    rw [← hxy he]
    exact ⟨hsame.1.symm, hsame.2.symm⟩
  have hfaultLeft := hx.fault s
  have hfaultRight := hy.fault t
  generalize outcome x s = p at hu houtline hbare hfaultLeft ⊢
  generalize outcome y t = q at hv houtline hbare hfaultRight ⊢
  obtain ⟨e | a, u⟩ := p
  · exact .faultLeft (hfaultLeft e rfl)
  obtain ⟨e | b, v⟩ := q
  · exact .faultRight (hfaultRight e rfl)
  exact .ok (fun he => (Except.ok.inj (hbare he).1).symm) ⟨hu, hv, houtline, fun he => (hbare he).2⟩

/-- Either both states have an innermost table or neither has one. -/
theorem paired_cursor_bind {k : Cursor → LowerM α} {l : Cursor → LowerM β}
    (hk : ∀ c d, (exact → c = d) → PairedAt exact c d V (k c) (l d)) :
    Paired exact V (cursor >>= k) (cursor >>= l) := by
  intro s t h
  refine (Neutral.cursor.paired .cursor (fun _ => rfl) s t h).bind fun c d u v hu hv hcd huv => ?_
  obtain ⟨hc, rfl⟩ := cursor_succeeds hu
  obtain ⟨hd, rfl⟩ := cursor_succeeds hv
  exact hk c d hcd _ _ huv hc hd

/-- Regions of the functions of the innermost tables. -/
theorem pairedAt_lowerRegion {b b' : BlockId}
    (hbd : exact → ({ c with block := b } : Cursor) = { d with block := b' })
    (hbody : PairedAt exact { c with block := b } { d with block := b' } V x y) :
    PairedAt exact c d V (lowerRegion { c with block := b } x)
      (lowerRegion { d with block := b' } y) := by
  intro s t h hc hd
  have hopen : ∀ {u : Lowerer} {e : Cursor} (e' : Cursor), u.At e →
      outcome (pushScopeCopy e') u = (.ok (), u.enter e') ∧ (u.enter e').At e' := by
    intro u e e' he
    obtain ⟨scope, rest, hscopes, -⟩ := he.scopes
    rw [outcome_pushScopeCopy, if_neg (by simp [hscopes])]
    refine ⟨rfl, ?_⟩
    simp only [Lowerer.enter, hscopes]
    rfl
  obtain ⟨hs, hc'⟩ := hopen { c with block := b } hc
  obtain ⟨ht, hd'⟩ := hopen { d with block := b' } hd
  refine .of_eq (outcome_bind_ok s _ hs) (outcome_bind_ok t _ ht) (Concur.close ?_)
  exact hbody _ _ (h.enter hc hd hbd) hc' hd'

end Rules

/-! ### Operands, operators, assignments and calls -/

section Operands

variable {x x' y y' z z' : LowerM (Option Value)}

theorem paired_required (hx : Paired exact (SameValue exact) x x') (context : String) :
    Paired exact (Same exact) (required context x) (required context x') := by
  refine hx.bind fun a b hab => ?_
  obtain ⟨hsome, heq⟩ := hab
  cases a with
  | none =>
    cases b with
    | none => exact paired_throw fun _ h => by cases h
    | some w => cases hsome
  | some v =>
    cases b with
    | none => cases hsome
    | some w => exact paired_pure fun he => Option.some.inj (heq he)

theorem paired_operand (hx : Paired exact (SameValue exact) x x') (context : String) :
    Paired exact (Same exact) (operand context x) (operand context x') :=
  (paired_required hx context).bind fun v w hvw =>
    (Neutral.materialize v).paired (.materialize w) fun he => by rw [hvw he]

theorem paired_emit {step step' : IR.Function → BlockId → Value × IR.Function}
    (hstep : ∀ f b, ∃ op ty name, step f b = f.push b op ty name)
    (hstep' : ∀ f b, ∃ op ty name, step' f b = f.push b op ty name) (heq : exact → step = step') :
    Paired exact (Same exact) (emit step) (emit step') :=
  (Neutral.emit hstep).paired (.emit hstep') fun he => by rw [heq he]

theorem paired_lowerIdent (name : String) :
    Paired exact (Same exact) (lowerIdent name) (lowerIdent name) := by
  intro s t h
  simp only [lowerIdent, outcome_get_bind, ScopeStack.resolve]
  obtain ⟨hb, hb'⟩ | ⟨b, b', hb, hb', -, heq⟩ := h.lookup_cases name
  · rw [hb, hb']
    exact .error (fun _ h => by cases h) h
  · rw [hb, hb']
    exact .ok (fun he => by rw [heq he]) h

theorem paired_lowerBinary (hx : Paired exact (SameValue exact) x x')
    (hy : Paired exact (SameValue exact) y y') (op : BinOp) :
    Paired exact (Same exact) (lowerBinary op x y) (lowerBinary op x' y') := by
  refine (paired_operand hx _).bind fun lhs lhs' hl =>
    (paired_operand hy _).bind fun rhs rhs' hr => ?_
  split
  · exact paired_emit (fun _ _ => ⟨_, _, _, rfl⟩) (fun _ _ => ⟨_, _, _, rfl⟩) fun he => by
      rw [hl he, hr he]
  · exact paired_emit (fun _ _ => ⟨_, _, _, rfl⟩) (fun _ _ => ⟨_, _, _, rfl⟩) fun he => by
      rw [hl he, hr he]
  · exact paired_throw fun _ h => by cases h

theorem Role.refusal_justified {role : Role} {what : Unassignable} (h : role.refusal = some what)
    (name : String) : Justified (.notAssignable name what.text) := by
  intro other heq
  cases role <;> cases h <;> simp [Unassignable.text] at heq

/-- What an assignment is told depends on the declaration of the name and not on what it is bound
to. -/
theorem paired_lowerAssign (hx : Paired exact (SameValue exact) x x') (target : String) :
    Paired exact (Same exact) (lowerAssign target x) (lowerAssign target x') := by
  intro s t h
  obtain ⟨hb, hb'⟩ | ⟨b, b', hb, hb', hdecl, heq⟩ := h.lookup_cases target
  · simp only [lowerAssign, outcome_get_bind, ScopeStack.resolve, hb, hb']
    exact .error (fun _ h => by cases h) h
  have hat : ∀ {u : Lowerer} {b : Binding}, u.scopes.lookup target = some b → ∃ c, u.At c := by
    intro u b hu
    refine u.at_or_empty.resolve_right fun hempty => ?_
    simp [ScopeStack.lookup, hempty] at hu
  obtain ⟨c, hc⟩ := hat hb
  obtain ⟨d, hd⟩ := hat hb'
  obtain ⟨role, hplays⟩ := h.left.role hc hb
  obtain ⟨role', hplays'⟩ := h.right.role hd hb'
  have hrole : role' = role := by
    rw [← hplays.role_eq, ← hplays'.role_eq, h.outline, hdecl]
  rw [outcome_lowerAssign_role hc hb hplays, outcome_lowerAssign_role hd hb' hplays', hrole]
  rcases hrefusal : role.refusal with _ | what
  · refine ((paired_operand hx _).bind fun v w hvw => ?_) s t h
    exact paired_emit (fun _ _ => ⟨_, _, _, rfl⟩) (fun _ _ => ⟨_, _, _, rfl⟩) fun he => by
      rw [hvw he, heq he]
  · exact .error (Role.refusal_justified hrefusal target) h

theorem paired_lowerArg (hx : Paired exact (SameValue exact) x x') (key : Option String) :
    Paired exact (Same exact) (lowerArg key x) (lowerArg key x') := by
  refine (paired_required hx _).bind fun v w hvw => ?_
  cases key with
  | none => exact paired_pure hvw
  | some name =>
    intro s t h
    simp only [outcome_get_bind, h.declOf name]
    split
    · exact (Neutral.materialize v).paired (.materialize w) (fun he => by rw [hvw he]) s t h
    · exact .ok hvw h

theorem paired_lowerCall {args args' : LowerM (List Value)}
    (hargs : Paired exact (Same exact) args args') (callee : String) (count : Nat) :
    Paired exact (Same exact) (lowerCall callee count args) (lowerCall callee count args') := by
  intro s t h
  obtain ⟨hfind, hsig⟩ := IR.Module.callee_of_headers (congrArg Outline.headers h.outline) callee
  rw [outcome_lowerCall, outcome_lowerCall]
  rw [show t.code.getFunction? callee = s.code.getFunction? callee from hfind]
  cases s.code.getFunction? callee with
  | none => exact .error (fun _ h => by cases h) h
  | some func =>
    obtain ⟨hlength, haccepts⟩ := hsig func
    dsimp only
    rw [show (t.code.function func).sig.accepts count
      = (s.code.function func).sig.accepts count from haccepts count]
    split
    · refine (hargs.bind fun vs ws hvw => ?_) s t h
      exact paired_emit (fun _ _ => ⟨_, _, _, rfl⟩) (fun _ _ => ⟨_, _, _, rfl⟩)
        fun he => by rw [hvw he, h.function he]
    · rw [show (t.code.function func).sig.params.length
        = (s.code.function func).sig.params.length from hlength]
      exact .error (fun _ h => by cases h) h

end Operands

/-! ### Regions, declarations and functions -/

section Constructs

variable {x x' y y' z z' : LowerM (Option Value)} {s t : Lowerer} {c d : Cursor}

theorem paired_emitAt {step step' : IR.Function → BlockId → Value × IR.Function}
    (hstep : ∀ f b, ∃ op ty name, step f b = f.push b op ty name)
    (hstep' : ∀ f b, ∃ op ty name, step' f b = f.push b op ty name) (hcd : exact → c = d)
    (heq : exact → step = step') : Paired exact (Same exact) (emitAt c step) (emitAt d step') :=
  (Neutral.emitAt hstep c).paired (.emitAt hstep' d) fun he => by rw [hcd he, heq he]

theorem paired_createBlock {f g : FuncId} (hfg : exact → f = g) (base : String) :
    Paired exact (Same exact) (createBlock f base) (createBlock g base) :=
  (Neutral.createBlock f base).paired (.createBlock g base) fun he => by rw [hfg he]

theorem paired_lowerIf (hx : Paired exact (SameValue exact) x x')
    (hy : Paired exact (SameValue exact) y y') (hbelow : Contained y) (hbelow' : Contained y')
    (hz : Paired exact (SameValue exact) z z') :
    Paired exact (Same exact) (lowerIf x y z) (lowerIf x' y' z') := by
  refine (paired_operand hx _).bind fun v w hvw => paired_cursor_bind fun c d hcd => ?_
  have hfunc : exact → c.func = d.func := fun he => by rw [hcd he]
  refine ((paired_createBlock hfunc "then").at c d).bind (restores_updateFunction _ _)
    (restores_updateFunction _ _) fun b₁ b₁' h₁ => ?_
  refine ((paired_createBlock hfunc "else").at c d).bind (restores_updateFunction _ _)
    (restores_updateFunction _ _) fun b₂ b₂' h₂ => ?_
  refine ((paired_emitAt (fun _ _ => ⟨_, _, _, rfl⟩) (fun _ _ => ⟨_, _, _, rfl⟩) hcd
    fun he => by rw [hvw he, h₁ he, h₂ he]).at c d).bind (restores_updateFunction _ _)
    (restores_updateFunction _ _) fun _ _ _ => ?_
  have hthen := pairedAt_lowerRegion (fun he => by rw [hcd he, h₁ he])
    (hy.at { c with block := b₁ } { d with block := b₁' })
  have helse := pairedAt_lowerRegion (fun he => by rw [hcd he, h₂ he])
    (hz.at { c with block := b₂ } { d with block := b₂' })
  exact hthen.bind (restores_lowerRegion hbelow _) (restores_lowerRegion hbelow' _) fun _ _ _ =>
    helse.andThen fun _ _ _ => paired_pure fun _ => rfl

/-- The counter of a loop is bound to a phi. -/
theorem consistent_counter (hs : s.Consistent) (hc : s.At c) (incoming : List (Value × BlockId)) :
    ((s.emit c (.phi incoming) .f64 (some s.options.inductionName)).bindName s.options.inductionName
      (.inst (s.body c).insts.length) none).Consistent :=
  (hs.update _ _ (.ofGrows (.push _ _ _ _ _))).bindName hc
    (.counter (getElem?_emit (hs.func_lt hc) _ _ _) rfl rfl rfl)

theorem Twin.counter (h : Twin exact s t) (hc : s.At c) (hd : t.At d) (hcd : exact → c = d)
    (incoming incoming' : List (Value × BlockId)) (hin : exact → incoming = incoming') :
    Twin exact
      ((s.emit c (.phi incoming) .f64 (some s.options.inductionName)).bindName
        s.options.inductionName
        (.inst (s.body c).insts.length) none)
      ((t.emit d (.phi incoming') .f64 (some t.options.inductionName)).bindName
        t.options.inductionName
        (.inst (t.body d).insts.length) none) := by
  have hname : t.options.inductionName = s.options.inductionName :=
    congrArg Outline.counterName h.outline
  refine ⟨consistent_counter h.left hc _, consistent_counter h.right hd _, ?_, fun he => ?_⟩
  · rw [outline_bindName, outline_bindName, outline_emit, outline_emit, h.outline, hname]
  · rw [bare_bindName, bare_bindName, h.body he (hcd he), hname, ← hin he, ← hcd he]
    exact congrArg (fun u : Lowerer =>
      (u.emit c (.phi incoming) .f64 (some s.options.inductionName)).bindName
      s.options.inductionName (.inst (s.body c).insts.length) none) (h.bare he)

theorem pairedAt_lowerLoopBody (hx : Paired exact (SameValue exact) x x')
    (hy : Paired exact (SameValue exact) y y') {before before' : Cursor} {b b' : BlockId}
    {v v' : Value} (hbefore : exact → before = before') (hb : exact → b = b')
    (hv : exact → v = v') :
    PairedAt exact { before with block := b } { before' with block := b' } (Same exact)
      (lowerLoopBody before { before with block := b } v x y)
      (lowerLoopBody before' { before' with block := b' } v' x' y') := by
  intro s t h hc hd
  have hinside : exact → ({ before with block := b } : Cursor) = { before' with block := b' } :=
    fun he => by rw [hbefore he, hb he]
  have hfunc : exact → before.func = before'.func := fun he => by rw [hbefore he]
  have htwin := h.counter hc hd hinside [(v, before.block)] [(v', before'.block)]
    fun he => by rw [hv he, hbefore he]
  have hcounter : exact → (s.body { before with block := b }).insts.length
      = (t.body { before' with block := b' }).insts.length := fun he => by
        rw [h.body he (hinside he)]
  simp only [lowerLoopBody, outcome_get_bind]
  refine .of_eq (outcome_counter (h.left.func_lt hc) hc.ne_nil _)
    (outcome_counter (h.right.func_lt hd) hd.ne_nil _) ?_
  generalize (s.body { before with block := b }).insts.length = k at hcounter htwin ⊢
  generalize (t.body { before' with block := b' }).insts.length = k' at hcounter htwin ⊢
  -- The counter is bound; from here on the tables need not be looked at.
  refine (hx.bind fun _ _ _ => ?_) _ _ htwin
  refine (paired_emit (fun _ _ => ⟨_, _, _, rfl⟩) (fun _ _ => ⟨_, _, _, rfl⟩)
    fun he => by rw [hcounter he]).bind fun next next' hnext => ?_
  refine (paired_operand hy _).bind fun bound bound' hbound => ?_
  refine (Neutral.cursor.paired .cursor fun _ => rfl).bind fun e e' hee => ?_
  refine (paired_emitAt (fun _ _ => ⟨_, _, _, rfl⟩) (fun _ _ => ⟨_, _, _, rfl⟩) hee
    fun he => by rw [hnext he, hbound he]).bind fun test test' htest => ?_
  refine ((Neutral.nameValue _ _ _).paired (.nameValue _ _ _) fun he => by
    rw [hfunc he, hnext he]).bind
    fun _ _ _ => ?_
  refine ((Neutral.nameValue _ _ _).paired (.nameValue _ _ _) fun he => by
    rw [hfunc he, htest he]).bind
    fun _ _ _ => ?_
  refine (paired_createBlock hfunc "afterloop").bind fun after after' hafter => ?_
  refine (paired_emitAt (fun _ _ => ⟨_, _, _, rfl⟩) (fun _ _ => ⟨_, _, _, rfl⟩) hee
    fun he => by rw [htest he, hb he, hafter he]).bind fun _ _ _ => ?_
  exact ((Neutral.addIncoming _ _ _ _).paired (.addIncoming _ _ _ _)
    fun he => by rw [hfunc he, hcounter he, hnext he, hee he]).bind fun _ _ _ => paired_pure hafter

theorem paired_lowerLoop (hx : Paired exact (SameValue exact) x x')
    (hy : Paired exact (SameValue exact) y y') (hz : Paired exact (SameValue exact) z z') :
    Paired exact (Same exact) (lowerLoop x y z) (lowerLoop x' y' z') := by
  refine (paired_operand hx _).bind fun v v' hv => paired_cursor_bind fun c d hcd => ?_
  refine ((paired_createBlock (fun he => by rw [hcd he]) "loop").at c d).bind
    (restores_updateFunction _ _) (restores_updateFunction _ _) fun b b' hb => ?_
  refine ((paired_emitAt (fun _ _ => ⟨_, _, _, rfl⟩) (fun _ _ => ⟨_, _, _, rfl⟩) hcd
    fun he => by rw [hb he]).at c d).bind (restores_updateFunction _ _)
    (restores_updateFunction _ _) fun _ _ _ => ?_
  refine (pairedAt_lowerRegion (fun he => by rw [hcd he, hb he])
    (pairedAt_lowerLoopBody hy hz hcd hb hv)).andThen fun after after' hafter => ?_
  exact (paired_emitAt (fun _ _ => ⟨_, _, _, rfl⟩) (fun _ _ => ⟨_, _, _, rfl⟩)
    (fun he => by rw [hcd he, hafter he]) fun _ => rfl).bind fun _ _ _ => paired_pure fun _ => rfl

theorem Twin.declareVariable (h : Twin exact s t) (hc : s.At c) (hd : t.At d) (hcd : exact → c = d)
    (node node' : NodeId) {ty ty' : Ty} (hty : exact → ty = ty') (name : String) :
    Twin exact (s.declareVariable c node ty name) (t.declareVariable d node' ty' name) := by
  refine ⟨h.left.declareVariable hc .., h.right.declareVariable hd .., ?_, fun he => ?_⟩
  · simp only [Lowerer.declareVariable, outline_bindName, outline_record, outline_emit, h.outline,
      h.decls_length]
  · simp only [Lowerer.declareVariable, bare_bindName, bare_record, h.body he (hcd he),
      h.decls_length]
    rw [← hty he, ← hcd he]
    exact congrArg (fun u : Lowerer => ((u.emit c (.alloca ty) .ptr (some name)).record
      { node := 0, name, ty, kind := .variable }).bindName name (.inst (s.body c).insts.length)
      (some s.decls.length)) (h.bare he)

theorem paired_lowerVar (hx : Paired exact (SameValue exact) x x') (node node' : NodeId)
    {ty ty' : String} (hty : exact → ty = ty') (name : String) :
    Paired exact (Same exact) (lowerVar node ty name x) (lowerVar node' ty' name x') := by
  intro s t h
  obtain ⟨c, hc⟩ | hs := s.at_or_empty
  · obtain ⟨d, hd⟩ | ht := t.at_or_empty
    · have hcd : exact → c = d := fun he => hc.unique (by rw [Lowerer.At, ← h.scopes he]; exact hd)
      refine .of_eq (outcome_declareVariable hc node (typeOf ty) name _)
        (outcome_declareVariable hd node' (typeOf ty') name _) ?_
      refine ((paired_lowerAssign hx name).bind fun _ _ _ => paired_pure fun he => ?_) _ _
        (h.declareVariable hc hd hcd node node' (fun he => by rw [hty he]) name)
      rw [h.body he (hcd he)]
    · exact .of_eq rfl (outcome_bind_error t _ (outcome_emit_empty ht)) (.faultRight rfl)
  · exact .of_eq (outcome_bind_error s _ (outcome_emit_empty hs)) rfl (.faultLeft rfl)

theorem paired_recovering (hx : Paired exact (SameValue exact) x x') :
    Paired exact (SameValue exact) (recovering x) (recovering x') := by
  intro s t h
  have hst := hx s t h
  have hinternal : ∀ {x : LowerM (Option Value)} {s u : Lowerer} {e : LowerError},
      outcome x s = (.error e, u) →
      e.isInternal = true → outcome (recovering x) s = (.error e, u) := by
    intro x s u e hu he
    rw [outcome_recovering_error hu, he]
    rfl
  rcases hu : outcome x s with ⟨e | a, u⟩ <;> rcases hv : outcome x' t with ⟨e' | b, v⟩ <;>
    rw [hu, hv] at hst
  · cases hst with
    | error justified twin =>
      have hpolicy : v.options.policy = u.options.policy := congrArg Outline.policy twin.outline
      rw [outcome_recovering_error hu, outcome_recovering_error hv, hpolicy]
      split
      · exact .error justified twin
      · exact .ok ⟨rfl, fun _ => rfl⟩ (twin.recordError justified)
    | faultLeft h => exact .of_eq (hinternal hu h) rfl (.faultLeft h)
    | faultRight h => exact .of_eq rfl (hinternal hv h) (.faultRight h)
  · cases hst with
    | faultLeft h => exact .of_eq (hinternal hu h) rfl (.faultLeft h)
  · cases hst with
    | faultRight h => exact .of_eq rfl (hinternal hv h) (.faultRight h)
  · cases hst with
    | ok value twin =>
      exact .of_eq (outcome_recovering_ok hu) (outcome_recovering_ok hv) (.ok value twin)

end Constructs

/-! ### Functions -/

section Functions

variable {x x' : LowerM (Option Value)} {s t : Lowerer} {contents : Bool}

theorem typeOf_strip (p : Param) (h : contents = true) :
    typeOf (p.strip contents).ty = typeOf p.ty := by
  simp [Param.strip, h]

theorem signature_strip (params : List Param) (ret : Ty) (h : contents = true) :
    Lowerer.signature (params.map (·.strip contents)) ret = Lowerer.signature params ret := by
  simp only [Lowerer.signature, List.map_map]
  congr 1
  exact List.map_congr_left fun p _ => typeOf_strip p h

/-- Only the names of parameters are looked at when they are given to a function. -/
theorem setParamNames_strip (params : List Param) (i : Nat) (f : IR.Function) :
    ((params.map (·.strip contents)).zipIdx i).foldl
      (fun f q => IR.Function.setParamName f q.2 q.1.name) f
      = (params.zipIdx i).foldl (fun f q => IR.Function.setParamName f q.2 q.1.name) f := by
  induction params generalizing i f with
  | nil => rfl
  | cons p ps ih => exact ih (i + 1) _

theorem outline_addFunction (s : Lowerer) (name : String) (params : List Param) (ret : Ty) :
    (s.addFunction name params ret).outline =
      { s.outline with
        names := s.outline.names.record name
        headers := s.outline.headers
          ++ [⟨s.outline.names.next "." name, params.length, false⟩] } := by
  rw [Lowerer.addFunction, outline_update _ _ _ rfl rfl, Lowerer.declareFunction, outline_update]
  · simp only [Lowerer.outline, IR.Module.headers_addFunction]
    simp [IR.Header.of, Lowerer.signature, IR.Module.addFunction]
  · obtain ⟨names, heq⟩ := foldl_setParamName params.zipIdx _
    rw [heq]
  · obtain ⟨names, heq⟩ := foldl_setParamName params.zipIdx _
    rw [heq]

theorem bare_addFunction (name : String) (params : List Param) (ret : Ty) (h : contents = true) :
    (s.addFunction name (params.map (·.strip contents)) ret).bare
      = s.bare.addFunction name params ret := by
  have hfold := @setParamNames_strip contents params 0
  have hdeclare : s.declareFunction name (params.map (·.strip contents)) ret
      = s.declareFunction name params ret := by
    simp only [Lowerer.declareFunction, signature_strip params ret h]
    exact congrArg _ (funext hfold)
  rw [Lowerer.addFunction, hdeclare]
  rfl

theorem outline_bindParams (h : t.outline = s.outline) (i : Nat) (params : List Param) :
    (t.bindParams i (params.map (·.strip contents))).outline = (s.bindParams i params).outline := by
  induction params generalizing s t i with
  | nil => exact h
  | cons p ps ih =>
    have hlength : t.decls.length = s.decls.length := by
      simpa [Lowerer.outline] using congrArg (·.kinds.length) h
    refine ih ?_ (i + 1)
    rw [outline_bindName, outline_bindName, outline_record, outline_record, h, hlength]
    rfl

theorem bare_bindParams (hcontents : contents = true) (h : t.bare = s.bare) (i : Nat)
    (params : List Param) :
    (t.bindParams i (params.map (·.strip contents))).bare = (s.bindParams i params).bare := by
  induction params generalizing s t i with
  | nil => exact h
  | cons p ps ih =>
    have hlength : t.decls.length = s.decls.length := by
      simpa [Lowerer.bare] using congrArg (·.decls.length) h
    refine ih ?_ (i + 1)
    rw [bare_bindName, bare_bindName, bare_record, bare_record, h, hlength,
      typeOf_strip p hcontents]
    rfl

theorem Twin.openFunction (h : Twin (contents = true) s t) (name : String) (params : List Param)
    {ret ret' : Ty} (hret : contents = true → ret = ret') :
    Twin (contents = true) (s.openFunction name params ret)
      (t.openFunction name (params.map (·.strip contents)) ret') := by
  refine ⟨h.left.openFunction .., h.right.openFunction .., ?_, fun he => ?_⟩
  · refine outline_bindParams ?_ 0 params
    simp only [outline_enterEmpty, outline_addFunction, h.outline, List.length_map]
  · refine bare_bindParams he ?_ 0 params
    have hcursor : t.nextFunction = s.nextFunction :=
      (congrArg (fun u : Lowerer => u.nextFunction) (h.bare he) :)
    have hadd : (t.addFunction name (params.map (·.strip contents)) ret').bare
        = (s.addFunction name params ret).bare := by
      rw [bare_addFunction name params ret' he, h.bare he, ← hret he]
      rfl
    rw [hcursor]
    exact congrArg (fun u : Lowerer => u.enterEmpty s.nextFunction) hadd

theorem paired_lowerFn (hx : Paired (contents = true) (SameValue (contents = true)) x x')
    {retTy retTy' : Option String} (hret : contents = true → retTy = retTy') (name : String)
    (params : List Param) (returns : Bool) :
    Paired (contents = true) (Same (contents = true)) (lowerFn retTy name params returns x)
      (lowerFn retTy' name (params.map (·.strip contents)) returns x') := by
  intro s t h
  have hlast : ∀ void : Bool, Neutral (if void = true then do let _ ← emit (·.ret · none)
      else pure () : LowerM Unit) := by
    intro void
    cases void with
    | false => exact .pure ()
    | true => exact (Neutral.emit fun _ _ => ⟨_, _, _, rfl⟩).bind fun _ => .pure ()
  refine .of_eq (outcome_openFunction s retTy name params returns)
    (outcome_openFunction t retTy' name _ returns)
    (Concur.close ?_)
  refine .of_eq (outcome_bind_ok _ _
    (outcome_declareParams (by simp [Lowerer.enterEmpty, ScopeStack.push]) 0 _))
    (outcome_bind_ok _ _ (outcome_declareParams
      (by simp [Lowerer.enterEmpty, ScopeStack.push]) 0 _)) ?_
  refine (hx.bind fun _ _ _ => ?_) _ _ (h.openFunction name params fun he => by rw [hret he])
  exact (hlast _).paired (hlast _) fun he => by rw [hret he]

end Functions

/-! ### The walk -/

section Walk

variable {contents : Bool}

/-- A step whose value is passed on. -/
theorem Paired.some {x y : LowerM Value} (h : Paired exact (Same exact) x y) :
    Paired exact (SameValue exact) (do return some (← x)) (do return some (← y)) :=
  h.bind fun _ _ hvw => paired_pure ⟨rfl, fun he => by rw [hvw he]⟩

theorem Paired.none {x y : LowerM Unit} (h : Paired exact (Same exact) x y) :
    Paired exact (SameValue exact) (do x; return none) (do y; return none) :=
  h.bind fun _ _ _ => paired_pure ⟨rfl, fun _ => rfl⟩

theorem paired_literal {v w : Value} (h : exact → v = w) :
    Paired exact (SameValue exact) (pure (some v)) (pure (some w)) :=
  paired_pure ⟨rfl, fun he => by rw [h he]⟩

theorem paired_addGlobalString (name : String) {text text' : String} (h : exact → text = text') :
    Paired exact (Same exact) (addGlobalString name text) (addGlobalString name text') :=
  fun _ _ hst => .ok
    (fun he => (congrArg (fun u : Lowerer => Value.global u.code.globals.length)
      (hst.bare he).symm :))
    (hst.addGlobalString name h)

mutual

theorem lowerExpr_paired : ∀ e : Expr,
    Paired (contents = true) (SameValue (contents = true)) (lowerExpr e)
      (lowerExpr (e.strip contents))
  | .int _ value => paired_literal fun he => by rw [if_pos he]
  | .double _ value => paired_literal fun he => by rw [if_pos he]
  | .string _ raw => (paired_addGlobalString "str" fun he => by rw [if_pos he]).some
  | .ident _ name => (paired_lowerIdent name).some
  | .call _ callee args => by
    rw [Expr.strip, lowerExpr, lowerExpr, Program.length_argsStrip]
    exact (paired_lowerCall (lowerArgs_paired args) callee args.length).some
  | .binary _ op left right =>
    (paired_lowerBinary (lowerExpr_paired left) (lowerExpr_paired right) op).some
  | .assign _ target value => (paired_lowerAssign (lowerExpr_paired value) target).some
  | .ifElse _ cond thenBlock elseBlock =>
    (paired_lowerIf (lowerExpr_paired cond) (lowerBlock_paired thenBlock)
      (lowerBlock_confined _).contained
      (lowerBlock_confined _).contained (lowerBlock_paired elseBlock)).none
  | .loop _ start limit body =>
    (paired_lowerLoop (lowerExpr_paired start) (lowerBlock_paired body)
      (lowerExpr_paired limit)).none
  | .block _ body => lowerBlock_paired body

theorem lowerArgs_paired : ∀ args : List Expr,
    Paired (contents = true) (Same (contents = true)) (lowerArgs args)
      (lowerArgs (argsStrip contents args))
  | [] => paired_pure fun _ => rfl
  | arg :: args => by
    rw [argsStrip, lowerArgs, lowerArgs, Program.bindingKey_strip]
    refine (paired_lowerArg (lowerExpr_paired arg) arg.bindingKey).bind fun v w hvw => ?_
    exact (lowerArgs_paired args).bind fun vs ws hvws => paired_pure fun he => by
      rw [hvw he, hvws he]

theorem lowerStmt_paired : ∀ stmt : Stmt,
    Paired (contents = true) (SameValue (contents = true)) (lowerStmt stmt)
      (lowerStmt (stmt.strip contents))
  | .expr _ value => lowerExpr_paired value
  | .ret _ none =>
    (paired_emit (fun _ _ => ⟨_, _, _, rfl⟩) (fun _ _ => ⟨_, _, _, rfl⟩) fun _ => rfl).some
  | .ret _ (some value) =>
    ((paired_operand (lowerExpr_paired value) "return value").bind fun _ _ hvw =>
      paired_emit (fun _ _ => ⟨_, _, _, rfl⟩) (fun _ _ => ⟨_, _, _, rfl⟩) fun he => by
        rw [hvw he]).some
  | .var _ _ name none => (paired_lowerIdent name).some
  | .var _ _ name (some init) =>
    (paired_lowerVar (lowerExpr_paired init) _ _ (fun he => by rw [if_pos he]) name).some
  | .fn _ retTy name params body => by
    rw [Stmt.strip, lowerStmt, lowerStmt, Program.hasTopLevelReturn_strip]
    exact (paired_lowerFn (lowerBlock_paired body) (fun he => by rw [if_pos he]) name params _).none
  | .block _ body => lowerBlock_paired body

theorem lowerBlock_paired : ∀ block : Block,
    Paired (contents = true) (SameValue (contents = true)) (lowerBlock block)
      (lowerBlock (block.strip contents))
  | .mk _ stmts => lowerStmts_paired stmts none none ⟨rfl, fun _ => rfl⟩

theorem lowerStmts_paired :
    ∀ (stmts : List Stmt) (last last' : Option Value), SameValue (contents = true) last last' →
    Paired (contents = true) (SameValue (contents = true)) (lowerStmts last stmts)
      (lowerStmts last' (stmtsStrip contents stmts))
  | [], _, _, h => paired_pure h
  | stmt :: stmts, _, _, _ =>
    (paired_recovering (lowerStmt_paired stmt)).bind fun v w hvw => lowerStmts_paired stmts v w hvw

end

end Walk

/-! ### Programs -/

theorem heading_openLoop (s : Lowerer) (c : Cursor) (value : Value) :
    (s.openLoop c value).code.heading = s.code.heading := by
  have henter : ((s.jump c).enter (s.nextCursor c)).code.heading = s.code.heading := by
    rw [enter_code]
    rfl
  rw [Lowerer.openLoop, bindName_code]
  exact henter

/-- Lowering never touches the heading of the module. -/
theorem Runs.heading {s t : Lowerer} (h : Runs s t) : t.code.heading = s.code.heading := by
  induction h with
  | refl | string | plain | error => rfl
  | trans _ _ ih ih' => exact ih'.trans ih
  | slot hc node ty name =>
    rw [Lowerer.declareVariable, bindName_code]
    rfl
  | branch _ _ _ _ ihthen ihelse =>
    rw [enter_code] at ihthen ihelse
    exact ihelse.trans ihthen
  | branchBroken _ _ _ ih => rwa [enter_code] at ih
  | loop _ _ _ _ _ ihbody ihlimit =>
    rw [heading_openLoop] at ihbody
    exact ihlimit.trans ihbody
  | loopBroken _ _ _ ih => rwa [heading_openLoop] at ih
  | function name params ret _ ih =>
    rw [Lowerer.openFunction, bindParams_code] at ih
    exact ih

theorem lowerProgram_heading {root : Block} {options : Options} {l : Lowered}
    (h : lowerProgram root options = .ok l) :
    l.code.heading = (options.moduleName, options.targetTriple) := by
  obtain ⟨t, hrun, hcode, -⟩ := lowerProgram_ok h
  rw [← hcode]
  exact hrun.heading

theorem start_twin (options : Options) (moduleName : String) (targetTriple : Option String) :
    Twin exact (start options) (start { options with moduleName, targetTriple }) :=
  ⟨start_consistent _, start_consistent _, rfl, fun _ => rfl⟩

/-- No program ends in a fault of the compiler. -/
theorem lowerBlock_start_faultless (root : Block) (options : Options) {e : LowerError} {t : Lowerer}
    (h : outcome (lowerBlock root) (start options) = (.error e, t)) : e.isInternal ≠ true := by
  intro he
  have hfault := (lowerBlock_yields root (start options) (start_valid options)).fault e
    (by rw [h]) he
  exact (start_at options).ne_nil hfault

theorem closeModule_unheaded (c : Cursor) (m : IR.Module) :
    (closeModule c m).unheaded = closeModule c m.unheaded := by
  have hfunction : m.unheaded.function c.func = m.function c.func := rfl
  unfold closeModule
  rw [hfunction]
  split <;> rfl

/-- A program and what is left of it when it is stripped, under another heading. -/
theorem lowerProgram_strip (contents : Bool) (root : Block) (options : Options)
    (moduleName : String) (targetTriple : Option String) :
    (∃ e, lowerProgram root options = .error e ∧
      lowerProgram (root.strip contents) { options with moduleName, targetTriple } = .error e) ∨
    ∃ l l', lowerProgram root options = .ok l ∧
      lowerProgram (root.strip contents) { options with moduleName, targetTriple } = .ok l' ∧
      l'.errors = l.errors ∧ (contents = true → l'.code.unheaded = l.code.unheaded) := by
  have hmatch := @lowerBlock_paired contents root _ _ (start_twin options moduleName targetTriple)
  have hleft := @lowerBlock_start_faultless root options
  have hright := @lowerBlock_start_faultless (root.strip contents)
    { options with moduleName, targetTriple }
  rw [lowerProgram_eq, lowerProgram_eq]
  generalize outcome (lowerBlock root) (start options) = p at hmatch hleft ⊢
  generalize outcome (lowerBlock (root.strip contents))
    (start { options with moduleName, targetTriple }) = q
    at hmatch hright ⊢
  cases hmatch with
  | @ok a b s t value twin =>
    refine .inr ⟨_, _, rfl, rfl, congrArg Outline.errors twin.outline, fun he => ?_⟩
    have hcode : t.code.unheaded = s.code.unheaded := (congrArg Lowerer.code (twin.bare he) :)
    rw [closeModule_unheaded, closeModule_unheaded, hcode]
  | error justified twin => exact .inl ⟨_, rfl, rfl⟩
  | faultLeft h => exact absurd h (hleft rfl)
  | faultRight h => exact absurd h (hright rfl)

/-- The heading of the module has no part in anything else. -/
theorem lowerProgram_rename (root : Block) (options : Options) (moduleName : String)
    (targetTriple : Option String) :
    (∃ e, lowerProgram root options = .error e ∧
      lowerProgram root { options with moduleName, targetTriple } = .error e) ∨
    ∃ l l', lowerProgram root options = .ok l ∧
      lowerProgram root { options with moduleName, targetTriple } = .ok l' ∧
      l'.errors = l.errors ∧ l'.code.unheaded = l.code.unheaded := by
  -- Both programs are compared with the stripped one under the first heading.
  obtain ⟨e, h, h₀⟩ | ⟨l, l₀, h, h₀, herrors, hcode⟩ :=
      lowerProgram_strip true root options options.moduleName options.targetTriple <;>
    obtain ⟨e', h', h₀'⟩ | ⟨l', l₀', h', h₀', herrors', hcode'⟩ :=
      lowerProgram_strip true root { options with moduleName, targetTriple } options.moduleName
        options.targetTriple
  · cases h₀.symm.trans h₀'
    exact .inl ⟨e, h, h'⟩
  · cases h₀.symm.trans h₀'
  · cases h₀.symm.trans h₀'
  · cases h₀.symm.trans h₀'
    exact .inr ⟨l, l', h, h', herrors'.symm.trans herrors, (hcode' rfl).symm.trans (hcode rfl)⟩

/-- **What lowering depends on.**  Programs that differ only in the numbers of their nodes have the
same result.  Programs that differ also in the values of literals and in the types they name are
refused together and with the same errors. -/
theorem lowerProgram_dependence (first second : Block) (options : Options) :
    (first.unnumbered = second.unnumbered →
      lowerProgram first options = lowerProgram second options) ∧
    (first.skeleton = second.skeleton →
      (lowerProgram first options).map Lowered.errors
        = (lowerProgram second options).map Lowered.errors) := by
  constructor
  · intro heq
    have hstrip : ∀ root : Block,
        lowerProgram root options = lowerProgram root.unnumbered options := by
      intro root
      obtain ⟨e, h, h'⟩ | ⟨l, l', h, h', herrors, hcode⟩ :=
        lowerProgram_strip true root options options.moduleName options.targetTriple
      · rw [h, Block.unnumbered]
        exact h'.symm
      · have hmodule : l'.code = l.code :=
          IR.Module.eq_of_unheaded (hcode rfl)
            ((lowerProgram_heading h').trans (lowerProgram_heading h).symm)
        have hsame : l' = l := by
          cases l
          cases l'
          simp_all
        rw [h, Block.unnumbered, ← hsame]
        exact h'.symm
    rw [hstrip first, hstrip second, heq]
  · intro heq
    have hstrip : ∀ root : Block, (lowerProgram root options).map Lowered.errors
        = (lowerProgram root.skeleton options).map Lowered.errors := by
      intro root
      obtain ⟨e, h, h'⟩ | ⟨l, l', h, h', herrors, -⟩ :=
        lowerProgram_strip false root options options.moduleName options.targetTriple
      · rw [h, Block.skeleton]
        exact (congrArg (Except.map Lowered.errors) h').symm
      · rw [h, Block.skeleton]
        refine Eq.trans ?_ (congrArg (Except.map Lowered.errors) h').symm
        exact congrArg Except.ok herrors.symm
    rw [hstrip first, hstrip second, heq]

/-- A program with a mistake of every kind that its names decide, for a number of its first node, a
type and a literal. -/
def mistaken (id : NodeId) (ty : String) (value : Expr) : Block :=
  .mk id [
    .fn 1 (some ty) "f" [⟨2, ty, "a"⟩] (.mk 3 [.expr 4 (.assign 5 "a" value)]),
    .var 6 ty "x" (some value),
    .expr 7 (.call 8 "f" []),
    .expr 9 (.call 10 "g" [value]),
    .expr 11 (.assign 12 "y" value),
    .expr 13 (.binary 14 .ge (.ident 15 "x") value)]

theorem lowerProgram_dependence_mistaken :
    lowerProgram (mistaken 0 "int" (.int 1 2)) {} = lowerProgram (mistaken 7 "int" (.int 3 2)) {} ∧
    (lowerProgram (mistaken 0 "int" (.int 1 2)) {}).map Lowered.errors
      = (lowerProgram (mistaken 7 "string" (.int 3 4)) {}).map Lowered.errors ∧
    (lowerProgram (mistaken 0 "int" (.int 1 2)) {}).map Lowered.errors
      = .ok [.notAssignable "a" "parameter", .arityMismatch "f" 1 0, .unknownCallee "g",
          .undeclaredAssignment "y", .unsupportedOperator .ge] :=
  ⟨(lowerProgram_dependence _ _ {}).1 rfl, (lowerProgram_dependence _ _ {}).2 rfl, by
    decide +kernel⟩

end TreeCompiler.Lowering
