/-
What the names of a program stand for.

A name is bound in three ways.  A declaration with a value binds it to a stack slot, a parameter to
an argument of the function around it, and a loop binds the name of its counter to a phi.  The first
two are entered into the record of declarations, the third is not.  Bindings, record and
instructions are kept apart, and lowering goes by all three: an assignment looks for a slot in the
function and blames the record if there is none, and an argument of a call is loaded only if the
record knows its name.

That the three stay in step is `Consistent`: every binding in every open table plays one `Role`.  It
holds in every state that lowering passes through.  Tables are copied into regions of the same
function, functions only grow there, and the one place where a name loses its declaration is the
counter of a loop.
-/
import TreeCompiler.Proofs.IR.ControlFlow
import TreeCompiler.Proofs.Lowering.Journey
import TreeCompiler.Proofs.Lowering.Scopes
import TreeCompiler.Proofs.Lowering.Success

namespace TreeCompiler.Lowering

open IR (FuncId BlockId InstId Ty Value Op)
open Program (Expr Stmt Block BinOp NodeId Param)

/-! ### Roles -/

/-- What a name can stand for. -/
inductive Role where
  | slot
  | parameter
  | counter
  deriving DecidableEq, Repr

/-- What an assignment to a name is told, if it is refused. -/
def Role.refusal : Role → Option Unassignable
  | .slot => none
  | .parameter => some .parameter
  | .counter => some .loopCounter

/-- What a binding of `name` in function `f` has to be for each role: a slot of the declared type,
an argument of the declared type, or a phi without a declaration. -/
inductive Plays (decls : List Decl) (counterName : String) (f : IR.Function) (name : String) :
    Binding → Role → Prop
  | slot {k : InstId} {ty : Ty} {id : DeclId} {node : NodeId}
      (alloca : f.slotType (.inst k) = some ty)
      (decl : decls[id]? = some { node, name, ty, kind := .variable }) :
      Plays decls counterName f name ⟨.inst k, some id⟩ .slot
  | parameter {i : Nat} {ty : Ty} {id : DeclId} {node : NodeId} (param : f.sig.params[i]? = some ty)
      (decl : decls[id]? = some { node, name, ty, kind := .parameter }) :
      Plays decls counterName f name ⟨.param i, some id⟩ .parameter
  | counter {k : InstId} {i : IR.Inst} (inst : f.insts[k]? = some i) (phi : i.op.isPhi = true)
      (float : i.ty = .f64) (named : name = counterName) :
      Plays decls counterName f name ⟨.inst k, none⟩ .counter

namespace Plays

variable {decls decls' : List Decl} {counterName name : String} {f g : IR.Function} {b : Binding}
  {role role' : Role}

theorem unique (h : Plays decls counterName f name b role)
    (h' : Plays decls counterName f name b role') : role' = role := by
  cases h <;> cases h' <;> rfl

/-- Neither more declarations nor more instructions change what a binding is. -/
theorem mono (h : Plays decls counterName f name b role) (hdecls : decls <+: decls')
    (hfg : f.Keeps g) : Plays decls' counterName g name b role := by
  have hdecl : ∀ {id : DeclId} {decl : Decl}, decls[id]? = some decl → decls'[id]? = some decl := by
    intro id decl hid
    obtain ⟨more, rfl⟩ := hdecls
    rwa [List.getElem?_append_left (List.getElem?_eq_some_iff.mp hid).1]
  cases h with
  | slot alloca decl => exact .slot (hfg.slotType alloca) (hdecl decl)
  | parameter param decl => exact .parameter (by rwa [hfg.sig]) (hdecl decl)
  | counter inst phi float named =>
    obtain ⟨i', hi', hty, -, hop⟩ := hfg.insts inst
    refine .counter hi' ?_ (hty.trans float) named
    rcases hop with heq | ⟨-, hphi⟩
    · rwa [heq]
    · exact hphi

end Plays

/-! ### The invariant -/

/-- An error other than the refusal of an assignment to what is neither a parameter nor a
counter. -/
def Justified (e : LowerError) : Prop := ∀ name, e ≠ .notAssignable name Unassignable.value.text

/-- Every binding of every open table plays a role in the function of that table. -/
structure Lowerer.Consistent (s : Lowerer) : Prop where
  functions : ∀ scope ∈ s.scopes.scopes, scope.cursor.func < s.code.functions.length
  roles : ∀ scope ∈ s.scopes.scopes, ∀ entry ∈ scope.bindings, ∃ role,
    Plays s.decls s.options.inductionName (s.code.function scope.cursor.func) entry.1 entry.2 role
  errors : ∀ e ∈ s.errors, Justified e

/-- The latest declaration stands where its number says. -/
theorem getElem?_record (s : Lowerer) (decl : Decl) :
    (s.record decl).decls[s.decls.length]? = some decl := by
  simp [Lowerer.record]

namespace Lowerer.Consistent

variable {s t : Lowerer} {c : Cursor}

theorem func_lt (hs : s.Consistent) (hc : s.At c) : c.func < s.code.functions.length := by
  obtain ⟨scope, rest, hscopes, rfl⟩ := hc.scopes
  exact hs.functions scope (by simp [hscopes])

theorem role (hs : s.Consistent) (hc : s.At c) {name : String} {b : Binding}
    (hb : s.scopes.lookup name = some b) :
    ∃ role, Plays s.decls s.options.inductionName (s.body c) name b role := by
  obtain ⟨scope, rest, hscopes, rfl⟩ := hc.scopes
  simp only [ScopeStack.lookup, hscopes] at hb
  obtain ⟨front, back, happ, -⟩ := List.lookup_eq_some_iff.mp hb
  exact hs.roles scope (by simp [hscopes]) (name, b) (by simp [happ])

/-- More declarations and instructions, with the tables as they are. -/
theorem grow (hs : s.Consistent) (hscopes : t.scopes = s.scopes) (hoptions : t.options = s.options)
    (hdecls : s.decls <+: t.decls) (hlength : s.code.functions.length ≤ t.code.functions.length)
    (hkeeps : ∀ f, f < s.code.functions.length → (s.code.function f).Keeps (t.code.function f))
    (herrors : t.errors = s.errors) : t.Consistent := by
  refine ⟨fun scope hscope => ?_, fun scope hscope entry hentry => ?_, ?_⟩
  · rw [hscopes] at hscope
    exact Nat.lt_of_lt_of_le (hs.functions scope hscope) hlength
  · rw [hscopes] at hscope
    obtain ⟨role, hrole⟩ := hs.roles scope hscope entry hentry
    rw [hoptions]
    exact ⟨role, hrole.mono hdecls (hkeeps _ (hs.functions scope hscope))⟩
  · rw [herrors]
    exact hs.errors

theorem update (hs : s.Consistent) (func : FuncId) (change : IR.Function → IR.Function)
    (hchange : (s.code.function func).Keeps (change (s.code.function func))) :
    (s.update func change).Consistent := by
  refine hs.grow rfl rfl (List.prefix_refl _) (by simp) (fun f hf => ?_) rfl
  by_cases heq : f = func
  · subst heq
    rwa [Lowerer.function_update_self change hf]
  · rw [Lowerer.function_update_ne change heq]
    exact .refl _

theorem record (hs : s.Consistent) (decl : Decl) : (s.record decl).Consistent :=
  hs.grow rfl rfl (List.prefix_append _ _) (Nat.le_refl _) (fun _ _ => .refl _) rfl

theorem recordError (hs : s.Consistent) {e : LowerError} (he : Justified e) :
    ({ s with errors := s.errors ++ [e] } : Lowerer).Consistent := by
  refine ⟨hs.functions, hs.roles, fun e' he' => ?_⟩
  rcases List.mem_append.mp he' with hold | hnew
  · exact hs.errors e' hold
  · rwa [List.mem_singleton.mp hnew]

/-- A state with other tables, all of whose bindings play roles. -/
theorem withScopes (hs : s.Consistent) {scopes : ScopeStack}
    (h : ∀ scope ∈ scopes.scopes, scope ∈ s.scopes.scopes ∨
      scope.cursor.func < s.code.functions.length ∧
      ∀ entry ∈ scope.bindings, ∃ role, Plays s.decls s.options.inductionName
        (s.code.function scope.cursor.func) entry.1 entry.2 role) :
    ({ s with scopes } : Lowerer).Consistent := by
  refine ⟨fun scope hscope => ?_, fun scope hscope => ?_, hs.errors⟩
  · rcases h scope hscope with hold | ⟨hfunc, -⟩
    · exact hs.functions scope hold
    · exact hfunc
  · rcases h scope hscope with hold | ⟨-, hroles⟩
    · exact hs.roles scope hold
    · exact hroles

theorem enterEmpty (hs : s.Consistent) (hc : c.func < s.code.functions.length) :
    (s.enterEmpty c).Consistent := by
  refine hs.withScopes fun scope hscope => ?_
  rcases List.mem_cons.mp hscope with rfl | hold
  · exact .inr ⟨hc, by simp⟩
  · exact .inl hold

/-- The table of a region is a copy of the one around it, in the same function. -/
theorem enter (hs : s.Consistent) {d : Cursor} (hd : s.At d) (hc : c.func = d.func) :
    (s.enter c).Consistent := by
  obtain ⟨scope, rest, hscopes, rfl⟩ := hd.scopes
  have hmem : scope ∈ s.scopes.scopes := by simp [hscopes]
  have henter : s.enter c
      = { s with scopes := ⟨{ scope with cursor := c } :: s.scopes.scopes⟩ } := by
    simp only [Lowerer.enter, hscopes]
  rw [henter]
  refine hs.withScopes fun other hother => ?_
  rcases List.mem_cons.mp hother with rfl | hold
  · refine .inr ⟨?_, ?_⟩
    · rw [show ({ scope with cursor := c } : Scope).cursor.func = scope.cursor.func from hc]
      exact hs.functions scope hmem
    · rw [show ({ scope with cursor := c } : Scope).cursor.func = scope.cursor.func from hc]
      exact hs.roles scope hmem
  · exact .inl hold

theorem leave (hs : s.Consistent) : s.leave.Consistent :=
  hs.withScopes fun _ hscope => .inl (List.mem_of_mem_tail hscope)

theorem bindName (hs : s.Consistent) (hc : s.At c) {name : String} {value : Value}
    {decl : Option DeclId} {role : Role}
    (hplays : Plays s.decls s.options.inductionName (s.body c) name ⟨value, decl⟩ role) :
    (s.bindName name value decl).Consistent := by
  obtain ⟨scope, rest, hscopes, rfl⟩ := hc.scopes
  simp only [Lowerer.bindName, hscopes]
  refine hs.withScopes fun other hother => ?_
  rcases List.mem_cons.mp hother with rfl | hold
  · refine .inr ⟨hs.functions scope (by simp [hscopes]), fun entry hentry => ?_⟩
    rcases List.mem_cons.mp hentry with rfl | hold
    · exact ⟨role, hplays⟩
    · exact hs.roles scope (by simp [hscopes]) entry hold
  · exact .inl (by simp [hscopes, hold])

theorem emit (hs : s.Consistent) (c : Cursor) (op : Op) (ty : Ty) (name : Option String) :
    (s.emit c op ty name).Consistent :=
  hs.update c.func _ (.ofGrows (.push _ _ _ _ _))

/-- A declared variable is bound to the slot that was made for it. -/
theorem declareVariable (hs : s.Consistent) (hc : s.At c) (node : NodeId) (ty : Ty)
    (name : String) :
    (s.declareVariable c node ty name).Consistent := by
  refine ((hs.emit c _ _ _).record _).bindName hc (.slot ?_ (getElem?_record _ _))
  exact IR.Function.slotType_eq_some_iff.mpr ⟨_, _, rfl, getElem?_emit (hs.func_lt hc) _ _ _, rfl⟩

/-- A parameter is bound to the argument of the function whose table is open. -/
theorem bindParameter (hs : s.Consistent) (hc : s.At c) {i : Nat} {p : Param}
    (hparam : (s.body c).sig.params[i]? = some (typeOf p.ty)) :
    ((s.record { node := p.id, name := p.name, ty := typeOf p.ty, kind := .parameter }).bindName
      p.name (.param i) (some s.decls.length)).Consistent :=
  (hs.record _).bindName hc (.parameter hparam (getElem?_record s _))

/-- The counter of a loop is bound to a phi. -/
theorem bindCounter (hs : s.Consistent) (hc : s.At c) (incoming : List (Value × BlockId)) :
    ((s.emit c (.phi incoming) .f64 (some s.options.inductionName)).bindName
      s.options.inductionName (.inst (s.body c).insts.length) none).Consistent :=
  (hs.emit c _ _ _).bindName hc (.counter (getElem?_emit (hs.func_lt hc) _ _ _) rfl rfl rfl)

end Lowerer.Consistent

/-! ### Steps that keep the invariant -/

/-- All states of a journey from `s` are consistent, and the error that may end it is justified. -/
abbrev Steady {α : Type} {x : LowerM α} (j : Journey x) (s : Lowerer) : Prop :=
  Throughout Lowerer.Consistent Justified j s

/-- A journey that keeps the invariant wherever it starts. -/
def Maintains {α : Type} {x : LowerM α} (j : Journey x) : Prop :=
  ∀ s : Lowerer, s.Consistent → Steady j s

/-- A step that leaves a consistent state if it finds one. -/
def Stable {α : Type} (x : LowerM α) :
    Prop := ∀ s : Lowerer, s.Consistent → (outcome x s).2.Consistent

section Steps

variable {α β : Type} {s : Lowerer} {c : Cursor} {x : LowerM α} {k : α → LowerM β}

theorem Maintains.stable {j : Journey x} (hj : Maintains j) :
    Stable x := fun s hs => (hj s hs).after

theorem Stable.bind (hx : Stable x) (hk : ∀ a, Stable (k a)) : Stable (x >>= k) := by
  intro s hs
  have hfirst := hx s hs
  rw [outcome_bind]
  rcases h : outcome x s with ⟨e | a, t⟩ <;> rw [h] at hfirst
  · exact hfirst
  · exact hk a t hfirst

theorem Maintains.bind {first : Journey x} {rest : ∀ a, Journey (k a)} (hfirst : Maintains first)
    (hrest : ∀ a, Maintains (rest a)) : Maintains (.bind first rest) :=
  fun s hs => (hfirst s hs).seq fun a t _ ht => hrest a t ht

theorem Maintains.get_bind {k : Lowerer → LowerM α} {rest : ∀ s, Journey (k s)}
    (hrest : ∀ s, Maintains (rest s)) : Maintains (.bind (.step .get) rest) :=
  fun s hs => Throughout.get_bind (hrest s s hs)

theorem Maintains.either {c : Prop} [Decidable c] {x y : LowerM α} {j : Journey x} {k : Journey y}
    (hx : Maintains j) (hy : Maintains k) : Maintains (Journey.either (c := c) j k) :=
  fun s hs => .either (fun _ => hx s hs) fun _ => hy s hs

theorem maintains_pure (a : α) : Maintains (.step (.pure a)) := fun _ hs => .pure a hs

theorem maintains_throw {e : LowerError} (he : Justified e) :
    Maintains (.step (.throw e) : Journey (throw e : LowerM α)) :=
  fun _ hs => .throw he hs

/-- A step whose value is passed on. -/
theorem Maintains.map {j : Journey x} (hj : Maintains j) (g : α → β) : Maintains (j.map g) :=
  hj.bind fun _ => maintains_pure _

/-- A value that a step may have failed to give. -/
theorem maintains_ofOption (context : String) (value : Option Value) :
    Maintains (Journey.ofOption context value) := by
  cases value with
  | none => exact maintains_throw fun _ h => by cases h
  | some value => exact maintains_pure value

theorem maintains_cursor : Maintains (.step .cursor) := by
  intro s hs
  refine .step .cursor hs (by rwa [cursor, outcome_liftScopes]) fun e he => ?_
  rw [cursor, outcome_liftScopes] at he
  unfold ScopeStack.cursor at he
  split at he <;> cases he
  exact fun _ h => by cases h

/-- A change of one function that keeps what names rely on. -/
theorem stable_updateFunction (func : FuncId) (change : IR.Function → α × IR.Function)
    (hchange : ∀ f : IR.Function, f.Keeps (change f).2) : Stable (updateFunction func change) :=
  fun _ hs => hs.update func (fun f => (change f).2) (hchange _)

theorem maintains_createBlock (func : FuncId) (base : String) :
    Maintains (.step (.createBlock func base)) :=
  fun s hs => .step _ hs
    (stable_updateFunction func _ (fun f => .ofGrows (.createBlock 0 f base)) s hs)
    fun _ he => by cases he

theorem maintains_nameValue (func : FuncId) (value : Value) (name : String) :
    Maintains (.step (.nameValue func value name)) :=
  fun s hs => .step _ hs
    (stable_updateFunction func _ (fun f => .setValueName f value name) s hs) fun _ he => by
      cases he

theorem maintains_emitAt {step : IR.Function → BlockId → Value × IR.Function} {c : Cursor}
    {hx : Elementary (emitAt c step)}
    (hstep : ∀ f b, ∃ op ty name, step f b = f.push b op ty name) : Maintains (.step hx) := by
  intro s hs
  refine .step hx hs (stable_updateFunction c.func _ (fun f => ?_) s hs) fun _ he => by cases he
  obtain ⟨op, ty, name, heq⟩ := hstep f c.block
  rw [heq]
  exact .ofGrows (.push f c.block op ty name)

theorem maintains_emit {step : IR.Function → BlockId → Value × IR.Function}
    (hstep : ∀ f b, ∃ op ty name, step f b = f.push b op ty name) :
    Maintains (Journey.emit hstep) :=
  maintains_cursor.bind fun _ => maintains_emitAt hstep

theorem maintains_addDecl (decl : Decl) : Maintains (.step (.addDecl decl)) :=
  fun _ hs => .step (.addDecl decl) hs (hs.record decl) fun _ he => by cases he

theorem maintains_addGlobalString (name text : String) :
    Maintains (.step (.addGlobalString name text)) :=
  fun _ hs => .step (.addGlobalString name text) hs
    (hs.grow rfl rfl (List.prefix_refl _) (Nat.le_refl _) (fun _ _ => .refl _) rfl)
    fun _ he => by cases he

theorem maintains_addFunction (name : String) (sig : IR.Signature) (linkage : IR.Linkage) :
    Maintains (.step (.addFunction name sig linkage)) := by
  intro s hs
  refine .step (.addFunction name sig linkage) hs ?_ fun _ he => by cases he
  refine hs.grow rfl rfl (List.prefix_refl _) (by simp) (fun f hf => ?_) rfl
  simp only [outcome_addFunction]
  rw [IR.Module.function_addFunction_of_lt name sig linkage hf]
  exact .refl _

theorem maintains_nameParams (func : FuncId) (params : List Param) :
    Maintains (.step (.nameParams func params)) := by
  intro s hs
  refine .step _ hs (stable_updateFunction func _ (fun f => ?_) s hs) fun _ he => by cases he
  obtain ⟨names, hnames⟩ := foldl_setParamName params.zipIdx f
  rw [hnames]
  exact ⟨rfl, fun {_ i} hi => ⟨i, hi, rfl, rfl, .inl rfl⟩⟩

theorem keeps_addIncoming {f g : IR.Function} {phi value : Value} {source : BlockId}
    (h : f.addIncoming phi value source = .ok g) : f.Keeps g := by
  unfold IR.Function.addIncoming at h
  split at h
  · split at h
    · rename_i k incoming ty name block hk
      cases h
      exact .replacePhi hk rfl rfl rfl rfl
    · cases h
  · cases h

theorem maintains_addIncoming (func : FuncId) (phi value : Value) (source : BlockId) :
    Maintains (.step (.addIncoming func phi value source)) := by
  intro s hs
  obtain ⟨f, hf, hout⟩ | ⟨spelling, hout⟩ := outcome_addIncoming_cases s func phi value source
  · refine .step (.addIncoming func phi value source) hs ?_ fun e he => ?_ <;> rw [hout] at *
    · exact hs.update func (fun _ => f) (keeps_addIncoming hf)
    · cases he
  · refine .step (.addIncoming func phi value source) hs ?_ fun e he => ?_ <;> rw [hout] at *
    · exact hs
    · cases he
      exact fun _ h => by cases h

theorem maintains_popScope : Maintains (.step .popScope) := by
  intro s hs
  refine .step .popScope hs ?_ fun e he => ?_ <;> rw [outcome_popScope] at *
  · split
    · exact hs
    · exact hs.leave
  · split at he <;> cases he
    exact fun _ h => by cases h

/-- A name may be bound where the table keeps the invariant with it. -/
theorem steady_declare (hs : s.Consistent) (hc : s.At c) {name : String} {value : Value}
    {decl : Option DeclId} (hbound : (s.bindName name value decl).Consistent) :
    Steady (.step (.declare name value decl)) s := by
  have hout := outcome_declare (s := s) hc.ne_nil name value decl
  refine .step (.declare name value decl) hs ?_ fun e he => ?_
  · rwa [hout]
  · rw [hout] at he
    cases he

/-- A journey that keeps the invariant where the innermost table is that of a cursor. -/
def MaintainsAt (c : Cursor) {α : Type} {x : LowerM α} (j : Journey x) : Prop :=
  ∀ s : Lowerer, s.Consistent → s.At c → Steady j s

theorem Maintains.at (c : Cursor) {j : Journey x} (hj : Maintains j) : MaintainsAt c j :=
  fun s hs _ => hj s hs

theorem MaintainsAt.bind {first : Journey x} {rest : ∀ a, Journey (k a)}
    (hfirst : MaintainsAt c first) (hscopes : Restores x) (hrest : ∀ a, MaintainsAt c (rest a)) :
    MaintainsAt c (.bind first rest) := by
  intro s hs hc
  refine (hfirst s hs hc).seq fun a t h ht => hrest a t ht ?_
  have hsame := hscopes s
  rw [h] at hsame
  rwa [Lowerer.At, ← hsame]

/-- What comes last need not know the innermost table. -/
theorem MaintainsAt.andThen {first : Journey x} {rest : ∀ a, Journey (k a)}
    (hfirst : MaintainsAt c first) (hrest : ∀ a, Maintains (rest a)) :
    MaintainsAt c (.bind first rest) :=
  fun s hs hc => (hfirst s hs hc).seq fun a t _ ht => hrest a t ht

theorem maintains_cursor_bind {k : Cursor → LowerM α} {rest : ∀ c, Journey (k c)}
    (hrest : ∀ c, MaintainsAt c (rest c)) : Maintains (.bind (.step .cursor) rest) := by
  intro s hs
  refine .bind (maintains_cursor s hs) fun c t h => ?_
  obtain ⟨hc, rfl⟩ := cursor_succeeds h
  exact hrest c t hs hc

theorem steady_pushScope_closingScope {j : Journey x} (hs : s.Consistent)
    (hc : c.func < s.code.functions.length) (hbody : Steady j (s.enterEmpty c)) :
    Steady (.bind (.step (.pushScope c)) fun _ => j.closingScope) s :=
  .bind_ok (.step (.pushScope c) hs (hs.enterEmpty hc) fun _ he => by cases he)
    (outcome_pushScope c) (.closingScope hbody (maintains_popScope _ hbody.after))

/-- A region of the function of the innermost table. -/
theorem maintainsAt_lowerRegion {j : Journey x} {b : BlockId}
    (hbody : MaintainsAt { c with block := b } j) :
    MaintainsAt c (j.lowerRegion { c with block := b }) := by
  intro s hs hc
  obtain ⟨scope, rest, hscopes, -⟩ := hc.scopes
  have hout : outcome (pushScopeCopy { c with block := b }) s
      = (.ok (), s.enter { c with block := b }) := by
    rw [outcome_pushScopeCopy, if_neg (by simp [hscopes])]
  have henter : (s.enter { c with block := b }).Consistent := hs.enter hc rfl
  have hopened : (s.enter { c with block := b }).At { c with block := b } := by
    simp only [Lowerer.enter, hscopes]
    rfl
  have hinside := hbody _ henter hopened
  refine .bind_ok (.step (.pushScopeCopy _) hs ?_ fun e he => ?_) hout
    (.closingScope hinside (maintains_popScope _ hinside.after))
  · rw [hout]
    exact henter
  · rw [hout] at he
    cases he

end Steps

/-! ### Assignments and arguments -/

section Uses

variable {s : Lowerer} {c : Cursor} {x : LowerM (Option Value)}

/-- A name is refused by what it stands for, and is not refused if that is a slot. -/
theorem Plays.slotType_or_refusal {f : IR.Function} {name : String} {b : Binding} {role : Role}
    (h : Plays s.decls s.options.inductionName f name b role) (hb : s.scopes.lookup name = some b) :
    (role.refusal = none ∧ ∃ ty, f.slotType b.value = some ty) ∨
      f.slotType b.value = none ∧ role.refusal = some (unassignable s name) := by
  have hdecl : s.scopes.declOf name = b.decl := by
    rw [ScopeStack.declOf, hb]
    rfl
  cases h with
  | slot alloca decl => exact .inl ⟨rfl, _, alloca⟩
  | parameter param decl =>
    refine .inr ⟨rfl, ?_⟩
    simp only [unassignable, hdecl, Option.bind_some, decl]
    rfl
  | counter inst phi float named =>
    refine .inr ⟨?_, ?_⟩
    · rw [Option.eq_none_iff_forall_ne_some]
      intro ty hty
      obtain ⟨_, i', hk, hi', hop⟩ := IR.Function.slotType_eq_some_iff.mp hty
      cases hk
      rw [inst] at hi'
      cases hi'
      simp [hop, Op.isPhi] at phi
    · simp only [unassignable, hdecl, Option.bind_none]
      rfl

/-- A bound name without a slot is a parameter or a counter, and is refused as such. -/
theorem Lowerer.Consistent.justified_notAssignable (hs : s.Consistent) (hc : s.At c) {name : String}
    {b : Binding} (hb : s.scopes.lookup name = some b)
    (hslot : (s.body c).slotType b.value = none) :
    Justified (.notAssignable name (unassignable s name).text) := by
  intro other heq
  obtain ⟨role, hplays⟩ := hs.role hc hb
  obtain ⟨-, ty, hty⟩ | ⟨-, hrole⟩ := hplays.slotType_or_refusal hb
  · rw [hslot] at hty
    cases hty
  · generalize unassignable s name = what at hrole heq
    cases role <;> cases hrole <;> simp [Unassignable.text] at heq

theorem outcome_lowerAssign_bound (hc : s.At c) {name : String} {slot : Value}
    (hres : s.scopes.resolve name = some slot) :
    outcome (lowerAssign name x) s =
      ((s.body c).slotType slot).elim (.error (.notAssignable name (unassignable s name).text), s)
        fun _ => outcome (do
          let value ← operand "assigned value" x
          emit (·.store · value slot true)) s := by
  simp only [lowerAssign, outcome_get_bind, hres]
  rw [outcome_bind_ok s _ (outcome_cursor hc), outcome_bind_ok s _ (outcome_slotType c slot)]
  cases (s.body c).slotType slot <;> rfl

/-- An assignment to a bound name goes on if the name stands for a slot, and is refused
otherwise. -/
theorem outcome_lowerAssign_role (hc : s.At c) {name : String} {b : Binding} {role : Role}
    (hb : s.scopes.lookup name = some b)
    (hplays : Plays s.decls s.options.inductionName (s.body c) name b role) :
    outcome (lowerAssign name x) s =
      role.refusal.elim
        (outcome (do
          let value ← operand "assigned value" x
          emit (·.store · value b.value true)) s)
        fun what => (.error (.notAssignable name what.text), s) := by
  have hres : s.scopes.resolve name = some b.value := by
    rw [ScopeStack.resolve, hb]
    rfl
  rw [outcome_lowerAssign_bound hc hres]
  obtain ⟨hrole, ty, hty⟩ | ⟨hnone, hrole⟩ := hplays.slotType_or_refusal hb
  · rw [hrole, hty]
    rfl
  · rw [hrole, hnone]
    rfl

theorem outcome_materialize_elim (hc : s.At c) (value : Value) :
    outcome (materialize value) s =
      ((s.body c).slotType value).elim (.ok value, s)
        fun ty => outcome (emitAt c (·.load · ty value)) s := by
  rw [materialize, outcome_bind_ok s _ (outcome_cursor hc),
    outcome_bind_ok s _ (outcome_slotType c value)]
  cases (s.body c).slotType value <;> rfl

/-- A name that is passed to a function is loaded exactly if it stands for a slot. -/
theorem outcome_lowerArg_ident (hs : s.Consistent) (hc : s.At c) {id : NodeId} {name : String}
    {value : Value} (hres : s.scopes.resolve name = some value) :
    outcome (lowerArg (Expr.ident id name).bindingKey (lowerExpr (.ident id name))) s =
      ((s.body c).slotType value).elim (.ok value, s)
        fun ty => outcome (emitAt c (·.load · ty value)) s := by
  obtain ⟨b, hb, rfl⟩ : ∃ b, s.scopes.lookup name = some b ∧ b.value = value :=
    Option.map_eq_some_iff.mp hres
  have hvalue : outcome (required "call argument" (lowerExpr (.ident id name))) s
      = (.ok b.value, s) := by
    simp only [required, lowerExpr, lowerIdent, bind_assoc, pure_bind, outcome_get_bind, hres]
    rfl
  rw [lowerArg, outcome_bind_ok s _ hvalue]
  simp only [Expr.bindingKey, outcome_get_bind]
  split
  · exact outcome_materialize_elim hc b.value
  · -- Only a counter is not declared, and a counter has no slot.
    rename_i hdecl
    obtain ⟨role, hplays⟩ := hs.role hc hb
    rw [ScopeStack.declOf, hb] at hdecl
    have hnone : (s.body c).slotType b.value = none := by
      obtain ⟨hrole, -⟩ | ⟨hnone, -⟩ := hplays.slotType_or_refusal hb
      · cases hplays with
        | slot alloca decl => exact absurd rfl hdecl
        | parameter param decl => cases hrole
        | counter inst phi float named => cases hrole
      · exact hnone
    rw [hnone]
    rfl

end Uses

/-! ### Constructs -/

section Constructs

variable {s : Lowerer} {c : Cursor} {x y z : LowerM (Option Value)} {j : Journey x} {k : Journey y}
  {l : Journey z}

theorem maintains_slotType (c : Cursor) (value : Value) : Maintains (Journey.slotType c value) :=
  .get_bind fun _ => maintains_pure _

theorem maintains_materialize (value : Value) : Maintains (Journey.materialize value) := by
  refine maintains_cursor.bind fun c => (maintains_slotType c value).bind fun ty => ?_
  cases ty with
  | some ty => exact maintains_emitAt fun _ _ => ⟨_, _, _, rfl⟩
  | none => exact maintains_pure _

theorem maintains_required (hj : Maintains j) (context : String) :
    Maintains (j.required context) :=
  hj.bind (maintains_ofOption context)

theorem maintains_operand (hj : Maintains j) (context : String) : Maintains (j.operand context) :=
  (maintains_required hj context).bind maintains_materialize

theorem maintains_recovering (hj : Maintains j) : Maintains j.recovering :=
  fun s hs => (hj s hs).recovering fun _ _ ht he => ht.recordError he

theorem maintains_lowerIdent (name : String) : Maintains (Journey.lowerIdent name) := by
  refine .get_bind fun s => ?_
  generalize s.scopes.resolve name = value
  cases value with
  | some value => exact maintains_pure value
  | none => exact maintains_throw fun _ h => by cases h

theorem maintains_lowerBinary (hj : Maintains j) (hk : Maintains k) (op : BinOp) :
    Maintains (j.lowerBinary k op) := by
  refine (maintains_operand hj _).bind fun lhs => (maintains_operand hk _).bind fun rhs => ?_
  generalize lowerOp op = lowered
  match lowered with
  | some (.arith _) => exact maintains_emit _
  | some (.compare _) => exact maintains_emit _
  | none => exact maintains_throw fun _ h => by cases h

/-- The refusal of an assignment names a parameter or a counter. -/
theorem maintains_lowerAssign (hj : Maintains j) (target : String) :
    Maintains (j.lowerAssign target) := by
  intro s hs
  refine .get_bind ?_
  generalize hres : s.scopes.resolve target = value
  cases value with
  | none => exact .throw (fun _ h => by cases h) hs
  | some slot =>
    refine .bind (maintains_cursor s hs) fun c t hcursor => ?_
    obtain ⟨hc, rfl⟩ := cursor_succeeds hcursor
    refine .bind_ok (maintains_slotType c slot t hs) (outcome_slotType c slot) ?_
    generalize hslot : (t.body c).slotType slot = ty
    cases ty with
    | some ty => exact ((maintains_operand hj _).bind fun _ => maintains_emit _) _ hs
    | none =>
      obtain ⟨b, hb, rfl⟩ := Option.map_eq_some_iff.mp hres
      exact .get_bind (.throw (hs.justified_notAssignable hc hb hslot) hs)

theorem maintains_lowerArg (hj : Maintains j) (key : Option String) :
    Maintains (j.lowerArg key) := by
  refine (maintains_required hj _).bind fun value => ?_
  cases key with
  | some name =>
    exact .get_bind fun s => .either (maintains_materialize value) (maintains_pure value)
  | none => exact maintains_pure value

theorem maintains_lowerCall {args : LowerM (List Value)} {j : Journey args} (hj : Maintains j)
    (callee : String) (count : Nat) : Maintains (j.lowerCall callee count) := by
  refine .get_bind fun s => ?_
  generalize s.code.getFunction? callee = func
  cases func with
  | some func =>
    exact .get_bind fun s => .either (hj.bind fun _ => maintains_emit _)
      ((maintains_throw fun _ h => by cases h).bind fun _ => hj.bind fun _ => maintains_emit _)
  | none => exact maintains_throw fun _ h => by cases h

/-- Both arms are regions of the function around the conditional. -/
theorem maintains_lowerIf (hj : Maintains j) (hk : Maintains k) (hbelow : Contained y)
    (hl : Maintains l) : Maintains (j.lowerIf k l) := by
  refine (maintains_operand hj _).bind fun cond => maintains_cursor_bind fun c => ?_
  exact ((maintains_createBlock _ _).at c).bind (restores_updateFunction _ _) fun thenBlock =>
    ((maintains_createBlock _ _).at c).bind (restores_updateFunction _ _) fun elseBlock =>
    ((maintains_emitAt fun _ _ => ⟨_, _, _, rfl⟩).at c).bind (restores_updateFunction _ _) fun _ =>
    (maintainsAt_lowerRegion (hk.at _)).bind (restores_lowerRegion hbelow _) fun _ =>
    (maintainsAt_lowerRegion (hl.at _)).andThen fun _ => maintains_pure _

/-- A phi gets its first input as soon as it was added. -/
theorem outcome_firstIncoming (hf : c.func < s.code.functions.length) (name : String)
    (start : Value) (source : BlockId) :
    outcome (addIncoming c.func (.inst (s.body c).insts.length) start source)
        (s.emit c (.phi []) .f64 (some name))
      = (.ok (), s.emit c (.phi [(start, source)]) .f64 (some name)) := by
  rw [outcome_addIncoming (getElem?_emit hf _ _ _) start source, List.nil_append]
  exact congrArg _ (replace_emit hf _ _ _ _)

/-- The counter of a loop is bound to a phi of the function around the loop. -/
theorem maintainsAt_lowerLoopBody (hj : Maintains j) (hk : Maintains k) (before : Cursor)
    (b : BlockId) (start : Value) :
    MaintainsAt { before with block := b }
      (j.lowerLoopBody k before { before with block := b } start) := by
  intro s hs hc
  refine .get_bind (.bind_ok (maintains_emitAt (fun _ _ => ⟨_, _, _, rfl⟩) s hs)
    (outcome_emitAt rfl) ?_)
  refine .bind_ok (maintains_addIncoming _ _ _ _ _ (hs.emit _ _ _ _))
    (outcome_firstIncoming (hs.func_lt hc) _ start before.block) ?_
  -- From here on the name is bound, and nothing more has to be known of the state.
  refine (steady_declare (hs.emit _ _ _ _) hc (hs.bindCounter hc _)).seq fun _ t _ ht => ?_
  refine Maintains.bind hj (fun _ => ?_) t ht
  refine (maintains_emit _).bind fun next => (maintains_operand hk _).bind fun bound =>
    maintains_cursor.bind fun closing => ?_
  exact (maintains_emitAt fun _ _ => ⟨_, _, _, rfl⟩).bind fun test =>
    (maintains_nameValue _ _ _).bind fun _ => (maintains_nameValue _ _ _).bind fun _ =>
    (maintains_createBlock _ _).bind fun after =>
    (maintains_emitAt fun _ _ => ⟨_, _, _, rfl⟩).bind fun _ =>
    (maintains_addIncoming _ _ _ _).bind fun _ => maintains_pure _

theorem maintains_lowerLoop (hj : Maintains j) (hk : Maintains k) (hl : Maintains l) :
    Maintains (j.lowerLoop k l) := by
  refine (maintains_operand hj _).bind fun start => maintains_cursor_bind fun before => ?_
  exact ((maintains_createBlock _ _).at before).bind (restores_updateFunction _ _) fun loopBlock =>
    ((maintains_emitAt fun _ _ => ⟨_, _, _, rfl⟩).at before).bind
      (restores_updateFunction _ _) fun _ =>
    (maintainsAt_lowerRegion (maintainsAt_lowerLoopBody hk hl before loopBlock start)).andThen
      fun after => (maintains_emitAt fun _ _ => ⟨_, _, _, rfl⟩).bind fun _ => maintains_pure _

theorem maintains_lowerReturn (hj : Maintains j) : Maintains j.lowerReturn :=
  (maintains_operand hj _).bind fun _ => maintains_emit _

theorem maintains_lowerVar (hj : Maintains j) (node : NodeId) (ty name : String) :
    Maintains (j.lowerVar node ty name) := by
  intro s hs
  refine (maintains_emit _ s hs).seq fun slot t h ht => ?_
  obtain ⟨c, u, hcursor, hemit⟩ := (outcome_bind_eq_ok s).mp h
  obtain ⟨hc, rfl⟩ := cursor_succeeds hcursor
  rw [outcome_emitAt rfl] at hemit
  cases hemit
  refine .bind_ok (maintains_addDecl _ _ ht) (outcome_addDecl _) ?_
  refine (steady_declare (ht.record _) hc (hs.declareVariable hc node (typeOf ty) name)).seq
    fun _ v _ hv => ?_
  exact ((maintains_lowerAssign hj name).bind fun _ => maintains_pure _) v hv

/-- Parameters are bound to the arguments of the function whose table is open. -/
theorem steady_declareParams (params : List Param) : ∀ (i : Nat) (s : Lowerer), s.Consistent →
    s.At c → (s.body c).sig.params.drop i = params.map (typeOf ·.ty) →
    Steady (Journey.declareParams i params) s := by
  induction params with
  | nil => exact fun _ s hs _ _ => .pure _ hs
  | cons p ps ih =>
    intro i s hs hc hsig
    refine .bind_ok (maintains_addDecl _ _ hs) (outcome_addDecl _) ?_
    have hparam : (s.body c).sig.params[i]? = some (typeOf p.ty) := by
      rw [← List.head?_drop, hsig]
      rfl
    have hrest : (s.body c).sig.params.drop (i + 1) = ps.map (typeOf ·.ty) := by
      rw [← List.tail_drop, hsig]
      rfl
    refine (steady_declare (hs.record _) hc (hs.bindParameter hc hparam)).seq fun _ t h ht => ?_
    rw [outcome_declare (by exact hc.ne_nil)] at h
    cases h
    refine ih (i + 1) _ ht ((advances_bindName _ _ _ _).at_iff.mpr hc) ?_
    rwa [Lowerer.body, bindName_code]

/-- The body of a function is lowered in an empty table, after its parameters. -/
theorem steady_functionBody (hj : Maintains j) (params : List Param) {void : Prop} [Decidable void]
    (hs : s.Consistent) (hc : c.func < s.code.functions.length)
    (hsig : (s.body c).sig.params = params.map (typeOf ·.ty)) :
    Steady (.bind (.step (.pushScope c)) fun _ => Journey.closingScope <|
      .bind (Journey.declareParams 0 params) fun _ => .bind j fun _ =>
        Journey.either (c := void)
          (.bind (.emit (fun _ _ => ⟨_, _, _, rfl⟩) : Journey (emit (·.ret · none))) fun _ =>
            .step (.pure ()))
          (.step (.pure ()))) s := by
  refine steady_pushScope_closingScope hs hc ?_
  refine (steady_declareParams params 0 _ (hs.enterEmpty hc) rfl hsig).seq fun _ t _ ht => ?_
  exact (hj.bind fun _ => .either ((maintains_emit _).bind fun _ => maintains_pure _)
    (maintains_pure _)) t ht

theorem Lowerer.Consistent.addFunction (hs : s.Consistent) (name : String) (params : List Param)
    (ret : Ty) : (s.addFunction name params ret).Consistent := by
  have hadd := maintains_addFunction name (Lowerer.signature params ret) .internal s hs
  have hnamed := maintains_nameParams s.nextFunction.func params _ hadd.after
  exact (maintains_createBlock s.nextFunction.func "entry" _ hnamed.after).after

/-- The parameters of a function are bound to its arguments. -/
theorem Lowerer.Consistent.openFunction (hs : s.Consistent) (name : String) (params : List Param)
    (ret : Ty) : (s.openFunction name params ret).Consistent := by
  have hempty := (hs.addFunction name params ret).enterEmpty
    (nextFunction_lt_addFunction s name params ret)
  have hparams := (steady_declareParams params 0 _ hempty rfl
    (congrArg (·.params) (sig_body_addFunction s name params ret))).after
  rwa [outcome_declareParams (by simp [Lowerer.enterEmpty, ScopeStack.push])] at hparams

theorem maintains_lowerFn (hj : Maintains j) (retTy : Option String) (name : String)
    (params : List Param) (returns : Bool) : Maintains (j.lowerFn retTy name params returns) := by
  intro s hs
  have hadd := maintains_addFunction name (Lowerer.signature params (returnType retTy))
    .internal s hs
  have hnamed := maintains_nameParams s.nextFunction.func params _ hadd.after
  have hentry := maintains_createBlock s.nextFunction.func "entry" _ hnamed.after
  refine .bind_ok hadd rfl (.bind_ok hnamed rfl (.bind_ok hentry rfl ?_))
  exact steady_functionBody hj params hentry.after (nextFunction_lt_addFunction ..)
    (congrArg (·.params) (sig_body_addFunction s name params (returnType retTy)))

end Constructs

/-! ### The walk -/

theorem Maintains.node {n : Node} {way : Journey n.lower} (h : Maintains way) :
    Maintains (.node n way) :=
  fun s hs => (h s hs).node

mutual

theorem exprJourney_maintains : ∀ e : Expr, Maintains (exprJourney e)
  | .int .. | .double .. => .node (maintains_pure _)
  | .string .. => .node ((maintains_addGlobalString _ _).map _)
  | .ident _ name => .node ((maintains_lowerIdent name).map _)
  | .call _ callee args => .node ((maintains_lowerCall (argsJourney_maintains args) callee _).map _)
  | .binary _ op left right =>
    .node ((maintains_lowerBinary (exprJourney_maintains left) (exprJourney_maintains right)
      op).map _)
  | .assign _ target value =>
    .node ((maintains_lowerAssign (exprJourney_maintains value) target).map _)
  | .ifElse _ cond thenBlock elseBlock =>
    .node ((maintains_lowerIf (exprJourney_maintains cond) (blockJourney_maintains thenBlock)
      (lowerBlock_confined thenBlock).contained
        (blockJourney_maintains elseBlock)).map fun _ => none)
  | .loop _ start limit body =>
    .node ((maintains_lowerLoop (exprJourney_maintains start) (blockJourney_maintains body)
      (exprJourney_maintains limit)).map fun _ => none)
  | .block _ body => .node (blockJourney_maintains body)

theorem argsJourney_maintains : ∀ args : List Expr, Maintains (argsJourney args)
  | [] => maintains_pure _
  | arg :: args =>
    (maintains_lowerArg (exprJourney_maintains arg) _).bind fun _ =>
      (argsJourney_maintains args).map _

theorem stmtJourney_maintains : ∀ stmt : Stmt, Maintains (stmtJourney stmt)
  | .expr _ value => .node (exprJourney_maintains value)
  | .ret _ none => .node ((maintains_emit _).map _)
  | .ret _ (some value) => .node ((maintains_lowerReturn (exprJourney_maintains value)).map _)
  | .var _ _ name none => .node ((maintains_lowerIdent name).map _)
  | .var id ty name (some init) =>
    .node ((maintains_lowerVar (exprJourney_maintains init) id ty name).map _)
  | .fn _ retTy name params body =>
    .node ((maintains_lowerFn (blockJourney_maintains body) retTy name params _).map fun _ => none)
  | .block _ body => .node (blockJourney_maintains body)

theorem blockJourney_maintains : ∀ block : Block, Maintains (blockJourney block)
  | .mk _ stmts => .node (stmtsJourney_maintains stmts none)

theorem stmtsJourney_maintains : ∀ (stmts : List Stmt) (last : Option Value),
    Maintains (stmtsJourney stmts last)
  | [], _ => maintains_pure _
  | stmt :: stmts, _ =>
    (maintains_recovering (stmtJourney_maintains stmt)).bind fun value =>
      stmtsJourney_maintains stmts value

end

theorem lowerExpr_stable (e : Expr) : Stable (lowerExpr e) := (exprJourney_maintains e).stable

theorem lowerStmt_stable (stmt : Stmt) : Stable (lowerStmt stmt) :=
  (stmtJourney_maintains stmt).stable

theorem lowerBlock_stable (block : Block) : Stable (lowerBlock block) :=
  (blockJourney_maintains block).stable

/-! ### Programs -/

/-- What the tables of a state can be relied on for. -/
structure WellBound (s : Lowerer) : Prop where
  /-- A bound name plays exactly one role in the function of its table. -/
  role : ∀ scope ∈ s.scopes.scopes, ∀ name b, scope.bindings.lookup name = some b →
    ∃! role, Plays s.decls s.options.inductionName (s.code.function scope.cursor.func) name b role
  /-- What is declared in a table is bound in it. -/
  bound : ∀ outer, outer <:+ s.scopes.scopes → ∀ name,
    ((ScopeStack.mk outer).declOf name).isSome → ((ScopeStack.mk outer).resolve name).isSome
  /-- An assignment goes on for a slot, and is refused as a parameter or a counter for these. -/
  assign : ∀ c name b role (x : LowerM (Option Value)), s.At c → s.scopes.lookup name = some b →
    Plays s.decls s.options.inductionName (s.body c) name b role →
    outcome (lowerAssign name x) s =
      role.refusal.elim
        (outcome (do
          let value ← operand "assigned value" x
          emit (·.store · value b.value true)) s)
        fun what => (.error (.notAssignable name what.text), s)
  /-- A name that is passed to a function is loaded if it stands for a slot, and else passed as it
  is. -/
  argument : ∀ c id name value, s.At c → s.scopes.resolve name = some value →
    outcome (lowerArg (Expr.ident id name).bindingKey (lowerExpr (.ident id name))) s =
      ((s.body c).slotType value).elim (.ok value, s)
        fun ty => outcome (emitAt c (·.load · ty value)) s

theorem Lowerer.Consistent.wellBound {s : Lowerer} (hs : s.Consistent) : WellBound s where
  role scope hscope name b hb := by
    obtain ⟨front, back, happ, -⟩ := List.lookup_eq_some_iff.mp hb
    obtain ⟨role, hrole⟩ := hs.roles scope hscope (name, b) (by simp [happ])
    exact ⟨role, hrole, fun _ hother => hrole.unique hother⟩
  bound outer _ name h := by
    rw [ScopeStack.declOf] at h
    rw [ScopeStack.resolve, Option.isSome_map]
    exact Option.isSome_of_isSome_bind h
  assign _ _ _ _ _ hc hb hplays := outcome_lowerAssign_role hc hb hplays
  argument _ _ _ _ hc hres := outcome_lowerArg_ident hs hc hres

/-- The errors that a program is told. -/
def reported : Except LowerError Lowered → List LowerError
  | .error e => [e]
  | .ok l => l.errors

theorem start_consistent (options : Options) : (start options).Consistent := by
  refine ⟨fun scope hscope => ?_, fun scope hscope => ?_, by simp [start]⟩
  · exact (start_valid options scope hscope).1
  · obtain rfl : scope = { cursor := entryCursor } := by simpa [start] using hscope
    simp

/-- **Names, declarations and instructions stay in step.**  In every state that the lowering of a
program passes through, none left out, every bound name is a variable with its slot, a parameter or
a loop counter, and assignments and arguments are treated by which of them it is.  No assignment is
ever refused for another reason. -/
theorem lowerProgram_wellBound (root : Block) (options : Options) :
    (passed root options).IsChain Leads ∧
    (∀ s ∈ passed root options, WellBound s) ∧
    ∀ e ∈ reported (lowerProgram root options), Justified e := by
  have hstart := start_consistent options
  have hroot := blockJourney_maintains root (start options) hstart
  refine ⟨(programJourney root options).chain _, ?_, ?_⟩
  · have hempty : (initial options).Consistent :=
      ⟨by simp [initial], by simp [initial], by simp [initial]⟩
    have hall : Steady (programJourney root options) (initial options) :=
      .bind_ok (.step (.pushScope _) hempty hstart fun _ he => by cases he) rfl
        (hroot.seq fun _ t _ ht => maintains_popScope t ht)
    intro s hs
    rcases List.mem_cons.mp hs with rfl | hlater
    · exact hempty.wellBound
    · exact (hall.passed s hlater).wellBound
  · rw [lowerProgram_eq]
    rcases h : outcome (lowerBlock root) (start options) with ⟨e | v, t⟩
    · intro e' he'
      rw [List.mem_singleton.mp he']
      exact hroot.raised (by rw [h])
    · have hlast := hroot.after
      rw [h] at hlast
      exact hlast.errors

end TreeCompiler.Lowering
