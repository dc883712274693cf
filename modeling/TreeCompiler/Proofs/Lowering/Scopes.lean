/-
What lowering leaves of the scopes.

Conditionals, loops and functions open regions, and each of them can fail before, inside and after
its region.  Whatever happens, the stack of scopes that a step leaves is the one it found, up to new
names in the innermost table.  Were a table left open on one way out of a construct, everything
after it would go to the wrong block.

Three relations between the scopes before and after a step are enough.  Most steps leave them equal.
Declaring a name keeps everything but adds to the innermost table (`Kept`).  Inside a region the
counter of a loop takes the place of a variable of that name, so less is known there: the tables
below are the same (`SameBelow`).  That is all that closing the region needs, and once it is closed
the scopes are equal again.

Nothing is assumed of the state, so all of this holds with no region open as well.
-/
import TreeCompiler.Proofs.Lowering.Step

namespace TreeCompiler.Lowering

open IR (FuncId BlockId InstId Ty Value Op)
open Program (Expr Stmt Block BinOp NodeId Param)

namespace ScopeStack

/-- As many tables, and the same ones below the innermost. -/
structure SameBelow (before after : ScopeStack) : Prop where
  depth : after.depth = before.depth
  below : after.scopes.tail = before.scopes.tail

/-- The innermost table still fills the same block, and whatever was bound or declared in it still
is. -/
structure Kept (before after : ScopeStack) : Prop extends SameBelow before after where
  cursor : after.cursor = before.cursor
  bound : ∀ name, (before.resolve name).isSome → (after.resolve name).isSome
  declared : ∀ name, (before.declOf name).isSome → (after.declOf name).isSome

variable {a b c : ScopeStack}

theorem SameBelow.refl (a : ScopeStack) : SameBelow a a := ⟨rfl, rfl⟩

theorem SameBelow.trans (hab : SameBelow a b) (hbc : SameBelow b c) : SameBelow a c :=
  ⟨hbc.depth.trans hab.depth, hbc.below.trans hab.below⟩

theorem Kept.refl (a : ScopeStack) : Kept a a :=
  { SameBelow.refl a with cursor := rfl, bound := fun _ => id, declared := fun _ => id }

theorem Kept.trans (hab : Kept a b) (hbc : Kept b c) : Kept a c :=
  { hab.toSameBelow.trans hbc.toSameBelow with
    cursor := hbc.cursor.trans hab.cursor
    bound := fun name h => hbc.bound name (hab.bound name h)
    declared := fun name h => hbc.declared name (hab.declared name h) }

theorem declare_eq_ok {name : String} {value : Value} {decl : Option DeclId}
    (h : a.declare name value decl = .ok b) : ∃ scope rest, a.scopes = scope :: rest ∧
      b = ⟨{ scope with bindings := (name, ⟨value, decl⟩) :: scope.bindings } :: rest⟩ := by
  unfold declare at h
  split at h
  · cases h
  · rename_i scope rest hscopes
    exact ⟨scope, rest, hscopes, (Except.ok.inj h).symm⟩

theorem sameBelow_of_declare {name : String} {value : Value} {decl : Option DeclId}
    (h : a.declare name value decl = .ok b) : SameBelow a b := by
  obtain ⟨scope, rest, hscopes, rfl⟩ := declare_eq_ok h
  exact ⟨by simp [depth, hscopes], by simp [hscopes]⟩

theorem lookup_of_declare {name : String} {value : Value} {decl : Option DeclId}
    (h : a.declare name value decl = .ok b) (other : String) :
    b.lookup other = if other = name then some ⟨value, decl⟩ else a.lookup other := by
  obtain ⟨scope, rest, hscopes, rfl⟩ := declare_eq_ok h
  by_cases heq : other = name
  · simp [lookup, heq]
  · have hne : (other == name) = false := beq_eq_false_iff_ne.mpr heq
    simp [lookup, hscopes, List.lookup_cons, heq, hne]

/-- A declaration adds its name, and any other name is as it was. -/
theorem kept_of_declare {name : String} {value : Value} {id : DeclId}
    (h : a.declare name value (some id) = .ok b) : Kept a b := by
  refine { sameBelow_of_declare h with cursor := ?_, bound := ?_, declared := ?_ }
  · obtain ⟨scope, rest, hscopes, rfl⟩ := declare_eq_ok h
    simp [ScopeStack.cursor, hscopes]
  · intro other hother
    rw [resolve, lookup_of_declare h]
    split
    · rfl
    · exact hother
  · intro other hother
    rw [declOf, lookup_of_declare h]
    split
    · rfl
    · exact hother

end ScopeStack

/-! ### Steps and the scopes they leave -/

variable {α β : Type}

/-- However a step ends, from any state, the scopes before and after it are related by `R`. -/
def ScopesBy (R : ScopeStack → ScopeStack → Prop) (x : LowerM α) : Prop :=
  ∀ s, R s.scopes (outcome x s).2.scopes

namespace ScopesBy

variable {R : ScopeStack → ScopeStack → Prop} {x : LowerM α} {k : α → LowerM β}

theorem bind_of_trans (htrans : ∀ {a b c}, R a b → R b c → R a c) (hx : ScopesBy R x)
    (hk : ∀ a, ScopesBy R (k a)) : ScopesBy R (x >>= k) := by
  intro s
  have hfirst := hx s
  rw [outcome_bind]
  rcases h : outcome x s with ⟨e | a, t⟩
  · simpa [h] using hfirst
  · rw [h] at hfirst
    exact htrans hfirst (hk a t)

theorem get_bind {k : Lowerer → LowerM α} (hk : ∀ s, ScopesBy R (k s)) : ScopesBy R (get >>= k) :=
  fun s => hk s s

end ScopesBy

/-- The step leaves the scopes as they are. -/
abbrev Restores (x : LowerM α) : Prop := ScopesBy Eq x

/-- The step leaves the tables below the innermost one as they are. -/
abbrev Contained (x : LowerM α) : Prop := ScopesBy ScopeStack.SameBelow x

/-- The step leaves the scopes as they are but for new names in the innermost table. -/
abbrev Confined (x : LowerM α) : Prop := ScopesBy ScopeStack.Kept x

section Relations

variable {x : LowerM α} {k : α → LowerM β}

theorem Restores.confined (hx : Restores x) : Confined x := fun s => by
  rw [← hx s]
  exact .refl _

theorem Confined.contained (hx : Confined x) : Contained x := fun s => (hx s).toSameBelow

theorem Restores.bind (hx : Restores x) (hk : ∀ a, Restores (k a)) : Restores (x >>= k) :=
  ScopesBy.bind_of_trans Eq.trans hx hk

theorem Contained.bind (hx : Contained x) (hk : ∀ a, Contained (k a)) : Contained (x >>= k) :=
  ScopesBy.bind_of_trans .trans hx hk

theorem Confined.bind (hx : Confined x) (hk : ∀ a, Confined (k a)) : Confined (x >>= k) :=
  ScopesBy.bind_of_trans .trans hx hk

/-- What follows leaves the scopes as the first step did. -/
theorem scopes_bind (hk : ∀ a, Restores (k a)) (s : Lowerer) :
    (outcome (x >>= k) s).2.scopes = (outcome x s).2.scopes := by
  rw [outcome_bind]
  rcases h : outcome x s with ⟨e | a, t⟩
  · rfl
  · exact (hk a t).symm

end Relations

/-! ### The elementary steps -/

section Steps

theorem restores_pure (a : α) : Restores (pure a : LowerM α) := fun _ => rfl

theorem restores_throw (e : LowerError) : Restores (throw e : LowerM α) := fun _ => rfl

theorem restores_cursor : Restores cursor := fun s => by rw [cursor, outcome_liftScopes]

theorem restores_addDecl (decl : Decl) : Restores (addDecl decl) := fun _ => rfl

theorem restores_updateFunction (func : FuncId) (change : IR.Function → α × IR.Function) :
    Restores (updateFunction func change) := fun _ => rfl

theorem restores_addFunction (name : String) (sig : IR.Signature) (linkage : IR.Linkage) :
    Restores (addFunction name sig linkage) := fun _ => rfl

theorem restores_addGlobalString (name text : String) : Restores (addGlobalString name text) :=
  fun _ => rfl

theorem restores_emit (step : IR.Function → BlockId → Value × IR.Function) : Restores (emit step) :=
  restores_cursor.bind fun _ => restores_updateFunction _ _

theorem restores_addIncoming (func : FuncId) (phi value : Value) (source : BlockId) :
    Restores (addIncoming func phi value source) := by
  refine .get_bind fun s => ?_
  split
  · exact fun _ => rfl
  · exact restores_throw _

theorem restores_materialize (value : Value) : Restores (materialize value) := by
  refine restores_cursor.bind fun c => Restores.bind (.get_bind fun _ => restores_pure _)
    fun ty => ?_
  split
  · exact restores_updateFunction _ _
  · exact restores_pure _

theorem contained_declare (name : String) (value : Value) (decl : Option DeclId) :
    Contained (declare name value decl) := by
  intro s
  rw [declare, outcome_changeScopes]
  cases h : s.scopes.declare name value decl with
  | ok scopes => exact ScopeStack.sameBelow_of_declare h
  | error e => exact .refl _

theorem confined_declare (name : String) (value : Value) (id : DeclId) :
    Confined (declare name value (some id)) := by
  intro s
  rw [declare, outcome_changeScopes]
  cases h : s.scopes.declare name value (some id) with
  | ok scopes => exact ScopeStack.kept_of_declare h
  | error e => exact .refl _

end Steps

/-! ### Regions -/

section Regions

variable {body : LowerM α}

/-- A table that is closed after a body that leaves those below it alone. -/
theorem scopes_closingScope (hbody : Contained body) {s : Lowerer} {scope : Scope}
    {scopes : List Scope} (hs : s.scopes.scopes = scope :: scopes) :
    (outcome (closingScope body) s).2.scopes = ⟨scopes⟩ := by
  rcases h : outcome body s with ⟨r, t⟩
  obtain ⟨hdepth, hbelow⟩ := hbody s
  rw [h] at hdepth hbelow
  have hne : t.scopes.scopes ≠ [] := by
    refine List.ne_nil_of_length_eq_add_one (n := scopes.length) ?_
    simpa [ScopeStack.depth, hs] using hdepth
  rw [outcome_closingScope h hne]
  show ScopeStack.mk t.scopes.scopes.tail = _
  rw [hbelow, hs]
  rfl

/-- **A region leaves no trace in the scopes.** -/
theorem restores_lowerRegion (hbody : Contained body) (c : Cursor) :
    Restores (lowerRegion c body) := by
  intro s
  rw [lowerRegion, outcome_bind, outcome_pushScopeCopy]
  rcases hs : s.scopes.scopes with _ | ⟨scope, rest⟩
  · rfl
  · have henter : (s.enter c).scopes.scopes = { scope with cursor := c } :: s.scopes.scopes := by
      simp [Lowerer.enter, hs]
    exact (scopes_closingScope hbody henter).symm

theorem restores_pushScope_closingScope (hbody : Contained body) (c : Cursor) :
    Restores (do pushScope c; closingScope body) := by
  intro s
  rw [outcome_bind_ok s _ (outcome_pushScope c)]
  exact (scopes_closingScope hbody (s := s.enterEmpty c) rfl).symm

end Regions

/-! ### Constructs -/

section Constructs

variable {x y z : LowerM (Option Value)}

theorem confined_recovering (hx : Confined x) : Confined (recovering x) := by
  intro s
  have hscopes := hx s
  rcases h : outcome x s with ⟨e | v, t⟩
  · rw [h] at hscopes
    rw [outcome_recovering_error h]
    split <;> exact hscopes
  · rw [outcome_recovering_ok h]
    rwa [h] at hscopes

theorem restores_ofOption (context : String) (value : Option Value) :
    Restores (match value with
      | some value => pure value
      | none => throw (.missingValue context) : LowerM Value) := by
  cases value
  · exact restores_throw _
  · exact restores_pure _

/-- An operand leaves the scopes as the step for it does. -/
theorem scopes_operand (x : LowerM (Option Value)) (context : String) (s : Lowerer) :
    (outcome (operand context x) s).2.scopes = (outcome x s).2.scopes :=
  (scopes_bind restores_materialize s).trans (scopes_bind (restores_ofOption context) s)

theorem confined_operand (hx : Confined x) (context : String) : Confined (operand context x) := by
  intro s
  rw [scopes_operand]
  exact hx s

theorem restores_lowerIdent (name : String) : Restores (lowerIdent name) := by
  refine .get_bind fun s => ?_
  split
  · exact restores_pure _
  · exact restores_throw _

theorem confined_lowerBinary (hx : Confined x) (hy : Confined y) (op : BinOp) :
    Confined (lowerBinary op x y) := by
  refine (confined_operand hx _).bind fun lhs => (confined_operand hy _).bind fun rhs => ?_
  split
  · exact (restores_emit _).confined
  · exact (restores_emit _).confined
  · exact (restores_throw _).confined

theorem confined_lowerAssign (hx : Confined x) (target : String) :
    Confined (lowerAssign target x) := by
  refine .get_bind fun s => ?_
  split
  · refine restores_cursor.confined.bind fun c =>
      Confined.bind (.get_bind fun _ => (restores_pure _).confined) fun ty => ?_
    split
    · exact .get_bind fun _ => (restores_throw _).confined
    · exact (confined_operand hx _).bind fun _ => (restores_emit _).confined
  · exact (restores_throw _).confined

theorem confined_lowerArg (hx : Confined x) (key : Option String) : Confined (lowerArg key x) := by
  refine (hx.bind fun value => (restores_ofOption _ value).confined).bind fun value => ?_
  split
  · refine .get_bind fun s => ?_
    split
    · exact (restores_materialize _).confined
    · exact (restores_pure _).confined
  · exact (restores_pure _).confined

theorem confined_lowerCall {args : LowerM (List Value)} (hargs : Confined args) (callee : String)
    (count : Nat) : Confined (lowerCall callee count args) := by
  refine .get_bind fun s => ?_
  split
  · refine .get_bind fun s => ?_
    dsimp only
    split
    · exact hargs.bind fun _ => (restores_emit _).confined
    · exact (restores_throw _).confined.bind fun _ =>
        hargs.bind fun _ => (restores_emit _).confined
  · exact (restores_throw _).confined

/-- A conditional leaves the scopes as its condition does. -/
theorem scopes_lowerIf (x : LowerM (Option Value)) (hy : Contained y) (hz : Contained z)
    (s : Lowerer) :
    (outcome (lowerIf x y z) s).2.scopes = (outcome x s).2.scopes := by
  refine (scopes_bind (fun cond => ?_) s).trans (scopes_operand x "condition" s)
  exact restores_cursor.bind fun _ => (restores_updateFunction _ _).bind fun _ =>
    (restores_updateFunction _ _).bind fun _ => (restores_updateFunction _ _).bind fun _ =>
    (restores_lowerRegion hy _).bind fun _ => (restores_lowerRegion hz _).bind fun _ =>
    restores_pure _

theorem contained_lowerLoopBody (hx : Contained x) (hy : Confined y) (before inside : Cursor)
    (start : Value) : Contained (lowerLoopBody before inside start x y) := by
  have still : ∀ {γ : Type} {w : LowerM γ}, Restores w → Contained w :=
    fun hw => hw.confined.contained
  refine .get_bind fun s => ?_
  refine (still (restores_updateFunction _ _)).bind fun counter =>
    (still (restores_addIncoming _ _ _ _)).bind fun _ => (contained_declare _ _ _).bind fun _ =>
    hx.bind fun _ => (still (restores_emit _)).bind fun next =>
    (confined_operand hy _).contained.bind fun bound => (still restores_cursor).bind
      fun closing => ?_
  exact still ((restores_updateFunction _ _).bind fun test =>
    (restores_updateFunction _ _).bind fun _ =>
    (restores_updateFunction _ _).bind fun _ => (restores_updateFunction _ _).bind fun after =>
    (restores_updateFunction _ _).bind fun _ => (restores_addIncoming _ _ _ _).bind fun _ =>
    restores_pure _)

/-- A loop leaves the scopes as its first bound does. -/
theorem scopes_lowerLoop (x : LowerM (Option Value)) (hy : Contained y) (hz : Confined z)
    (s : Lowerer) :
    (outcome (lowerLoop x y z) s).2.scopes = (outcome x s).2.scopes := by
  refine (scopes_bind (fun start => ?_) s).trans (scopes_operand x "loop start" s)
  exact restores_cursor.bind fun _ => (restores_updateFunction _ _).bind fun _ =>
    (restores_updateFunction _ _).bind fun _ =>
    (restores_lowerRegion (contained_lowerLoopBody hy hz _ _ _) _).bind fun _ =>
    (restores_updateFunction _ _).bind fun _ => restores_pure _

theorem confined_lowerVar (hx : Confined x) (node : NodeId) (ty name : String) :
    Confined (lowerVar node ty name x) :=
  (restores_emit _).confined.bind fun _ => (restores_addDecl _).confined.bind fun id =>
    (confined_declare _ _ id).bind fun _ => (confined_lowerAssign hx _).bind fun _ =>
    (restores_pure _).confined

theorem confined_declareParams (i : Nat) (params : List Param) :
    Confined (declareParams i params) := by
  induction params generalizing i with
  | nil => exact (restores_pure _).confined
  | cons p ps ih =>
    exact (restores_addDecl _).confined.bind fun id => (confined_declare _ _ id).bind fun _ => ih _

/-- A function declaration leaves the scopes as they are. -/
theorem restores_lowerFn (hx : Confined x) (retTy : Option String) (name : String)
    (params : List Param) (returns : Bool) : Restores (lowerFn retTy name params returns x) := by
  refine (restores_addFunction _ _ _).bind fun func => (restores_updateFunction _ _).bind fun _ =>
    (restores_updateFunction _ _).bind fun entry => restores_pushScope_closingScope ?_ _
  refine ((confined_declareParams _ _).bind fun _ => hx.bind fun _ => ?_).contained
  split
  · exact ((restores_emit _).bind fun _ => restores_pure _).confined
  · exact (restores_pure _).confined

end Constructs

/-! ### The walk -/

/-- A step whose value is passed on. -/
theorem Confined.map {x : LowerM α} (hx : Confined x) (g : α → β) : Confined (do return g (← x)) :=
  hx.bind fun _ => (restores_pure _).confined

mutual

theorem lowerExpr_confined : ∀ e : Expr, Confined (lowerExpr e)
  | .int .. | .double .. => (restores_pure _).confined
  | .string .. => (restores_addGlobalString _ _).confined.map _
  | .ident _ name => (restores_lowerIdent name).confined.map _
  | .call _ callee args => (confined_lowerCall (lowerArgs_confined args) callee _).map _
  | .binary _ op left right =>
    (confined_lowerBinary (lowerExpr_confined left) (lowerExpr_confined right) op).map _
  | .assign _ target value => (confined_lowerAssign (lowerExpr_confined value) target).map _
  | .ifElse _ cond thenBlock elseBlock => by
    refine Confined.map (fun s => ?_) fun _ => none
    rw [scopes_lowerIf _ (lowerBlock_confined thenBlock).contained
      (lowerBlock_confined elseBlock).contained]
    exact lowerExpr_confined cond s
  | .loop _ start limit body => by
    refine Confined.map (fun s => ?_) fun _ => none
    rw [scopes_lowerLoop _ (lowerBlock_confined body).contained (lowerExpr_confined limit)]
    exact lowerExpr_confined start s
  | .block _ body => lowerBlock_confined body

theorem lowerArgs_confined : ∀ args : List Expr, Confined (lowerArgs args)
  | [] => (restores_pure _).confined
  | arg :: args =>
    (confined_lowerArg (lowerExpr_confined arg) _).bind fun _ => (lowerArgs_confined args).map _

theorem lowerStmt_confined : ∀ stmt : Stmt, Confined (lowerStmt stmt)
  | .expr _ value => lowerExpr_confined value
  | .ret _ none => (restores_emit _).confined.map _
  | .ret _ (some value) =>
    Confined.map ((confined_operand (lowerExpr_confined value) _).bind fun _ =>
      (restores_emit _).confined) _
  | .var _ _ name none => (restores_lowerIdent name).confined.map _
  | .var id ty name (some init) => (confined_lowerVar (lowerExpr_confined init) id ty name).map _
  | .fn _ retTy name params body =>
    (restores_lowerFn (lowerBlock_confined body) retTy name params _).confined.map fun _ => none
  | .block _ body => lowerBlock_confined body

theorem lowerBlock_confined : ∀ block : Block, Confined (lowerBlock block)
  | .mk _ stmts => lowerStmts_confined stmts none

theorem lowerStmts_confined :
    ∀ (stmts : List Stmt) (last : Option Value), Confined (lowerStmts last stmts)
  | [], _ => (restores_pure _).confined
  | stmt :: stmts, _ =>
    (confined_recovering (lowerStmt_confined stmt)).bind fun value =>
      lowerStmts_confined stmts value

end

/-- **Scope discipline.**  From any state and however it ends, lowering leaves as many tables as it
found, the same ones below the innermost, and in the innermost one at most new names.  A function
declaration leaves them all alone; so do a conditional from where its condition has been lowered,
and a loop from where its first bound has been. -/
theorem lowering_keeps_scopes (s : Lowerer) :
    (∀ e : Expr, s.scopes.Kept (outcome (lowerExpr e) s).2.scopes) ∧
    (∀ stmt : Stmt, s.scopes.Kept (outcome (lowerStmt stmt) s).2.scopes) ∧
    (∀ block : Block, s.scopes.Kept (outcome (lowerBlock block) s).2.scopes) ∧
    (∀ id retTy name params body,
      (outcome (lowerStmt (.fn id retTy name params body)) s).2.scopes = s.scopes) ∧
    (∀ id cond thenBlock elseBlock,
      (outcome (lowerExpr (.ifElse id cond thenBlock elseBlock)) s).2.scopes
        = (outcome (lowerExpr cond) s).2.scopes) ∧
    ∀ id start limit body,
      (outcome (lowerExpr (.loop id start limit body)) s).2.scopes
        = (outcome (lowerExpr start) s).2.scopes := by
  refine ⟨fun e => lowerExpr_confined e s, fun stmt => lowerStmt_confined stmt s,
    fun block => lowerBlock_confined block s, fun _ retTy name params body => ?_,
    fun _ cond thenBlock elseBlock => ?_, fun _ start limit body => ?_⟩
  · have hfn := restores_lowerFn (lowerBlock_confined body) retTy name params body.hasTopLevelReturn
    exact (scopes_bind (fun _ => restores_pure _) s).trans (hfn s).symm
  · exact (scopes_bind (fun _ => restores_pure _) s).trans (scopes_lowerIf _
      (lowerBlock_confined thenBlock).contained (lowerBlock_confined elseBlock).contained s)
  · exact (scopes_bind (fun _ => restores_pure _) s).trans (scopes_lowerLoop _
      (lowerBlock_confined body).contained (lowerExpr_confined limit) s)

end TreeCompiler.Lowering
