/-
Reading and lowering side by side.

The reader of a program and its lowering keep step.  They are `Abreast` as long as what the reader
has in scope agrees with the names, the declarations and the functions of the state (`Sees`), and
they have come to the same nodes.  Two steps `Concur` if they end in the same way and are abreast
again; what the value of the one has to do with what the other has read is left open here.

There is a rule for each way to put steps together.  Most steps of lowering have no counterpart:
they add instructions, and nothing that is in scope changes (`Neutral`).  Faults of the compiler are
left aside: a step that ends in one goes with every step of reading.
-/
import Mathlib.Data.List.Forall2
import TreeCompiler.Proofs.Lowering.Locality
import TreeCompiler.Proofs.Lowering.Outline
import TreeCompiler.Proofs.Lowering.Reading

namespace TreeCompiler.IR

/-- A callee is found by its name in the directory. -/
theorem Module.lookup_directory (m : Module) (callee : String) :
    m.directory.functions.lookup callee
      = (m.getFunction? callee).map fun func => (m.function func).sig := by
  unfold directory getFunction? function
  dsimp only
  induction m.functions with
  | nil => rfl
  | cons f rest ih =>
    rw [List.map_cons, List.lookup_cons, List.findIdx?_cons]
    by_cases hname : f.name = callee
    · simp [hname]
    · have hne : (callee == f.name) = false := beq_eq_false_iff_ne.mpr (Ne.symm hname)
      simp [hname, hne, ih, Function.comp_def]

end TreeCompiler.IR

namespace TreeCompiler.Lowering

open IR (FuncId BlockId InstId Ty Value Op)
open Program (Expr Stmt Block BinOp NodeId Param)

/-! ### Agreement -/

/-- What a declaration declares its name as. -/
def Decl.meaning (decl : Decl) : Meaning :=
  match decl.kind with
  | .variable => .variable decl.ty
  | .parameter => .parameter decl.ty

/-- What the record says that a binding was declared as. -/
def Lowerer.meaning (s : Lowerer) (b : Binding) : Meaning :=
  (b.decl.bind (s.decls[·]?)).elim .counter Decl.meaning

/-- What a reader has in scope is what is in scope in the state. -/
structure Sees (options : Options) (scene : Scene) (s : Lowerer) : Prop where
  consistent : s.Consistent
  options : s.options = options
  functions : s.code.directory = ⟨scene.functions, scene.supply⟩
  names : ∀ name, scene.names.lookup name = (s.scopes.lookup name).map s.meaning

/-- Further declarations do not change what a bound name was declared as. -/
theorem Lowerer.Consistent.meaning_eq {s t : Lowerer} {name : String} {b : Binding}
    (hs : s.Consistent) (hb : s.scopes.lookup name = some b) (hdecls : s.decls <+: t.decls) :
    t.meaning b = s.meaning b := by
  have hkept : ∀ {id : DeclId} {decl : Decl}, s.decls[id]? = some decl →
      t.decls[id]? = some decl := by
    intro id decl hid
    obtain ⟨more, hmore⟩ := hdecls
    rwa [← hmore, List.getElem?_append_left (List.getElem?_eq_some_iff.mp hid).1]
  obtain ⟨c, hc⟩ | hnone := s.at_or_empty
  · obtain ⟨role, hplays⟩ := hs.role hc hb
    cases hplays with
    | slot alloca decl | parameter param decl => simp [Lowerer.meaning, decl, hkept decl]
    | counter inst phi float named => rfl
  · rw [ScopeStack.lookup, hnone] at hb
    cases hb

namespace Sees

variable {options : Options} {scene scene' : Scene} {s t : Lowerer} {c : Cursor}

/-- A later state in which the same names are bound. -/
theorem grow (h : Sees options scene s) (ht : t.Consistent) (hoptions : t.options = s.options)
    (hscopes : ∀ name, t.scopes.lookup name = s.scopes.lookup name) (hdecls : s.decls <+: t.decls)
    (hfunctions : t.code.directory = ⟨scene'.functions, scene'.supply⟩)
    (hnames : scene'.names = scene.names) : Sees options scene' t := by
  refine ⟨ht, hoptions.trans h.options, hfunctions, fun name => ?_⟩
  rw [hnames, h.names, hscopes]
  refine Option.map_congr fun b hb => ?_
  exact (h.consistent.meaning_eq hb hdecls).symm

theorem frame (h : Sees options scene s) (hst : SameFrame s t) (ht : t.Consistent) :
    Sees options scene t :=
  h.grow ht hst.options (fun _ => by rw [hst.scopes]) (hst.decls ▸ List.prefix_refl _)
    (hst.directory.trans h.functions) rfl

theorem emit (h : Sees options scene s) (c : Cursor) (op : Op) (ty : Ty) (name : Option String) :
    Sees options scene (s.emit c op ty name) :=
  h.frame (sameFrame_emit s c op ty name) (h.consistent.emit c op ty name)

theorem recordError (h : Sees options scene s) {e : LowerError} (he : Justified e) :
    Sees options scene { s with errors := s.errors ++ [e] } :=
  h.grow (h.consistent.recordError he) rfl (fun _ => rfl) (List.prefix_refl _) h.functions rfl

theorem record (h : Sees options scene s) (decl : Decl) : Sees options scene (s.record decl) :=
  h.grow (h.consistent.record decl) rfl (fun _ => rfl) (List.prefix_append _ _) h.functions rfl

/-- The table of a region starts as a copy. -/
theorem enter (h : Sees options scene s) (hc : s.At c) (b : BlockId) :
    Sees options scene (s.enter { c with block := b }) := by
  obtain ⟨scope, rest, hscopes, -⟩ := hc.scopes
  have henter := h.consistent.enter hc (c := { c with block := b }) rfl
  have hstate : s.enter { c with block := b }
      = { s with scopes := ⟨{ scope with cursor := { c with block := b } } :: scope :: rest⟩ } := by
    simp only [Lowerer.enter, hscopes]
  rw [hstate] at henter ⊢
  refine h.grow henter rfl (fun name => ?_) (List.prefix_refl _) h.functions rfl
  simp only [ScopeStack.lookup, hscopes]

/-- What a region declares is out of scope after it. -/
theorem leave {after : Scene} (h : Sees options scene s) (ht : Sees options after t)
    (hscopes : t.leave.scopes = s.scopes) (hdecls : s.decls <+: t.decls) :
    Sees options { after with names := scene.names } t.leave :=
  h.grow ht.consistent.leave (ht.options.trans h.options.symm) (fun _ => by rw [hscopes]) hdecls
    ht.functions rfl

/-- A name is bound in both. -/
theorem bindName (h : Sees options scene s) {name : String} {value : Value} {decl : Option DeclId}
    {meaning : Meaning} (hs : s.scopes.scopes ≠ [])
    (hbound : (s.bindName name value decl).Consistent)
    (hmeaning : s.meaning ⟨value, decl⟩ = meaning) :
    Sees options (scene.bind name meaning) (s.bindName name value decl) := by
  obtain ⟨scope, rest, hscopes⟩ := List.exists_cons_of_ne_nil hs
  have hstate : s.bindName name value decl = { s with
      scopes := ⟨{ scope with bindings := (name, ⟨value, decl⟩) :: scope.bindings } :: rest⟩ } := by
    simp only [Lowerer.bindName, hscopes]
  rw [hstate] at hbound ⊢
  refine ⟨hbound, h.options, h.functions, fun other => ?_⟩
  have hother := h.names other
  simp only [ScopeStack.lookup, hscopes] at hother
  simp only [Scene.bind, ScopeStack.lookup, List.lookup_cons]
  cases other == name with
  | true => exact congrArg some hmeaning.symm
  | false => exact hother

/-- A callee is found with the signature that was declared. -/
theorem lookup_callee (h : Sees options scene s) (callee : String) :
    scene.functions.lookup callee
      = (s.code.getFunction? callee).map fun func => (s.code.function func).sig := by
  rw [← IR.Module.lookup_directory, h.functions]

end Sees

/-! ### Functions -/

section Functions

variable {options : Options} {s : Lowerer} {c : Cursor}

theorem meaning_record (s : Lowerer) (decl : Decl) (value : Value) :
    (s.record decl).meaning ⟨value, some s.decls.length⟩ = decl.meaning := by
  simp [Lowerer.meaning, getElem?_record]

/-- Parameters are declared one after the other, the last of them first in scope. -/
theorem Sees.bindParams (params : List Param) : ∀ (i : Nat) {scene : Scene} {s : Lowerer},
    Sees options scene s → s.At c → (s.body c).sig.params.drop i = params.map (typeOf ·.ty) →
    Sees options
      { scene with
        names := (params.map fun p => (p.name, .parameter (typeOf p.ty))).reverse ++ scene.names }
      (s.bindParams i params) := by
  induction params with
  | nil => exact fun _ _ _ h _ _ => h
  | cons p ps ih =>
    intro i scene s h hc hsig
    have hparam : (s.body c).sig.params[i]? = some (typeOf p.ty) := by
      rw [← List.head?_drop, hsig]
      rfl
    have hrest : (s.body c).sig.params.drop (i + 1) = ps.map (typeOf ·.ty) := by
      rw [← List.tail_drop, hsig]
      rfl
    have hbound := (h.record _).bindName (by exact hc.ne_nil) (h.consistent.bindParameter hc hparam)
      (meaning_record _ _ _)
    have hnext := ih (i + 1) hbound ((advances_bindName _ _ _ _).at_iff.mpr hc) (by
      rwa [Lowerer.body, bindName_code])
    rw [Lowerer.bindParams]
    simpa [Scene.bind, Decl.meaning] using hnext

theorem directory_addFunction (s : Lowerer) (name : String) (params : List Param) (ret : Ty) :
    (s.addFunction name params ret).code.directory = {
      functions := s.code.directory.functions ++
        [(s.code.names.next "." name, Lowerer.signature params ret)],
      names := s.code.names.record name } := by
  have hentry := sameFrame_update (s.declareFunction name params ret) s.nextFunction.func
    (fun f => (f.createBlock "entry").2) rfl rfl
  have hnamed : SameFrame
      { s with code := (s.code.addFunction name (Lowerer.signature params ret) .internal).2 }
      (s.declareFunction name params ret) := by
    unfold Lowerer.declareFunction
    refine sameFrame_update _ s.nextFunction.func _ ?_ ?_
    all_goals
      obtain ⟨names, heq⟩ := foldl_setParamName params.zipIdx _
      rw [heq]
  refine hentry.directory.trans (hnamed.directory.trans ?_)
  simp [IR.Module.directory, IR.Module.addFunction, IR.Function.new]

/-- A function is in scope as its declaration says. -/
theorem Sees.addFunction {scene : Scene} (h : Sees options scene s) (retTy : Option String)
    (name : String) (params : List Param) :
    Sees options (scene.addFunction name (declaredSignature retTy params))
      (s.addFunction name params (returnType retTy)) := by
  have hsupply : s.code.names = scene.supply := congrArg IR.Directory.names h.functions
  have hret : returnType retTy = retTy.elim .void typeOf := by cases retTy <;> rfl
  refine h.grow (h.consistent.addFunction name params _) rfl (fun _ => rfl)
    (List.prefix_refl _) ?_ rfl
  rw [directory_addFunction, h.functions, hsupply, hret]
  rfl

/-- The body of a function sees its parameters and no other names. -/
theorem Sees.openFunction {scene : Scene} (h : Sees options scene s) (retTy : Option String)
    (name : String) (params : List Param) :
    Sees options ((scene.addFunction name (declaredSignature retTy params)).inFunction params)
      (s.openFunction name params (returnType retTy)) := by
  have hadded := h.addFunction retTy name params
  have hempty : Sees options
      { scene.addFunction name (declaredSignature retTy params) with names := [] }
      ((s.addFunction name params (returnType retTy)).enterEmpty s.nextFunction) :=
    ⟨hadded.consistent.enterEmpty (nextFunction_lt_addFunction ..), hadded.options,
      hadded.functions, fun _ => rfl⟩
  have hparams := hempty.bindParams (c := s.nextFunction) params 0 rfl
    (congrArg (·.params) (sig_body_addFunction s name params (returnType retTy)))
  rwa [List.append_nil] at hparams

end Functions

/-! ### Journeys without nodes -/

/-- A journey on which no node is come to. -/
def Journey.Unmarked {α : Type} {x : LowerM α} (j : Journey x) : Prop := ∀ s, j.arrivals s = []

section Unmarked

variable {α β : Type} {x : LowerM α} {k : α → LowerM β} {j : Journey x} {rest : ∀ a, Journey (k a)}

theorem Journey.Unmarked.step (hx : Elementary x) : (Journey.step hx).Unmarked := fun _ => rfl

theorem Journey.Unmarked.bind (hj : j.Unmarked) (hrest : ∀ a, (rest a).Unmarked) :
    (Journey.bind j rest).Unmarked := by
  intro s
  rcases hx : outcome x s with ⟨e | a, t⟩
  · rw [Journey.arrivals_bind_error _ _ hx, hj]
  · rw [Journey.arrivals_bind_ok _ _ hx, hj, hrest]
    rfl

theorem Journey.Unmarked.either {c : Prop} [hc : Decidable c] {x y : LowerM α} {j : Journey x}
    {k : Journey y} (hj : j.Unmarked) (hk : k.Unmarked) :
    (Journey.either (c := c) j k).Unmarked := by
  cases hc with
  | isTrue => exact hj
  | isFalse => exact hk

theorem unmarked_emit {step : IR.Function → BlockId → Value × IR.Function}
    (hstep : ∀ f b, ∃ op ty name, step f b = f.push b op ty name) :
    (Journey.emit hstep).Unmarked :=
  .bind (.step _) fun _ => .step _

theorem unmarked_slotType (c : Cursor) (v : Value) : (Journey.slotType c v).Unmarked :=
  .bind (.step _) fun _ => .step _

theorem unmarked_materialize (v : Value) : (Journey.materialize v).Unmarked :=
  .bind (.step _) fun c => .bind (unmarked_slotType c v) fun
    | some _ => .step _
    | none => .step _

theorem unmarked_declareParams (params : List Param) :
    ∀ i, (Journey.declareParams i params).Unmarked := by
  induction params with
  | nil => exact fun _ => .step _
  | cons p ps ih => exact fun i => .bind (.step _) fun _ => .bind (.step _) fun _ => ih (i + 1)

theorem arrivals_caught {α : Type} {x : LowerM α} (i : Journey x) (s : Lowerer) :
    (Journey.tryCatch (i.map Except.ok) fun e => .step (.pure (Except.error e))).arrivals s
      = i.arrivals s := by
  rcases hx : outcome x s with ⟨e | a, t⟩
  · rw [Journey.arrivals_tryCatch_error _ _ (outcome_bind_error s _ hx), Journey.map,
      Journey.arrivals_bind_error _ _ hx]
    exact List.append_nil _
  · have hmap : outcome (do return Except.ok (← x) : LowerM (Except LowerError α)) s
        = (.ok (.ok a), t) := outcome_bind_ok s _ hx
    rw [Journey.arrivals_tryCatch_ok _ _ hmap, Journey.map, Journey.arrivals_bind_ok _ _ hx]
    exact List.append_nil _

theorem arrivals_closingScope {α : Type} {x : LowerM α} (i : Journey x) (s : Lowerer) :
    i.closingScope.arrivals s = i.arrivals s := by
  rcases hx : outcome x s with ⟨result, t⟩
  refine (Journey.arrivals_bind_ok _ _ (outcome_caught hx)).trans ?_
  rw [arrivals_caught]
  refine (congrArg _ ?_).trans (List.append_nil _)
  exact Journey.Unmarked.bind (.step _) (fun _ => by cases result <;> exact .step _) t

theorem arrivals_recovering {x : LowerM (Option Value)} (j : Journey x) (s : Lowerer) :
    j.recovering.arrivals s = j.arrivals s := by
  have hrecover : ∀ e, (Journey.recover e).Unmarked := fun e => .bind (.step _) fun _ =>
    .either (.bind (.step _) fun _ => .bind (.step _) fun _ => .step _)
      (.bind (.step _) fun _ => .step _)
  rcases hx : outcome x s with ⟨e | a, t⟩
  · refine (Journey.arrivals_tryCatch_error _ _ hx).trans ?_
    rw [hrecover, List.append_nil]
  · exact Journey.arrivals_tryCatch_ok _ _ hx

end Unmarked

/-! ### Side by side -/

/-- A node that the reader has come to is one that lowering has come to, with the same in scope. -/
def Meets (options : Options) (reading : Reading) (arrival : Arrival) : Prop :=
  arrival.node = reading.node ∧ Sees options reading.scene arrival.state

/-- The reader and lowering have come to the same nodes, and see the same now. -/
structure Abreast (options : Options) (seen : List Arrival) (r : Reader) (s : Lowerer) : Prop where
  sees : Sees options r.scene s
  readings : List.Forall₂ (Meets options) r.readings seen

/-- A step of lowering and a step of reading ended in the same way and are abreast, or the first
ended in a fault of the compiler. -/
inductive Concurs {α β : Type} (options : Options) (V : Lowerer → α → β → Prop)
    (seen : List Arrival) : Except LowerError α × Lowerer → Option β × Reader → Prop
  | accepted {a : α} {b : β} {t : Lowerer} {r : Reader} (value : V t a b)
      (abreast : Abreast options seen r t) : Concurs options V seen (.ok a, t) (some b, r)
  | refused {e : LowerError} {t : Lowerer} {r : Reader} (justified : Justified e)
      (abreast : Abreast options seen r t) : Concurs options V seen (.error e, t) (none, r)
  | fault {e : LowerError} {t : Lowerer} {q : Option β × Reader} (internal : e.isInternal = true) :
      Concurs options V seen (.error e, t) q

/-- From wherever they are abreast the two steps concur. -/
def Follows {α β : Type} (options : Options) {x : LowerM α} (j : Journey x) (y : ReadM β)
    (V : Lowerer → α → β → Prop) : Prop :=
  ∀ seen r s, Abreast options seen r s →
    Concurs options V (seen ++ j.arrivals s) (outcome x s) (y.result r)

section Rules

variable {α α' β β' : Type} {options : Options} {V : Lowerer → α → β → Prop}
  {W : Lowerer → α' → β' → Prop} {x : LowerM α} {k : α → LowerM α'} {j : Journey x}
  {rest : ∀ a, Journey (k a)} {y : ReadM β} {l : β → ReadM β'} {s t : Lowerer} {r : Reader}
  {seen : List Arrival}

theorem Concurs.bind (h : Concurs options V (seen ++ j.arrivals s) (outcome x s) (y.result r))
    (hk : ∀ a b t r', outcome x s = (.ok a, t) → V t a b →
      Abreast options (seen ++ j.arrivals s) r' t →
      Concurs options W ((seen ++ j.arrivals s) ++ (rest a).arrivals t) (outcome (k a) t)
        ((l b).result r')) :
    Concurs options W (seen ++ (Journey.bind j rest).arrivals s) (outcome (x >>= k) s)
      ((y >>= l).result r) := by
  rcases hx : outcome x s with ⟨e | a, t⟩ <;> rcases hy : y.result r with ⟨_ | b, r'⟩ <;>
    rw [hx, hy] at h
  · rw [Journey.arrivals_bind_error _ _ hx, outcome_bind_error s k hx, result_bind_none hy]
    cases h with
    | refused justified abreast => exact .refused justified abreast
    | fault internal => exact .fault internal
  · rw [outcome_bind_error s k hx]
    cases h with
    | fault internal => exact .fault internal
  · cases h
  · rw [Journey.arrivals_bind_ok _ _ hx, outcome_bind_ok s k hx, result_bind_some hy,
      ← List.append_assoc]
    cases h with
    | accepted value abreast => exact hk a b t r' hx value abreast

/-- Lowering takes steps of its own that are known to succeed. -/
theorem Concurs.own_ok {a : α} {q : Option β' × Reader} (hj : j.Unmarked)
    (hok : outcome x s = (.ok a, t))
    (h : Concurs options W (seen ++ (rest a).arrivals t) (outcome (k a) t) q) :
    Concurs options W (seen ++ (Journey.bind j rest).arrivals s) (outcome (x >>= k) s) q := by
  rwa [Journey.arrivals_bind_ok _ _ hok, outcome_bind_ok s k hok, hj, List.nil_append]

theorem Concurs.step_ok {a : α} {q : Option β' × Reader} {hx : Elementary x}
    (hok : outcome x s = (.ok a, t))
    (h : Concurs options W (seen ++ (rest a).arrivals t) (outcome (k a) t) q) :
    Concurs options W (seen ++ (Journey.bind (.step hx) rest).arrivals s)
      (outcome (x >>= k) s) q :=
  .own_ok (.step hx) hok h

/-- Lowering takes a step of its own that changes nothing that is in scope. -/
theorem Concurs.neutral_bind {q : Option β' × Reader} (hj : j.Unmarked) (hx : Neutral x)
    (h : Abreast options seen r s)
    (hk : ∀ a t, outcome x s = (.ok a, t) → SameFrame s t → Abreast options seen r t →
      Concurs options W (seen ++ (rest a).arrivals t) (outcome (k a) t) q) :
    Concurs options W (seen ++ (Journey.bind j rest).arrivals s) (outcome (x >>= k) s) q := by
  have hstable := hx.stable s h.sees.consistent
  have hframe := hx.frame s
  have hfault := hx.fault s
  rcases hok : outcome x s with ⟨e | a, t⟩ <;> rw [hok] at hstable hframe hfault
  · rw [outcome_bind_error s k hok]
    exact .fault (hfault e rfl)
  · rw [Journey.arrivals_bind_ok _ _ hok, outcome_bind_ok s k hok, hj, List.nil_append]
    exact hk a t hok hframe ⟨h.sees.frame hframe hstable, h.readings⟩

/-- Lowering ends with a step of its own that changes nothing that is in scope. -/
theorem Concurs.neutral {b : β} (hj : j.Unmarked) (hx : Neutral x) (h : Abreast options seen r s)
    (hvalue : ∀ a t, outcome x s = (.ok a, t) → SameFrame s t → t.Consistent → V t a b) :
    Concurs options V (seen ++ j.arrivals s) (outcome x s) (some b, r) := by
  have hstable := hx.stable s h.sees.consistent
  have hframe := hx.frame s
  have hfault := hx.fault s
  rw [hj, List.append_nil]
  rcases hok : outcome x s with ⟨e | a, t⟩ <;> rw [hok] at hstable hframe hfault
  · exact .fault (hfault e rfl)
  · exact .accepted (hvalue a t hok hframe hstable) ⟨h.sees.frame hframe hstable, h.readings⟩

theorem Concurs.pure {a : α} {b : β} {hx : Elementary (pure a : LowerM α)}
    (h : Abreast options seen r s) (hvalue : V s a b) :
    Concurs options V (seen ++ (Journey.step hx).arrivals s) (outcome (pure a : LowerM α) s)
      (some b, r) :=
  .accepted hvalue (by rwa [Journey.arrivals, List.append_nil])

theorem Concurs.throw {e : LowerError} {hx : Elementary (throw e : LowerM α)}
    (h : Abreast options seen r s) (he : Justified e) :
    Concurs options V (seen ++ (Journey.step hx).arrivals s) (outcome (throw e : LowerM α) s)
      (none, r) :=
  .refused he (by rwa [Journey.arrivals, List.append_nil])

theorem Concurs.throw_bind {e : LowerError} {k : α → LowerM α'} {rest : ∀ a, Journey (k a)}
    {hx : Elementary (MonadExcept.throw e : LowerM α)} (h : Abreast options seen r s)
    (he : Justified e) :
    Concurs options W (seen ++ (Journey.bind (.step hx) rest).arrivals s)
      (outcome ((MonadExcept.throw e : LowerM α) >>= k) s) (none, r) :=
  .refused he (by
    rwa [Journey.arrivals_bind_error (.step hx) rest (s := s) rfl, Journey.arrivals,
      List.append_nil])

theorem Concurs.imp {V' : Lowerer → α → β → Prop} {p : Except LowerError α × Lowerer}
    {q : Option β × Reader} (h : Concurs options V seen p q)
    (hvalue : ∀ t a b, V t a b → V' t a b) :
    Concurs options V' seen p q := by
  cases h with
  | accepted value abreast => exact .accepted (hvalue _ _ _ value) abreast
  | refused justified abreast => exact .refused justified abreast
  | fault internal => exact .fault internal

/-- Either of two steps. -/
theorem Concurs.either {c : Prop} [hc : Decidable c] {x x' : LowerM α} {j : Journey x}
    {j' : Journey x'} {q : Option β × Reader}
    (h : c → Concurs options V (seen ++ j.arrivals s) (outcome x s) q)
    (h' : ¬c → Concurs options V (seen ++ j'.arrivals s) (outcome x' s) q) :
    Concurs options V (seen ++ (Journey.either (c := c) j j').arrivals s)
      (outcome (if c then x else x') s) q := by
  cases hc with
  | isTrue hc => exact h hc
  | isFalse hc => exact h' hc

/-- Lowering goes on by itself after the two have concurred. -/
theorem Concurs.andThen {W : Lowerer → α' → β → Prop} {q : Option β × Reader}
    (h : Concurs options V (seen ++ j.arrivals s) (outcome x s) q)
    (hk : ∀ a b t r', V t a b → Abreast options (seen ++ j.arrivals s) r' t →
      Concurs options W ((seen ++ j.arrivals s) ++ (rest a).arrivals t) (outcome (k a) t)
        (some b, r')) :
    Concurs options W (seen ++ (Journey.bind j rest).arrivals s) (outcome (x >>= k) s) q := by
  rcases hx : outcome x s with ⟨e | a, t⟩ <;> rw [hx] at h
  · rw [Journey.arrivals_bind_error _ _ hx, outcome_bind_error s k hx]
    cases h with
    | refused justified abreast => exact .refused justified abreast
    | fault internal => exact .fault internal
  · rw [Journey.arrivals_bind_ok _ _ hx, outcome_bind_ok s k hx, ← List.append_assoc]
    cases h with
    | accepted value abreast => exact hk a _ t _ value abreast

/-- Lowering comes to a node, and so does the reader. -/
theorem Follows.node {n : Node} {way : Journey n.lower} {y : ReadM β}
    {V : Lowerer → Option Value → β → Prop} (h : Follows options way y V) :
    Follows options (.node n way) (do note n; y) V := by
  intro seen r s hrs
  rw [result_note_bind, Journey.arrivals, List.append_cons]
  refine h _ _ s ⟨hrs.sees, ?_⟩
  exact List.rel_append hrs.readings (.cons ⟨rfl, hrs.sees⟩ .nil)

end Rules

/-! ### Regions -/

section Regions

variable {α β : Type} {options : Options} {V : Lowerer → α → β → Prop} {x : LowerM α}
  {i : Journey x} {y : ReadM β} {seen : List Arrival} {r : Reader} {s o : Lowerer} {c : Cursor}

theorem Lowerer.At.of_scopes {t : Lowerer} (hc : s.At c) (h : t.scopes = s.scopes) : t.At c := by
  rwa [Lowerer.At, h]

/-- A region that was opened in `s` is closed: what it declares goes out of scope. -/
theorem Concurs.close (h : Abreast options seen r s) (ho : o.scopes.scopes ≠ [])
    (htail : o.scopes.scopes.tail = s.scopes.scopes) (hdecls : o.decls = s.decls)
    (hadds : Advances o (outcome x o).2)
    (hbody : Concurs options V (seen ++ i.arrivals o) (outcome x o) (y.result r)) :
    Concurs options (fun t _ _ => t.scopes = s.scopes) (seen ++ i.closingScope.arrivals o)
      (outcome (closingScope x) o) ((enclosed y).result r) := by
  rw [arrivals_closingScope, result_enclosed]
  rcases hx : outcome x o with ⟨result, t⟩
  rw [hx] at hbody hadds
  have ht : t.scopes.scopes ≠ [] := fun hnil => ho (hadds.scopes.nil_iff.mp hnil)
  have hscopes : t.leave.scopes = s.scopes := by
    show ScopeStack.mk t.scopes.scopes.tail = s.scopes
    rw [hadds.scopes.tail, htail]
  have hprefix : s.decls <+: t.decls := hdecls ▸ hadds.decls
  rw [outcome_closingScope hx ht]
  rcases hy : y.result r with ⟨result', r'⟩
  rw [hy] at hbody
  cases hbody with
  | accepted value abreast =>
    exact .accepted hscopes ⟨h.sees.leave abreast.sees hscopes hprefix, abreast.readings⟩
  | refused justified abreast =>
    exact .refused justified ⟨h.sees.leave abreast.sees hscopes hprefix, abreast.readings⟩
  | fault internal => exact .fault internal

/-- A region of the function of the innermost one. -/
theorem Concurs.region (h : Abreast options seen r s) (hc : s.At c) (b : BlockId)
    (hadds : Advances (s.enter { c with block := b }) (outcome x (s.enter { c with block := b })).2)
    (hbody : Concurs options V (seen ++ i.arrivals (s.enter { c with block := b }))
      (outcome x (s.enter { c with block := b })) (y.result r)) :
    Concurs options (fun t _ _ => t.scopes = s.scopes)
      (seen ++ (i.lowerRegion { c with block := b }).arrivals s)
      (outcome (lowerRegion { c with block := b } x) s) ((enclosed y).result r) := by
  obtain ⟨scope, rest, hscopes, -⟩ := hc.scopes
  have hpush : outcome (pushScopeCopy { c with block := b }) s
      = (.ok (), s.enter { c with block := b }) := by
    rw [outcome_pushScopeCopy, if_neg (by simp [hscopes])]
  refine .step_ok hpush (.close h ?_ ?_ ?_ hadds hbody) <;> simp [Lowerer.enter, hscopes]

end Regions

end TreeCompiler.Lowering
