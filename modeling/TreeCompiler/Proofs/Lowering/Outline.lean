/-
What of a state decides how lowering goes on.

Whether a node can be lowered is decided by names.  An identifier has to be bound, a call needs a
function of that name that takes as many arguments, and an assignment goes by whether its name was
bound by a variable, a parameter or a loop.  Types, constants, texts and instructions are never
asked.  The `outline` of a state is what is left of it without them.

The numbers of nodes are only copied into the record of declarations, and the heading of the module
is never read.  A state without these is `bare`.

Most steps of lowering are `Neutral`: they leave the outline alone, fail only by a fault of the
compiler, and do the same thing to the bare state as to the state itself.  Steps that are not
neutral bind names, add functions or strings, open and close regions, or refuse a node; each has an
equation for the outline that it leaves.
-/
import TreeCompiler.Proofs.Lowering.Bindings
import TreeCompiler.Proofs.Lowering.Course

namespace TreeCompiler

namespace IR

/-- What of a function a call is checked against. -/
structure Header where
  name : String
  arity : Nat
  variadic : Bool
  deriving DecidableEq, Repr

def Header.of (name : String) (sig : Signature) : Header :=
  { name, arity := sig.params.length, variadic := sig.variadic }

/-- The headers of all functions of a module, in order. -/
def Module.headers (m : Module) : List Header :=
  m.directory.functions.map fun entry => .of entry.1 entry.2

theorem Module.headers_eq (m : Module) : m.headers = m.functions.map fun f => .of f.name f.sig := by
  simp [headers, directory]

theorem Module.getFunction?_eq_findIdx? (m : Module) (name : String) :
    m.getFunction? name = m.headers.findIdx? (·.name = name) := by
  rw [headers_eq, List.findIdx?_map]
  rfl

theorem Module.header_function (m : Module) (f : FuncId) :
    .of (m.function f).name (m.function f).sig
      = (m.headers[f]?).getD (.of (default : Function).name (default : Function).sig) := by
  rw [headers_eq, List.getElem?_map, Module.function]
  cases m.functions[f]? <;> rfl

theorem Module.headers_addFunction (m : Module) (name : String) (sig : Signature)
    (linkage : Linkage) :
    (m.addFunction name sig linkage).2.headers
      = m.headers ++ [.of (m.names.next "." name) sig] := by
  simp [headers_eq, addFunction, Function.new]

/-- Modules with the same headers find the same callees and check calls in the same way. -/
theorem Module.callee_of_headers {m n : Module} (h : m.headers = n.headers) (callee : String) :
    m.getFunction? callee = n.getFunction? callee ∧
    ∀ f, (m.function f).sig.params.length = (n.function f).sig.params.length ∧
      ∀ count, (m.function f).sig.accepts count = (n.function f).sig.accepts count := by
  refine ⟨by rw [getFunction?_eq_findIdx?, getFunction?_eq_findIdx?, h], fun f => ?_⟩
  have hof := m.header_function f
  rw [h, ← n.header_function f] at hof
  simp only [Header.of, Header.mk.injEq] at hof
  obtain ⟨-, harity, hvariadic⟩ := hof
  exact ⟨harity, fun count => by simp only [Signature.accepts, harity, hvariadic]⟩

/-- The same functions and strings in a module that has no name and no target. -/
def Module.unheaded (m : Module) : Module := { m with name := "", targetTriple := none }

/-- The name and the target of a module. -/
def Module.heading (m : Module) : String × Option String := (m.name, m.targetTriple)

theorem Module.eq_of_unheaded {m n : Module} (h : m.unheaded = n.unheaded)
    (hheading : m.heading = n.heading) :
    m = n := by
  cases m
  cases n
  simp_all [unheaded, heading]

end IR

namespace Lowering

open IR (FuncId BlockId InstId Ty Value Op)
open Program (NodeId Param)

variable {α β : Type}

/-! ### The outline of a state -/

/-- What of a state the errors of a program depend on.  Names are kept with their declarations and
without what they are bound to. -/
structure Outline where
  names : IR.NameSupply
  headers : List IR.Header
  tables : List (List (String × Option DeclId))
  kinds : List DeclKind
  errors : List LowerError
  counterName : String
  policy : ErrorPolicy
  deriving DecidableEq, Repr

def Lowerer.outline (s : Lowerer) : Outline where
  names := s.code.names
  headers := s.code.headers
  tables := s.scopes.scopes.map fun scope => scope.bindings.map fun entry => (entry.1, entry.2.decl)
  kinds := s.decls.map (·.kind)
  errors := s.errors
  counterName := s.options.inductionName
  policy := s.options.policy

namespace Outline

/-- Whether a name is bound, and by which declaration. -/
def lookup (o : Outline) (name : String) : Option (Option DeclId) :=
  o.tables.head?.bind (·.lookup name)

/-- What a name stands for that was bound by a declaration or by none. -/
def role (o : Outline) (decl : Option DeclId) : Role :=
  match decl.bind (o.kinds[·]?) with
  | none => .counter
  | some .variable => .slot
  | some .parameter => .parameter

/-- Bind a name in the innermost table. -/
def bindName (o : Outline) (name : String) (decl : Option DeclId) : Outline :=
  { o with tables := o.tables.modifyHead ((name, decl) :: ·) }

end Outline

theorem lookup_decls (bindings : List (String × Binding)) (name : String) :
    (bindings.map fun entry => (entry.1, entry.2.decl)).lookup name
      = (bindings.lookup name).map (·.decl) := by
  induction bindings with
  | nil => rfl
  | cons entry rest ih =>
    obtain ⟨key, b⟩ := entry
    simp only [List.map_cons, List.lookup_cons, ih]
    cases name == key <;> rfl

theorem outline_lookup (s : Lowerer) (name : String) :
    s.outline.lookup name = (s.scopes.lookup name).map (·.decl) := by
  unfold Outline.lookup Lowerer.outline ScopeStack.lookup
  cases s.scopes.scopes with
  | nil => rfl
  | cons scope rest => exact lookup_decls scope.bindings name

theorem Plays.role_eq {s : Lowerer} {f : IR.Function} {name : String} {b : Binding} {role : Role}
    (h : Plays s.decls s.options.inductionName f name b role) : s.outline.role b.decl = role := by
  cases h with
  | slot alloca decl | parameter param decl =>
    simp [Outline.role, Lowerer.outline, decl]
  | counter inst phi float named => rfl

/-- The states differ at most in what the functions of the module compute. -/
structure SameFrame (s t : Lowerer) : Prop where
  scopes : t.scopes = s.scopes
  decls : t.decls = s.decls
  errors : t.errors = s.errors
  options : t.options = s.options
  directory : t.code.directory = s.code.directory

theorem SameFrame.refl (s : Lowerer) : SameFrame s s := ⟨rfl, rfl, rfl, rfl, rfl⟩

theorem SameFrame.trans {s t u : Lowerer} (h : SameFrame s t) (h' : SameFrame t u) :
    SameFrame s u :=
  ⟨h'.scopes.trans h.scopes, h'.decls.trans h.decls, h'.errors.trans h.errors,
    h'.options.trans h.options, h'.directory.trans h.directory⟩

theorem SameFrame.outline {s t : Lowerer} (h : SameFrame s t) : t.outline = s.outline := by
  have hnames : t.code.names = s.code.names := congrArg IR.Directory.names h.directory
  have hheaders : t.code.headers = s.code.headers := by
    rw [IR.Module.headers, h.directory, IR.Module.headers]
  simp only [Lowerer.outline, hnames, hheaders, h.scopes, h.decls, h.errors, h.options]

section Changes

variable (s : Lowerer)

theorem sameFrame_update (func : FuncId) (change : IR.Function → IR.Function)
    (hname : (change (s.code.function func)).name = (s.code.function func).name)
    (hsig : (change (s.code.function func)).sig = (s.code.function func).sig) :
    SameFrame s (s.update func change) :=
  ⟨rfl, rfl, rfl, rfl, IR.Module.directory_setFunction hname hsig⟩

theorem sameFrame_emit (c : Cursor) (op : Op) (ty : Ty) (name : Option String) :
    SameFrame s (s.emit c op ty name) :=
  sameFrame_update s c.func _ rfl rfl

theorem outline_update (func : FuncId) (change : IR.Function → IR.Function)
    (hname : (change (s.code.function func)).name = (s.code.function func).name)
    (hsig : (change (s.code.function func)).sig = (s.code.function func).sig) :
    (s.update func change).outline = s.outline :=
  (sameFrame_update s func change hname hsig).outline

theorem outline_emit (c : Cursor) (op : Op) (ty : Ty) (name : Option String) :
    (s.emit c op ty name).outline = s.outline :=
  (sameFrame_emit s c op ty name).outline

theorem outline_record (decl : Decl) :
    (s.record decl).outline = { s.outline with kinds := s.outline.kinds ++ [decl.kind] } := by
  simp [Lowerer.outline, Lowerer.record]

theorem outline_bindName (name : String) (value : Value) (decl : Option DeclId) :
    (s.bindName name value decl).outline = s.outline.bindName name decl := by
  unfold Lowerer.bindName Outline.bindName Lowerer.outline
  split <;> simp_all

theorem outline_enter (c : Cursor) :
    (s.enter c).outline
      = { s.outline with tables := s.outline.tables.head?.toList ++ s.outline.tables } := by
  unfold Lowerer.enter Lowerer.outline
  split <;> simp_all

theorem outline_enterEmpty (c : Cursor) :
    (s.enterEmpty c).outline = { s.outline with tables := [] :: s.outline.tables } := rfl

theorem outline_leave : s.leave.outline = { s.outline with tables := s.outline.tables.tail } := by
  simp [Lowerer.outline, Lowerer.leave, List.map_tail]

theorem outline_addGlobalString (name text : String) :
    ({ s with code := (s.code.addGlobalString name text).2 } : Lowerer).outline
      = { s.outline with names := s.outline.names.record name } := rfl

end Changes

/-! ### Bare states -/

/-- A state without the numbers of nodes and without the heading of the module. -/
def Lowerer.bare (s : Lowerer) : Lowerer :=
  { s with
    code := s.code.unheaded
    options := { s.options with moduleName := "", targetTriple := none }
    decls := s.decls.map ({ · with node := 0 }) }

section Bare

variable (s : Lowerer)

theorem bare_bindName (name : String) (value : Value) (decl : Option DeclId) :
    (s.bindName name value decl).bare = s.bare.bindName name value decl := by
  have hscopes : s.bare.scopes = s.scopes := rfl
  unfold Lowerer.bindName
  rw [hscopes]
  split <;> rfl

theorem bare_enter (c : Cursor) : (s.enter c).bare = s.bare.enter c := by
  have hscopes : s.bare.scopes = s.scopes := rfl
  unfold Lowerer.enter
  rw [hscopes]
  split <;> rfl

theorem bare_record (decl : Decl) :
    (s.record decl).bare = s.bare.record { decl with node := 0 } := by
  simp [Lowerer.record, Lowerer.bare]

end Bare

/-! ### Neutral steps -/

/-- A step that has no part in what is refused, and that looks at no number of a node. -/
structure Neutral (x : LowerM α) : Prop where
  stable : Stable x
  frame : ∀ s, SameFrame s (outcome x s).2
  fault : ∀ s e, (outcome x s).1 = .error e → e.isInternal = true
  blind : ∀ s, outcome x s.bare = ((outcome x s).1, (outcome x s).2.bare)

namespace Neutral

theorem outline {x : LowerM α} (hx : Neutral x) (s : Lowerer) :
    (outcome x s).2.outline = s.outline :=
  (hx.frame s).outline

theorem bind {x : LowerM α} {k : α → LowerM β} (hx : Neutral x) (hk : ∀ a, Neutral (k a)) :
    Neutral (x >>= k) := by
  refine ⟨hx.stable.bind fun a => (hk a).stable, fun s => ?_, fun s e he => ?_, fun s => ?_⟩
  · have hfirst := hx.frame s
    rw [outcome_bind]
    rcases h : outcome x s with ⟨e | a, t⟩ <;> rw [h] at hfirst
    · exact hfirst
    · exact hfirst.trans ((hk a).frame t)
  · have hfirst := hx.fault s
    rw [outcome_bind] at he
    rcases h : outcome x s with ⟨e' | a, t⟩ <;> rw [h] at hfirst he
    · exact hfirst e (by rw [Except.error.inj he])
    · exact (hk a).fault t e he
  · have hfirst := hx.blind s
    rw [outcome_bind, outcome_bind, hfirst]
    rcases outcome x s with ⟨e | a, t⟩
    · rfl
    · exact (hk a).blind t

theorem pure (a : α) : Neutral (pure a : LowerM α) :=
  ⟨fun _ hs => hs, .refl, fun _ _ he => (by cases he), fun _ => rfl⟩

theorem cursor : Neutral cursor := by
  refine ⟨maintains_cursor.stable, fun s => ?_, fun s e he => ?_, fun s => ?_⟩
  · simp only [Lowering.cursor, outcome_liftScopes]
    exact .refl s
  · obtain ⟨c, hc⟩ | hs := s.at_or_empty
    · rw [outcome_cursor hc] at he
      cases he
    · rw [outcome_cursor_empty hs] at he
      cases he
      rfl
  · simp only [Lowering.cursor, outcome_liftScopes]
    rfl

theorem slotType (c : Cursor) (value : Value) : Neutral (slotType c value) :=
  ⟨fun _ hs => hs, .refl, fun _ _ he => (by cases he), fun _ => rfl⟩

theorem updateFunction {change : IR.Function → α × IR.Function}
    (hkeeps : ∀ f : IR.Function, f.Keeps (change f).2)
    (hname : ∀ f, (change f).2.name = f.name) (func : FuncId) :
    Neutral (updateFunction func change) :=
  ⟨stable_updateFunction func change hkeeps,
    fun s => sameFrame_update s func (fun f => (change f).2) (hname _) (hkeeps _).sig,
    fun _ _ he => (by cases he), fun _ => rfl⟩

theorem createBlock (func : FuncId) (base : String) : Neutral (createBlock func base) :=
  updateFunction (fun f => .ofGrows (.createBlock 0 f base)) (fun _ => rfl) func

theorem nameValue (func : FuncId) (value : Value) (name : String) :
    Neutral (nameValue func value name) :=
  updateFunction (fun f => .setValueName f value name) (fun _ => by cases value <;> rfl) func

theorem emitAt {step : IR.Function → BlockId → Value × IR.Function}
    (hstep : ∀ f b, ∃ op ty name, step f b = f.push b op ty name) (c : Cursor) :
    Neutral (emitAt c step) := by
  refine updateFunction (fun f => ?_) (fun f => ?_) c.func
  · obtain ⟨op, ty, name, heq⟩ := hstep f c.block
    rw [heq]
    exact .ofGrows (.push f c.block op ty name)
  · obtain ⟨op, ty, name, heq⟩ := hstep f c.block
    rw [heq]
    rfl

theorem emit {step : IR.Function → BlockId → Value × IR.Function}
    (hstep : ∀ f b, ∃ op ty name, step f b = f.push b op ty name) : Neutral (emit step) :=
  cursor.bind (emitAt hstep)

theorem addIncoming (func : FuncId) (phi value : Value) (source : BlockId) :
    Neutral (addIncoming func phi value source) := by
  refine ⟨(maintains_addIncoming func phi value source).stable, fun s => ?_, fun s e he => ?_,
    fun s => ?_⟩
  · obtain ⟨g, hg, hout⟩ | ⟨_, hout⟩ := outcome_addIncoming_cases s func phi value source
    · obtain ⟨k, i, -, rfl⟩ := IR.Function.addIncoming_eq_ok hg
      rw [hout]
      exact sameFrame_update s func (fun _ => _) rfl rfl
    · rw [hout]
      exact .refl s
  · obtain ⟨g, hg, hout⟩ | ⟨_, hout⟩ := outcome_addIncoming_cases s func phi value source
    · rw [hout] at he
      cases he
    · rw [hout] at he
      cases he
      rfl
  · have hfunction : s.bare.code.function func = s.code.function func := rfl
    simp only [Lowering.addIncoming, outcome_get_bind, hfunction]
    split <;> rfl

theorem materialize (value : Value) : Neutral (materialize value) := by
  refine cursor.bind fun c => (slotType c value).bind fun ty => ?_
  cases ty with
  | none => exact pure value
  | some ty => exact emitAt (fun _ _ => ⟨_, _, _, rfl⟩) c

end Neutral

end Lowering

end TreeCompiler
