/-
What becomes of the addresses of stack slots.

A name stands for its slot, and so does a block that ends in a name or in a declaration.  Whatever
uses the value of an expression loads it first, with one exception: what is passed to a function is
loaded only if it is the name of a variable.  So a slot is never stored, computed with, compared,
branched on, merged by a phi or returned, and it is passed to a function only by a block that ends
in a name or in a declaration (`passesPlace`).  A declared parameter does not take it there, since
no parameter is a pointer.  What is left are the further arguments of `printf`, and the verifier
does not look at these.

The walk keeps `Sheltered`: whatever an instruction uses is there and is no slot (`Ordinary`),
unless it is an address or, where blocks are passed, an argument.  A value that is there and no slot
remains so, because functions only grow.
-/
import TreeCompiler.Proofs.Lowering.Bindings
import TreeCompiler.Proofs.Lowering.Checks

namespace TreeCompiler

namespace Program

mutual

/-- Whether the value of an expression may be a slot: it is a name, or a block that ends in a name
or in a declaration. -/
def Expr.isPlace : Expr → Bool
  | .ident .. => true
  | .block _ body => body.isPlace
  | .int .. | .double .. | .string .. | .call .. | .binary .. | .assign .. | .ifElse ..
    | .loop .. => false

def Stmt.isPlace : Stmt → Bool
  | .expr _ value => value.isPlace
  | .var .. => true
  | .block _ body => body.isPlace
  | .ret .. | .fn .. => false

def Block.isPlace : Block → Bool
  | .mk _ stmts => endInPlace false stmts

/-- Whether the last statement is one; `last` says so of the statement before. -/
def endInPlace (last : Bool) : List Stmt → Bool
  | [] => last
  | stmt :: stmts => endInPlace stmt.isPlace stmts

end

mutual

/-- Whether somewhere in an expression a block that ends in a name or in a declaration is passed to
a function. -/
def Expr.passesPlace : Expr → Bool
  | .int .. | .double .. | .string .. | .ident .. => false
  | .call _ _ args => argsPassPlace args
  | .binary _ _ left right => left.passesPlace || right.passesPlace
  | .assign _ _ value => value.passesPlace
  | .ifElse _ cond thenBlock elseBlock =>
    cond.passesPlace || (thenBlock.passesPlace || elseBlock.passesPlace)
  | .loop _ start limit body => start.passesPlace || (body.passesPlace || limit.passesPlace)
  | .block _ body => body.passesPlace

/-- A name that is passed as it is does not count. -/
def argsPassPlace : List Expr → Bool
  | [] => false
  | arg :: args => (arg.bindingKey.isNone && arg.isPlace) || (arg.passesPlace || argsPassPlace args)

def Stmt.passesPlace : Stmt → Bool
  | .expr _ value => value.passesPlace
  | .ret _ none => false
  | .ret _ (some value) => value.passesPlace
  | .var _ _ _ none => false
  | .var _ _ _ (some init) => init.passesPlace
  | .fn _ _ _ _ body => body.passesPlace
  | .block _ body => body.passesPlace

def Block.passesPlace : Block → Bool
  | .mk _ stmts => stmtsPassPlace stmts

def stmtsPassPlace : List Stmt → Bool
  | [] => false
  | stmt :: stmts => stmt.passesPlace || stmtsPassPlace stmts

end

end Program

namespace IR

/-- What an operation uses, but for the address of a load or a store. -/
def Op.contents : Op → List Value
  | .load .. => []
  | .store value .. => [value]
  | op => op.operands

def Op.isCall : Op → Bool
  | .call .. => true
  | _ => false

namespace Function

variable {f g : Function} {calls : Prop} {v : Value}

/-- A value that is there and is not the address of a slot. -/
def Ordinary (f : Function) (v : Value) : Prop := f.Knows v ∧ f.slotType v = none

theorem ordinary_inst {k : InstId} {i : Inst} (hi : f.insts[k]? = some i)
    (hop : ∀ ty, i.op ≠ .alloca ty) :
    f.Ordinary (.inst k) := by
  refine ⟨(List.getElem?_eq_some_iff.mp hi).1, ?_⟩
  rw [Option.eq_none_iff_forall_ne_some]
  intro ty hty
  obtain ⟨_, i', heq, hi', hop'⟩ := slotType_eq_some_iff.mp hty
  cases heq
  rw [hi] at hi'
  cases hi'
  exact hop ty hop'

theorem Ordinary.keeps (hv : f.Ordinary v) (hk : f.Keeps g) : g.Ordinary v := by
  cases v with
  | inst k =>
    obtain ⟨i, hi⟩ : ∃ i, f.insts[k]? = some i := ⟨_, List.getElem?_eq_getElem hv.1⟩
    obtain ⟨i', hi', -, -, hop⟩ := hk.insts hi
    refine ordinary_inst hi' fun ty hty => ?_
    rcases hop with heq | ⟨-, hphi⟩
    · have hslot := slotType_eq_some_iff.mpr ⟨k, i, rfl, hi, heq.symm.trans hty⟩
      rw [hv.2] at hslot
      cases hslot
    · simp [hty, Op.isPhi] at hphi
  | const c => exact ⟨trivial, rfl⟩
  | param n => exact ⟨trivial, rfl⟩
  | global id => exact ⟨trivial, rfl⟩

/-- No instruction uses a slot but as an address.  What is passed to functions counts if `calls`. -/
structure Guarded (calls : Prop) (f : Function) : Prop where
  params : Ty.ptr ∉ f.sig.params
  contents : ∀ i ∈ f.insts, (i.op.isCall = true → calls) → ∀ v ∈ i.op.contents, f.Ordinary v

namespace Guarded

/-- A function that has more instructions, or other ones, is guarded if those are. -/
theorem keeps (hf : f.Guarded calls) (hk : f.Keeps g)
    (hnew : ∀ i ∈ g.insts, (∃ i₀ ∈ f.insts, i₀.op = i.op) ∨
      ((i.op.isCall = true → calls) → ∀ v ∈ i.op.contents, f.Ordinary v)) : g.Guarded calls := by
  refine ⟨by rw [hk.sig]; exact hf.params, fun i hi hcall v hv => ?_⟩
  rcases hnew i hi with ⟨i₀, hi₀, hop⟩ | hcontents
  · rw [← hop] at hcall hv
    exact (hf.contents i₀ hi₀ hcall v hv).keeps hk
  · exact (hcontents hcall v hv).keeps hk

theorem push (hf : f.Guarded calls) {op : Op}
    (hop : (op.isCall = true → calls) → ∀ v ∈ op.contents, f.Ordinary v) (b : BlockId) (ty : Ty)
    (name : Option String) : (f.push b op ty name).2.Guarded calls := by
  refine hf.keeps (.ofGrows (.push _ _ _ _ _)) fun i hi => ?_
  rw [push_insts] at hi
  rcases List.mem_append.mp hi with hold | hnew
  · exact .inl ⟨i, hold, rfl⟩
  · obtain rfl := List.mem_singleton.mp hnew
    exact .inr hop

theorem createBlock (hf : f.Guarded calls) (base : String) : (f.createBlock base).2.Guarded calls :=
  hf.keeps (.ofGrows (.createBlock 0 f base)) fun i hi => .inl ⟨i, hi, rfl⟩

theorem setValueName (hf : f.Guarded calls) (v : Value) (name : String) :
    (f.setValueName v name).Guarded calls := by
  refine hf.keeps (.setValueName f v name) fun i hi => .inl ?_
  obtain ⟨k, hk⟩ := List.mem_iff_getElem?.mp hi
  obtain ⟨i₀, hi₀, hop, -, -⟩ := getElem?_setValueName hk
  exact ⟨i₀, List.mem_of_getElem? hi₀, hop.symm⟩

theorem setPhi (hf : f.Guarded calls) {k : InstId} {i phi : Inst} (hi : f.insts[k]? = some i)
    (hty : phi.ty = i.ty) (hblock : phi.block = i.block) (hphi : i.op.isPhi = true)
    {incoming : List (Value × BlockId)} (hop : phi.op = .phi incoming)
    (hincoming : ∀ x ∈ incoming, f.Ordinary x.1) :
    ({ f with insts := f.insts.set k phi } : Function).Guarded calls := by
  refine hf.keeps (.replacePhi hi hty hblock hphi (by rw [hop]; rfl)) fun j hj => ?_
  rcases List.mem_or_eq_of_mem_set hj with hold | rfl
  · exact .inl ⟨j, hold, rfl⟩
  · refine .inr fun _ v hv => ?_
    rw [hop] at hv
    obtain ⟨x, hx, rfl⟩ := List.mem_map.mp hv
    exact hincoming x hx

end Guarded

end Function

end IR

namespace Lowering

open IR (FuncId BlockId InstId Ty Value Op)
open Program (Expr Stmt Block BinOp NodeId Param argsPassPlace stmtsPassPlace endInPlace)

variable {calls : Prop} {s t u : Lowerer} {c d : Cursor} {v w : Value}

/-! ### The invariant -/

/-- A state on the way of a program that is lowered without an error, in which slots are used as
they should. -/
structure Lowerer.Sheltered (calls : Prop) (s : Lowerer) : Prop where
  valid : s.Valid
  consistent : s.Consistent
  strict : s.options.policy = .failFast
  guarded : s.Each (IR.Function.Guarded calls)

/-- What is at hand is there. -/
theorem Usable.knows (hv : Usable s v) (hs : s.Consistent) (hc : s.At c) : (s.body c).Knows v := by
  cases hv with
  | const k => trivial
  | global hlt => trivial
  | @bound scope rest name b hscopes hb =>
    obtain ⟨scope', rest', hscopes', rfl⟩ := hc.scopes
    rw [hscopes] at hscopes'
    cases hscopes'
    obtain ⟨role, hplays⟩ := hs.roles scope (by simp [hscopes]) (name, b) hb
    cases hplays with
    | slot alloca decl => exact IR.Function.knows_of_slotType alloca
    | parameter param decl => trivial
    | counter inst phi float named => exact (List.getElem?_eq_some_iff.mp inst).1
  | result hd hk hi =>
    obtain rfl := hd.unique hc
    exact (List.getElem?_eq_some_iff.mp hk).1

/-- An ordinary value remains one where the function around grows. -/
theorem Advances.ordinary (ha : Advances s t) (hs : s.Valid) (hc : s.At c)
    (hv : (s.body c).Ordinary v) :
    (t.body c).Ordinary v :=
  hv.keeps (.ofGrows (ha.body hs hc))

theorem guarded_emit (hs : s.Each (IR.Function.Guarded calls)) (c : Cursor) (op : Op)
    (hop : (op.isCall = true → calls) → ∀ v ∈ op.contents, (s.body c).Ordinary v) (ty : Ty)
    (name : Option String) : (s.emit c op ty name).Each (IR.Function.Guarded calls) :=
  hs.update fun _ hf => hf.push hop c.block ty name

namespace Lowerer.Sheltered

/-- A state with the same functions and other tables. -/
theorem congr (hs : s.Sheltered calls) (hvalid : t.Valid) (hconsistent : t.Consistent)
    (hoptions : t.options = s.options) (hcode : t.code = s.code) : t.Sheltered calls :=
  ⟨hvalid, hconsistent, by rw [hoptions, hs.strict], hs.guarded.congr hcode⟩

theorem emit (hs : s.Sheltered calls) (hc : s.At c) (op : Op)
    (hop : (op.isCall = true → calls) → ∀ v ∈ op.contents, (s.body c).Ordinary v) (ty : Ty)
    (name : Option String) : (s.emit c op ty name).Sheltered calls where
  valid := (advances_emit hc op ty name).valid hs.valid
  consistent := hs.consistent.update _ _ (.ofGrows (.push _ _ _ _ _))
  strict := hs.strict
  guarded := guarded_emit hs.guarded c op hop ty name

theorem addBlock (hs : s.Sheltered calls) (hc : s.At c) (base : String) :
    (s.addBlock c.func base).Sheltered calls where
  valid := (Advances.ofCode (hc.cursor? ▸ .addBlock s c base)).valid hs.valid
  consistent := hs.consistent.update _ _ (.ofGrows (.createBlock 0 _ _))
  strict := hs.strict
  guarded := hs.guarded.update fun _ hf => hf.createBlock base

/-- The result of an instruction that is not an `alloca` is ordinary. -/
theorem ordinary_emit (hs : s.Sheltered calls) (hc : s.At c) (op : Op) (hop : ∀ ty, op ≠ .alloca ty)
    (ty : Ty) (name : Option String) :
    ((s.emit c op ty name).body c).Ordinary (.inst (s.body c).insts.length) :=
  IR.Function.ordinary_inst (getElem?_emit (hs.consistent.func_lt hc) op ty name) hop

end Lowerer.Sheltered

/-! ### Operands -/

/-- What a step of lowering does if it succeeds: slots stay sheltered, and its value is not a slot
unless it may be a place. -/
structure Shelters (calls : Prop) (place : Bool) (x : LowerM (Option Value)) : Prop where
  yields : Yields x
  stable : Stable x
  guarded : ∀ {s t : Lowerer} {r : Option Value}, s.Sheltered calls → outcome x s = (.ok r, t) →
    t.Each (IR.Function.Guarded calls)
  ordinary : ∀ {s t : Lowerer} {v : Value} {c : Cursor}, s.Sheltered calls →
    outcome x s = (.ok (some v), t) →
    t.At c → place = false → (t.body c).Ordinary v

section Operands

variable {x : LowerM (Option Value)} {place : Bool}

namespace Shelters

theorem advances (hx : Shelters calls place x) (hs : s.Sheltered calls) {r : Option Value}
    (h : outcome x s = (.ok r, t)) : Advances s t :=
  (hx.yields s hs.valid).advances hs.valid h

theorem sheltered (hx : Shelters calls place x) (hs : s.Sheltered calls) {r : Option Value}
    (h : outcome x s = (.ok r, t)) : t.Sheltered calls where
  valid := (hx.advances hs h).valid hs.valid
  consistent := by
    have hafter := hx.stable s hs.consistent
    rwa [h] at hafter
  strict := by rw [(hx.advances hs h).options, hs.strict]
  guarded := hx.guarded hs h

theorem knows (hx : Shelters calls place x) (hs : s.Sheltered calls)
    (h : outcome x s = (.ok (some v), t)) (hc : t.At c) : (t.body c).Knows v := by
  have hvalue := (hx.yields s hs.valid).value (some v)
  rw [h] at hvalue
  exact (hvalue rfl v rfl).knows (hx.sheltered hs h).consistent hc

end Shelters

/-- What is loaded, or is no slot, is ordinary. -/
theorem sheltered_materialize (hs : s.Sheltered calls) (hknows : ∀ c, s.At c → (s.body c).Knows v)
    (h : outcome (materialize v) s = (.ok w, t)) :
    t.Sheltered calls ∧ ∀ c, t.At c → (t.body c).Ordinary w := by
  obtain ⟨c, hc, ⟨hslot, rfl, rfl⟩ | ⟨ty, -, rfl, rfl⟩⟩ := materialize_succeeds h
  · refine ⟨hs, fun d hd => ?_⟩
    obtain rfl := hc.unique hd
    exact ⟨hknows c hc, hslot⟩
  · refine ⟨hs.emit hc (.load ty v) (fun _ v hv => by cases hv) ty none, fun d hd => ?_⟩
    obtain rfl := hc.unique hd
    exact hs.ordinary_emit hc (.load ty v) (by simp) ty none

/-- **An operand is never a slot.** -/
theorem Shelters.operand (hx : Shelters calls place x) (hs : s.Sheltered calls) {context : String}
    (h : outcome (operand context x) s = (.ok w, t)) :
    t.Sheltered calls ∧ Advances s t ∧ ∀ c, t.At c → (t.body c).Ordinary w := by
  obtain ⟨v, u, hok, hmat⟩ := operand_succeeds h
  obtain ⟨ht, hw⟩ := sheltered_materialize (hx.sheltered hs hok)
    (fun c hc => hx.knows hs hok hc) hmat
  exact ⟨ht, (walks_operand hx.yields hs.valid context).advances hs.valid h, hw⟩

end Operands

/-! ### Constructs -/

/-- What a construct leaves: a guarded module, and a value that is no slot. -/
def Leaves (calls : Prop) (t : Lowerer) (v : Value) : Prop :=
  t.Each (IR.Function.Guarded calls) ∧ ∀ c, t.At c → (t.body c).Ordinary v

theorem Lowerer.Sheltered.leaves_emit (hs : s.Sheltered calls) (hc : s.At c) (op : Op)
    (hop : (op.isCall = true → calls) → ∀ v ∈ op.contents, (s.body c).Ordinary v)
    (hno : ∀ ty, op ≠ .alloca ty) (ty : Ty) (name : Option String) :
    Leaves calls (s.emit c op ty name) (.inst (s.body c).insts.length) := by
  refine ⟨(hs.emit hc op hop ty name).guarded, fun d hd => ?_⟩
  obtain rfl := hc.unique hd
  exact hs.ordinary_emit hc op hno ty name

section Constructs

variable {x y z : LowerM (Option Value)} {p q r : Bool}

/-- A step whose value is no slot. -/
theorem Shelters.value {x : LowerM Value} {place : Bool} (hyields : Yields (do return some (← x)))
    (hstable : Stable (do return some (← x) : LowerM (Option Value)))
    (h : ∀ {s t : Lowerer} {v : Value}, s.Sheltered calls → outcome x s = (.ok v, t) →
      Leaves calls t v) :
    Shelters calls place (do return some (← x)) where
  yields := hyields
  stable := hstable
  guarded hs hok := by
    obtain ⟨a, u, hx, hk⟩ := (outcome_bind_eq_ok _).mp hok
    cases hk
    exact (h hs hx).1
  ordinary hs hok hc _ := by
    obtain ⟨a, u, hx, hk⟩ := (outcome_bind_eq_ok _).mp hok
    cases hk
    exact (h hs hx).2 _ hc

/-- A step whose value may be a slot. -/
theorem Shelters.place {x : LowerM Value} (hyields : Yields (do return some (← x)))
    (hstable : Stable (do return some (← x) : LowerM (Option Value)))
    (h : ∀ {s t : Lowerer} {v : Value}, s.Sheltered calls → outcome x s = (.ok v, t) →
      t.Each (IR.Function.Guarded calls)) : Shelters calls true (do return some (← x)) where
  yields := hyields
  stable := hstable
  guarded hs hok := by
    obtain ⟨a, u, hx, hk⟩ := (outcome_bind_eq_ok _).mp hok
    cases hk
    exact h hs hx
  ordinary _ _ _ hplace := by cases hplace

/-- A step without a value. -/
theorem Shelters.none {x : LowerM Unit} (hyields : Yields (do x; return none))
    (hstable : Stable (do x; return none : LowerM (Option Value)))
    (h : ∀ {s t : Lowerer}, s.Sheltered calls → outcome x s = (.ok (), t) →
      t.Each (IR.Function.Guarded calls)) : Shelters calls false (do x; return none) where
  yields := hyields
  stable := hstable
  guarded hs hok := by
    obtain ⟨a, u, hx, hk⟩ := (outcome_bind_eq_ok _).mp hok
    cases hk
    exact h hs hx
  ordinary hs hok := by
    obtain ⟨a, u, hx, hk⟩ := (outcome_bind_eq_ok _).mp hok
    cases hk

theorem leaves_lowerBinary (hx : Shelters calls p x) (hy : Shelters calls q y)
    (hs : s.Sheltered calls) {op : BinOp} (h : outcome (lowerBinary op x y) s = (.ok v, t)) :
    Leaves calls t v := by
  obtain ⟨lhs, u, rhs, u', lowered, c, hl, hr, -, hc, rfl, rfl⟩ := lowerBinary_succeeds h
  obtain ⟨hu, -, hlhs⟩ := hx.operand hs hl
  obtain ⟨hu', ha, hrhs⟩ := hy.operand hu hr
  have hcu := ha.at_iff.mp hc
  have hboth : ∀ v ∈ [lhs, rhs], (u'.body c).Ordinary v := by
    intro v hv
    rcases List.mem_pair.mp hv with rfl | rfl
    · exact ha.ordinary hu.valid hcu (hlhs c hcu)
    · exact hrhs c hc
  cases lowered with
  | arith a => exact hu'.leaves_emit hc (.arith a lhs rhs) (fun _ => hboth) (by simp) _ _
  | compare pred => exact hu'.leaves_emit hc (.fcmp pred lhs rhs) (fun _ => hboth) (by simp) _ _

theorem leaves_lowerAssign (hx : Shelters calls p x) (hs : s.Sheltered calls) {target : String}
    (h : outcome (lowerAssign target x) s = (.ok w, t)) : Leaves calls t w := by
  obtain ⟨slot, c, ty, v, u, d, -, -, -, hval, hd, rfl, rfl⟩ := lowerAssign_succeeds h
  obtain ⟨hu, -, hv⟩ := hx.operand hs hval
  refine hu.leaves_emit hd (.store v slot true) (fun _ v' hv' => ?_) (by simp) _ _
  obtain rfl := List.mem_singleton.mp hv'
  exact hv d hd

theorem leaves_lowerReturn (hx : Shelters calls p x) (hs : s.Sheltered calls)
    (h : outcome (lowerReturn (some x)) s = (.ok w, t)) : Leaves calls t w := by
  obtain ⟨v, u, c, hval, hc, rfl, rfl⟩ := lowerReturn_succeeds h
  obtain ⟨hu, -, hv⟩ := hx.operand hs hval
  refine hu.leaves_emit hc (.ret (some v)) (fun _ v' hv' => ?_) (by simp) _ _
  obtain rfl := List.mem_singleton.mp hv'
  exact hv c hc

theorem leaves_lowerReturn_none (hs : s.Sheltered calls)
    (h : outcome (lowerReturn none) s = (.ok w, t)) :
    Leaves calls t w := by
  obtain ⟨c, hc, rfl, rfl⟩ := lowerReturn_none_succeeds h
  exact hs.leaves_emit hc (.ret none) (fun _ v hv => by cases hv) (by simp) _ _

/-! ### Variables -/

theorem guarded_lowerVar (hx : Shelters calls p x) (hs : s.Sheltered calls) {node : NodeId}
    {ty name : String} (h : outcome (lowerVar node ty name x) s = (.ok v, t)) :
    t.Each (IR.Function.Guarded calls) := by
  obtain ⟨c, w, hc, rfl, hassign⟩ := lowerVar_succeeds h
  have hemit := hs.emit hc (.alloca (typeOf ty)) (fun _ v hv => by cases hv) .ptr (some name)
  have hdeclared : (s.declareVariable c node (typeOf ty) name).Sheltered calls :=
    hemit.congr ((advances_declareVariable hc node (typeOf ty) name).valid hs.valid)
      (hs.consistent.declareVariable hc node (typeOf ty) name)
      (advances_declareVariable hc node (typeOf ty) name).options (bindName_code _ _ _ _)
  exact (leaves_lowerAssign hx hdeclared hassign).1

/-! ### Calls -/

/-- A name that is passed is loaded like any operand. -/
theorem outcome_lowerArg_ident_eq (hs : s.Consistent) {id : NodeId} {name : String}
    (h : outcome (lowerArg (Expr.ident id name).bindingKey (lowerExpr (.ident id name))) s
      = (.ok w, t)) :
    ∃ v, outcome (lowerExpr (.ident id name)) s = (.ok (some v), s) ∧
      outcome (materialize v) s = (.ok w, t) := by
  obtain ⟨v, u, hok, -⟩ := lowerArg_succeeds h
  obtain ⟨v', u', hident, hk⟩ := (outcome_bind_eq_ok s).mp hok
  cases hk
  obtain ⟨hres, rfl⟩ := lowerIdent_succeeds hident
  obtain ⟨c, hc⟩ | hempty := u.at_or_empty
  · rw [outcome_lowerArg_ident hs hc hres, ← outcome_materialize_elim hc v] at h
    exact ⟨v, hok, h⟩
  · simp [ScopeStack.resolve, ScopeStack.lookup, hempty] at hres

/-- What is passed is no slot, unless it is a block that may end in one. -/
theorem sheltered_lowerArg {arg : Expr} (harg : Shelters calls arg.isPlace (lowerExpr arg))
    (hs : s.Sheltered calls)
    (h : outcome (lowerArg arg.bindingKey (lowerExpr arg)) s = (.ok w, t)) :
    t.Sheltered calls ∧ Advances s t ∧
      ((arg.bindingKey.isNone && arg.isPlace) = false → ∀ c, t.At c → (t.body c).Ordinary w) := by
  have ha := (walks_lowerArg harg.yields hs.valid arg.bindingKey).advances hs.valid h
  have hmaterialize : ∀ {v u}, outcome (lowerExpr arg) s = (.ok (some v), u) →
      outcome (materialize v) u = (.ok w, t) →
      t.Sheltered calls ∧ ∀ c, t.At c → (t.body c).Ordinary w := fun hok hmat =>
    sheltered_materialize (harg.sheltered hs hok) (fun c hc => harg.knows hs hok hc) hmat
  by_cases hident : ∃ id name, arg = .ident id name
  · obtain ⟨id, name, rfl⟩ := hident
    obtain ⟨v, hok, hmat⟩ := outcome_lowerArg_ident_eq hs.consistent h
    obtain ⟨ht, hw⟩ := hmaterialize hok hmat
    exact ⟨ht, ha, fun _ => hw⟩
  · obtain ⟨v, u, hok, ⟨rfl, rfl⟩ | hmat⟩ := lowerArg_succeeds h
    · refine ⟨harg.sheltered hs hok, ha, fun hplace c hc => ?_⟩
      have hkey : arg.bindingKey = none := by
        cases arg with
        | ident id name => exact absurd ⟨id, name, rfl⟩ hident
        | _ => rfl
      rw [hkey] at hplace
      exact harg.ordinary hs hok hc hplace
    · obtain ⟨ht, hw⟩ := hmaterialize hok hmat
      exact ⟨ht, ha, fun _ => hw⟩

theorem leaves_lowerCall {args : LowerM (List Value)} {callee : String} {count : Nat}
    (hargs : ∀ {values u}, outcome args s = (.ok values, u) → u.Sheltered calls ∧
      (calls → ∀ v ∈ values, ∀ c, u.At c → (u.body c).Ordinary v))
    (h : outcome (lowerCall callee count args) s = (.ok v, t)) : Leaves calls t v := by
  obtain ⟨func, values, u, c, hok, hc, rfl, rfl⟩ := lowerCall_succeeds h
  obtain ⟨hu, hvalues⟩ := hargs hok
  exact hu.leaves_emit hc (.call func values) (fun hcalls v hv => hvalues (hcalls rfl) v hv c hc)
    (by simp) _ _

/-! ### Regions -/

theorem Lowerer.Sheltered.fork (hs : s.Sheltered calls) (hc : s.At c) {cond : Value}
    (hcond : (s.body c).Ordinary cond) : (s.fork c cond).Sheltered calls := by
  refine ((hs.addBlock hc "then").addBlock hc "else").emit hc (.condBr cond _ _)
    (fun _ v hv => ?_) .void none
  obtain rfl := List.mem_singleton.mp hv
  exact (advances_addArms hc).ordinary hs.valid hc hcond

theorem guarded_lowerIf (hx : Shelters calls p x) (hy : Shelters calls q y)
    (hz : Shelters calls r z) (hs : s.Sheltered calls)
    (h : outcome (lowerIf x y z) s = (.ok (), t)) :
    t.Each (IR.Function.Guarded calls) := by
  obtain ⟨cond, u, c, result, t₁, result', t₂, hcond, hc, hthen, helse, rfl⟩ :=
    lowerIf_succeeds hx.yields hs.valid h
  obtain ⟨hu, -, hordinary⟩ := hx.operand hs hcond
  have hfork := hu.fork hc (hordinary c hc)
  have ho := opens_then hu.valid hc cond
  have hinner : ((u.fork c cond).enter (u.nextCursor c)).Sheltered calls :=
    ⟨ho.valid hu.valid, hfork.consistent.enter hc rfl, by rw [ho.options, hu.strict],
      hfork.guarded.congr (enter_code _ _)⟩
  have ht₁ := hy.sheltered hinner hthen
  have ha₁ := hy.advances hinner hthen
  have ho' := opens_else hu.valid hc ha₁
  have hleft : t₁.leave.At c := (ho.close ha₁).at_iff.mpr hc
  have hinner' : (t₁.leave.enter { c with block := u.nextBlock c + 1 }).Sheltered calls :=
    ⟨ho'.valid hu.valid, ht₁.consistent.leave.enter hleft rfl, by rw [ho'.options, hu.strict],
      ht₁.guarded.congr (enter_code _ _)⟩
  exact (hz.sheltered hinner' helse).guarded.congr rfl

/-- The counter of a loop merges two values that are no slots. -/
theorem Lowerer.Sheltered.openLoop (hs : s.Sheltered calls) (hc : s.At c) {start : Value}
    (hstart : (s.body c).Ordinary start) : (s.openLoop c start).Sheltered calls := by
  have hjump : (s.jump c).Sheltered calls :=
    (hs.addBlock hc "loop").emit hc (.br _) (fun _ v hv => by cases hv) .void none
  have ho := opens_jump hs.valid hc
  have henter : ((s.jump c).enter (s.nextCursor c)).Sheltered calls :=
    ⟨ho.valid hs.valid, hjump.consistent.enter hc rfl, by rw [ho.options, hs.strict],
      hjump.guarded.congr (enter_code _ _)⟩
  have hbody : ((s.jump c).enter (s.nextCursor c)).body (s.nextCursor c) = (s.jump c).body c := by
    rw [Lowerer.body, enter_code]
    rfl
  have hphi := henter.emit ho.opened (.phi [(start, c.block)]) (fun _ v hv => by
    obtain rfl := List.mem_singleton.mp hv
    rw [hbody]
    exact (advances_jump hc).ordinary hs.valid hc hstart) .f64 (some s.options.inductionName)
  have hget := getElem?_emit ho.exists_block.1 (.phi [(start, c.block)]) .f64
    (some s.options.inductionName)
  rw [counter_eq hs.valid hc] at hget
  have hopen := opens_loop hs.valid hc start
  refine hphi.congr (hopen.valid hs.valid) ?_ ?_ (bindName_code _ _ _ _)
  · exact hphi.consistent.bindName ho.opened (.counter hget rfl rfl (congrArg _ ho.options.symm))
  · rw [hopen.options]
    exact ho.options.symm

theorem guarded_closeLoop (hs : s.Each (IR.Function.Guarded calls))
    (hd : d.func < s.code.functions.length) {k next : InstId} {name : String}
    {incoming : List (Value × BlockId)} {bound : Value} (hk : (s.body d).insts[k]?
      = some { op := .phi incoming, ty := .f64, name := some name, block := d.block })
    (hkn : k ≠ next) (hnext : (s.body d).Ordinary (.inst next)) (hbound : (s.body d).Ordinary bound)
    (hincoming : ∀ x ∈ incoming, (s.body d).Ordinary x.1) :
    (s.closeLoop d k next name incoming bound).Each (IR.Function.Guarded calls) := by
  have hcompare : (s.emit d (.fcmp .ole (.inst next) bound) .i1 none).Each
      (IR.Function.Guarded calls) := by
    refine guarded_emit hs d _ (fun _ v hv => ?_) .i1 none
    rcases List.mem_pair.mp hv with rfl | rfl
    · exact hnext
    · exact hbound
  have htest : (s.testLoop d next bound).Each (IR.Function.Guarded calls) :=
    ((hcompare.update fun _ hf => hf.setValueName _ _).update fun _ hf =>
      hf.setValueName _ _).update
      fun _ hf => hf.createBlock _
  have hkeeps := keeps_testLoop hd next bound
  have hcond : ((s.testLoop d next bound).body d).Ordinary (.inst (s.body d).insts.length) := by
    rw [body_testLoop hd]
    have hpush : ((s.body d).push d.block (.fcmp .ole (.inst next) bound) .i1 none).2.Ordinary
        (.inst (s.body d).insts.length) :=
      IR.Function.ordinary_inst (IR.Function.getElem?_push.mpr (.inr ⟨rfl, rfl⟩)) (by simp)
    exact hpush.keeps (((IR.Function.Keeps.setValueName _ _ _).trans (.setValueName _ _ _)).trans
      (.ofGrows (.createBlock 0 _ _)))
  have hbranch : ((s.testLoop d next bound).emit d (.condBr (.inst (s.body d).insts.length) d.block
      (s.body d).blocks.length) .void none).Each (IR.Function.Guarded calls) := by
    refine guarded_emit htest d _ (fun _ v hv => ?_) .void none
    obtain rfl := List.mem_singleton.mp hv
    exact hcond
  refine hbranch.update fun hlt hf => ?_
  have hbody := Lowerer.body_update (s := s.testLoop d next bound) (c := d)
    (fun f => (f.push d.block (.condBr (.inst (s.body d).insts.length) d.block
      (s.body d).blocks.length)
      .void none).2) (by simpa [Lowerer.testLoop] using hd)
  have hgrows : ((s.testLoop d next bound).body d).Keeps _ :=
    .ofGrows (.push _ d.block (.condBr (.inst (s.body d).insts.length) d.block
      (s.body d).blocks.length)
      .void none)
  rw [← hbody] at hgrows
  refine hf.setPhi (i := { op := .phi incoming, ty := .f64, name := some name, block := d.block })
    ?_ rfl rfl rfl
    rfl fun x hx => ?_
  · have hold := (IR.Function.GrowsAt.push _ d.block
      (.condBr (.inst (s.body d).insts.length) d.block
      (s.body d).blocks.length) .void none).some_of_some (getElem?_testLoop hd hk hkn bound)
    rwa [← hbody] at hold
  · rcases List.mem_append.mp hx with hold | hnew
    · exact ((hincoming x hold).keeps hkeeps).keeps hgrows
    · obtain rfl := List.mem_singleton.mp hnew
      exact (hnext.keeps hkeeps).keeps hgrows

theorem guarded_lowerLoop (hx : Shelters calls p x) (hy : Shelters calls q y)
    (hz : Shelters calls r z) (hs : s.Sheltered calls)
    (h : outcome (lowerLoop x y z) s = (.ok (), t)) :
    t.Each (IR.Function.Guarded calls) := by
  obtain ⟨start, u, c, result, t₁, bound, t₂, hstart, hc, hbody, hbound, rfl⟩ :=
    lowerLoop_succeeds hx.yields hy.yields hz.yields hs.valid h
  obtain ⟨hu, -, hordinary⟩ := hx.operand hs hstart
  have hopen := hu.openLoop hc (hordinary c hc)
  have ho := opens_loop hu.valid hc start
  have ht₁ := hy.sheltered hopen hbody
  have ha₁ := hy.advances hopen hbody
  have hat : t₁.At (u.nextCursor c) := ha₁.at_iff.mpr ho.opened
  -- The counter is a phi, and what follows it is a sum.
  have hcounter := (ha₁.body hopen.valid ho.opened).some_of_some
    (getElem?_counter hu.valid hc start)
  have hstep : Advances t₁ (t₁.advance (u.nextCursor c) (u.counter c)) := advances_emit hat _ _ _
  have hnext : (t₁.advance (u.nextCursor c) (u.counter c)).Sheltered calls := by
    refine ht₁.emit hat (.arith .fadd (.inst (u.counter c)) (.float .one)) (fun _ v hv => ?_) _ none
    rcases List.mem_pair.mp hv with rfl | rfl
    · exact IR.Function.ordinary_inst hcounter (by simp)
    · exact ⟨trivial, rfl⟩
  have hsum := ht₁.ordinary_emit hat (.arith .fadd (.inst (u.counter c)) (.float .one)) (by simp)
    ((t₁.body (u.nextCursor c)).valueType (.inst (u.counter c))) none
  obtain ⟨ht₂, ha₂, hlimit⟩ := hz.operand hnext hbound
  have hat₂ : t₂.At (u.nextCursor c) := ha₂.at_iff.mpr hat
  have hfrom : (t₂.leave.body c).Ordinary start :=
    (ho.close ((ha₁.trans hstep).trans ha₂)).ordinary hu.valid hc (hordinary c hc)
  have hclosed := guarded_closeLoop ht₂.guarded (ht₂.consistent.func_lt hat₂)
    (((hstep.trans ha₂).body ht₁.valid hat).some_of_some hcounter)
    (Nat.ne_of_lt (List.getElem?_eq_some_iff.mp hcounter).1) (ha₂.ordinary hnext.valid hat hsum)
    (hlimit _ hat₂) (fun x hx => by
      obtain rfl := List.mem_singleton.mp hx
      exact hfrom)
  exact guarded_emit (hclosed.congr rfl) _ (.ret none) (fun _ v hv => by cases hv) _ _

/-! ### Functions -/

/-- No parameter is a pointer. -/
theorem typeOf_ne_ptr (name : String) : typeOf name ≠ .ptr := by
  unfold typeOf
  split <;> simp

theorem Lowerer.Sheltered.openFunction (hs : s.Sheltered calls) (name : String)
    (params : List Param) (ret : Ty) :
    (s.openFunction name params ret).Sheltered calls where
  valid := (opens_function s name params ret).valid hs.valid
  consistent := hs.consistent.openFunction name params ret
  strict := by rw [(opens_function s name params ret).options, hs.strict]
  guarded := by
    refine hs.guarded.openFunction name params ret fun _ _ => ⟨?_, fun i hi => by cases hi⟩
    intro hptr
    obtain ⟨p, -, hp⟩ := List.mem_map.mp hptr
    exact typeOf_ne_ptr p.ty hp

theorem guarded_lowerFn (hx : Shelters calls p x) (hs : s.Sheltered calls) {retTy : Option String}
    {name : String} {params : List Param} {returns : Bool}
    (h : outcome (lowerFn retTy name params returns x) s = (.ok (), t)) :
    t.Each (IR.Function.Guarded calls) := by
  obtain ⟨result, u, hbody, rfl⟩ := lowerFn_succeeds hx.yields hs.valid h
  have hguarded := hx.guarded (hs.openFunction name params (returnType retTy)) hbody
  refine Lowerer.Each.congr (s := u.endFunction s.nextFunction (returnType retTy) returns) ?_ rfl
  unfold Lowerer.endFunction
  split
  · exact guarded_emit hguarded _ (.ret none) (fun _ v hv => by cases hv) _ _
  · exact hguarded

end Constructs

theorem guarded_lowerIdent {name : String} (hs : s.Sheltered calls)
    (h : outcome (lowerIdent name) s = (.ok v, t)) :
    t.Each (IR.Function.Guarded calls) := by
  obtain ⟨-, rfl⟩ := lowerIdent_succeeds h
  exact hs.guarded

/-- A constant is no slot. -/
theorem shelters_const (k : IR.Const) (place : Bool) :
    Shelters calls place (pure (some (Value.const k))) where
  yields _ _ := .pure (by simpa using .const k)
  stable := fun _ hs => hs
  guarded hs h := by
    cases h
    exact hs.guarded
  ordinary _ h _ _ := by
    cases h
    exact ⟨trivial, rfl⟩

/-! ### The walk -/

/-- What holds of two parts if it holds of the whole. -/
theorem passes_or {a b : Bool} (h : calls → (a || b) = false) :
    (calls → a = false) ∧ (calls → b = false) :=
  ⟨fun hcalls => (Bool.or_eq_false_iff.mp (h hcalls)).1,
    fun hcalls => (Bool.or_eq_false_iff.mp (h hcalls)).2⟩

mutual

theorem lowerExpr_shelters : ∀ e : Expr, (calls → e.passesPlace = false) →
    Shelters calls e.isPlace (lowerExpr e)
  | .int .., _ => shelters_const _ _
  | .double .., _ => shelters_const _ _
  | .string id raw, _ => by
    refine .value (lowerExpr_yields (.string id raw)) (lowerExpr_stable (.string id raw))
      fun hs h => ?_
    cases h
    exact ⟨hs.guarded, fun _ _ => ⟨trivial, rfl⟩⟩
  | .ident id name, _ =>
    .place (lowerExpr_yields (.ident id name)) (lowerExpr_stable (.ident id name))
      guarded_lowerIdent
  | .call id callee args, hcalls =>
    .value (lowerExpr_yields (.call id callee args)) (lowerExpr_stable (.call id callee args))
      fun hs h => leaves_lowerCall (fun hok => lowerArgs_sheltered args hcalls hs hok) h
  | .binary id op left right, hcalls => by
    obtain ⟨hleft, hright⟩ := passes_or hcalls
    exact .value (lowerExpr_yields (.binary id op left right))
      (lowerExpr_stable (.binary id op left right))
      fun hs h => leaves_lowerBinary (lowerExpr_shelters left hleft)
        (lowerExpr_shelters right hright) hs h
  | .assign id target value, hcalls =>
    .value (lowerExpr_yields (.assign id target value)) (lowerExpr_stable (.assign id target value))
      fun hs h => leaves_lowerAssign (lowerExpr_shelters value hcalls) hs h
  | .ifElse id cond thenBlock elseBlock, hcalls => by
    obtain ⟨hcond, harms⟩ := passes_or hcalls
    obtain ⟨hthen, helse⟩ := passes_or harms
    exact .none (lowerExpr_yields (.ifElse id cond thenBlock elseBlock))
      (lowerExpr_stable (.ifElse id cond thenBlock elseBlock)) fun hs h =>
        guarded_lowerIf (lowerExpr_shelters cond hcond) (lowerBlock_shelters thenBlock hthen)
          (lowerBlock_shelters elseBlock helse) hs h
  | .loop id start limit body, hcalls => by
    obtain ⟨hstart, hrest⟩ := passes_or hcalls
    obtain ⟨hbody, hlimit⟩ := passes_or hrest
    exact .none (lowerExpr_yields (.loop id start limit body))
      (lowerExpr_stable (.loop id start limit body)) fun hs h =>
        guarded_lowerLoop (lowerExpr_shelters start hstart) (lowerBlock_shelters body hbody)
          (lowerExpr_shelters limit hlimit) hs h
  | .block _ body, hcalls => lowerBlock_shelters body hcalls

theorem lowerArgs_sheltered : ∀ args : List Expr, (calls → argsPassPlace args = false) →
    ∀ {s t : Lowerer} {values : List Value}, s.Sheltered calls →
      outcome (lowerArgs args) s = (.ok values, t) →
      t.Sheltered calls ∧ (calls → ∀ v ∈ values, ∀ c, t.At c → (t.body c).Ordinary v)
  | [], _, s, t, values, hs, h => by
    cases h
    exact ⟨hs, fun _ v hv => by cases hv⟩
  | arg :: args, hcalls, s, t, values, hs, h => by
    obtain ⟨hplace, hparts⟩ := passes_or hcalls
    obtain ⟨harg, hargs⟩ := passes_or hparts
    rw [lowerArgs] at h
    obtain ⟨v, u, hfirst, hk⟩ := (outcome_bind_eq_ok s).mp h
    obtain ⟨vs, u', hrest, hend⟩ := (outcome_bind_eq_ok u).mp hk
    cases hend
    obtain ⟨hu, -, hv⟩ := sheltered_lowerArg (lowerExpr_shelters arg harg) hs hfirst
    obtain ⟨ht, hvs⟩ := lowerArgs_sheltered args hargs hu hrest
    have ha := (lowerArgs_walks args u hu.valid).advances hu.valid hrest
    refine ⟨ht, fun hc w hw c hat => ?_⟩
    rcases List.mem_cons.mp hw with rfl | hlater
    · exact ha.ordinary hu.valid (ha.at_iff.mp hat) (hv (hplace hc) c (ha.at_iff.mp hat))
    · exact hvs hc w hlater c hat

theorem lowerStmt_shelters : ∀ stmt : Stmt, (calls → stmt.passesPlace = false) →
    Shelters calls stmt.isPlace (lowerStmt stmt)
  | .expr _ value, hcalls => lowerExpr_shelters value hcalls
  | .ret id none, _ =>
    .value (lowerStmt_yields (.ret id none)) (lowerStmt_stable (.ret id none))
      leaves_lowerReturn_none
  | .ret id (some value), hcalls =>
    .value (lowerStmt_yields (.ret id (some value))) (lowerStmt_stable (.ret id (some value)))
      fun hs h => leaves_lowerReturn (lowerExpr_shelters value hcalls) hs h
  | .var id ty name none, _ =>
    .place (lowerStmt_yields (.var id ty name none)) (lowerStmt_stable (.var id ty name none))
      guarded_lowerIdent
  | .var id ty name (some init), hcalls =>
    .place (lowerStmt_yields (.var id ty name (some init)))
      (lowerStmt_stable (.var id ty name (some init)))
      fun hs h => guarded_lowerVar (lowerExpr_shelters init hcalls) hs h
  | .fn id retTy name params body, hcalls =>
    .none (lowerStmt_yields (.fn id retTy name params body))
      (lowerStmt_stable (.fn id retTy name params body))
      fun hs h => guarded_lowerFn (lowerBlock_shelters body hcalls) hs h
  | .block _ body, hcalls => lowerBlock_shelters body hcalls

theorem lowerBlock_shelters : ∀ b : Block, (calls → b.passesPlace = false) →
    Shelters calls b.isPlace (lowerBlock b)
  | .mk _ stmts, hcalls => by
    refine ⟨lowerBlock_yields _, lowerBlock_stable _, fun hs h => ?_, fun hs h hc hplace => ?_⟩
    · exact (lowerStmts_sheltered stmts none false hcalls hs (fun v hv => by cases hv) h).1
    · exact (lowerStmts_sheltered stmts none false hcalls hs (fun v hv => by cases hv) h).2 _
        rfl hplace _ hc

theorem lowerStmts_sheltered : ∀ (stmts : List Stmt) (last : Option Value) (place : Bool),
    (calls → stmtsPassPlace stmts = false) → ∀ {s t : Lowerer} {r : Option Value},
      s.Sheltered calls →
    (∀ v ∈ last, place = false → ∀ c, s.At c → (s.body c).Ordinary v) →
    outcome (lowerStmts last stmts) s = (.ok r, t) → t.Each (IR.Function.Guarded calls) ∧
      ∀ v ∈ r, endInPlace place stmts = false → ∀ c, t.At c → (t.body c).Ordinary v
  | [], last, place, _, s, t, r, hs, hlast, h => by
    cases h
    exact ⟨hs.guarded, hlast⟩
  | stmt :: stmts, last, place, hcalls, s, t, r, hs, _, h => by
    obtain ⟨hfirst, hlater⟩ := passes_or hcalls
    obtain ⟨value, u, hstmt, hrest⟩ := lowerStmts_succeeds hs.strict h
    have hshelters := lowerStmt_shelters stmt hfirst
    refine lowerStmts_sheltered stmts value stmt.isPlace hlater
      (hshelters.sheltered hs hstmt) ?_ hrest
    rintro v rfl hplace c hc
    exact hshelters.ordinary hs hstmt hc hplace

end

/-! ### Programs -/

theorem start_sheltered (options : Options) (hpolicy : options.policy = .failFast) :
    (start options).Sheltered calls where
  valid := start_valid options
  consistent := start_consistent options
  strict := hpolicy
  guarded := by
    refine start_each options ⟨by decide, fun i hi => by cases hi⟩ (fun name => ?_)
      fun _ => ⟨by simp [IR.Function.new], fun i hi => by cases hi⟩
    have hempty : ((IR.Function.new name { params := [.str], ret := .void }
        .concealed).setParamName 0 "text").Guarded calls :=
      ⟨by simp [IR.Function.setParamName, IR.Function.new], fun i hi => by cases hi⟩
    have hpassed : ∀ {f : IR.Function} {callee : FuncId} {v : Value}, (∀ k, v ≠ .inst k) →
        ∀ w ∈ (Op.call callee [v]).contents, f.Ordinary w := by
      intro f callee v hv w hw
      obtain rfl := List.mem_singleton.mp hw
      cases w with
      | inst k => exact absurd rfl (hv k)
      | _ => exact ⟨trivial, rfl⟩
    refine IR.Function.Guarded.push (((hempty.createBlock _).push ?_ _ _ _).push ?_ _ _ _) ?_ _ _ _
    · exact fun _ => hpassed (by simp)
    · exact fun _ => hpassed (by simp)
    · exact fun _ v hv => by cases hv

/-- **Slots are used as addresses.**  If a program lowers without an error and the verifier accepts
its module, the address of a stack slot is used for nothing but loads and stores, unless the program
passes a block that ends in a name or in a declaration to a function.  And even then it is only
passed on, to a function with any number of arguments, in addition to the declared ones. -/
theorem lowerProgram_slots {root : Block} {options : Options} {l : Lowered}
    (h : lowerProgram root options = .ok l) (herrors : l.errors = []) (hverify : l.code.verify = [])
    {f : IR.Function} (hf : f ∈ l.code.functions) {i : IR.Inst} (hi : i ∈ f.insts) {n : Nat}
    {v : Value} (hv : i.op.contents[n]? = some v) (hslot : f.slotType v ≠ none) :
    root.passesPlace = true ∧ ∃ callee args, i.op = .call callee args ∧
      (l.code.function callee).sig.variadic = true ∧
        (l.code.function callee).sig.params.length ≤ n := by
  obtain ⟨r, t, hok, hcode⟩ := lowerProgram_succeeds h herrors
  have hstart : (start { options with policy := .failFast }).Sheltered (root.passesPlace = false) :=
    start_sheltered _ rfl
  have hlast := (lowerBlock_shelters root fun hcalls => hcalls).guarded hstart hok
  have hclosed : ({ t with code := l.code } : Lowerer).Each
      (IR.Function.Guarded (root.passesPlace = false)) := by
    rw [hcode, closeModule]
    split
    · exact hlast
    · exact guarded_emit hlast entryCursor (.ret none) (fun _ v hv => by cases hv) .void none
  obtain ⟨id, hid, rfl⟩ := IR.Module.exists_function_of_mem hf
  have hmem : v ∈ i.op.contents := List.mem_of_getElem? hv
  by_cases hexempt : i.op.isCall = true ∧ root.passesPlace = true
  · obtain ⟨hcall, hpasses⟩ := hexempt
    refine ⟨hpasses, ?_⟩
    obtain ⟨callee, args, hop⟩ : ∃ callee args, i.op = .call callee args := by
      cases hop : i.op <;> simp [hop, Op.isCall] at hcall
      exact ⟨_, _, rfl⟩
    obtain ⟨k, hk⟩ := List.mem_iff_getElem?.mp hi
    have hchecked := lowerProgram_checked h hverify hf
    have hcheck := hchecked.checked hk
    have htyped := hchecked.laid.rules.typed hk
    rw [hop] at htyped hv
    simp only [IR.Function.checkInst, hop] at hcheck
    obtain ⟨hlt, haccepts, -⟩ := IR.Function.Typed.plain_call htyped
    -- A declared parameter is not a pointer, and a slot is one.
    have hbeyond : (l.code.function callee).sig.params.length ≤ n := by
      by_contra hless
      have hparam := List.getElem?_eq_getElem (Nat.lt_of_not_le hless)
      have hty := IR.Function.valueType_of_checkCall hcheck haccepts hv hparam
      obtain ⟨ty, hslot⟩ := Option.ne_none_iff_exists'.mp hslot
      rw [hchecked.laid.valueType_of_slotType hslot] at hty
      exact (hclosed callee hlt).params (hty ▸ List.getElem_mem _)
    refine ⟨callee, args, hop, ?_, hbeyond⟩
    by_contra hfixed
    have hcount : args.length = (l.code.function callee).sig.params.length := by
      simpa [IR.Signature.accepts, hfixed] using haccepts
    have hn : n < args.length := (List.getElem?_eq_some_iff.mp hv).1
    omega
  · have hordinary := (hclosed id hid).contents i hi (fun hcall => by
      simpa [hcall] using hexempt) v hmem
    exact absurd hordinary.2 hslot

/-- A variable is printed, by its name. -/
def printedVariable : Block :=
  .mk 0 [
    .var 1 "int" "x" (some (.int 2 5)),
    .expr 3 (.call 4 "printf" [.string 5 "\"%d\"", .ident 6 "x"])]

theorem lowerProgram_slots_printedVariable :
    ∃ l f, lowerProgram printedVariable {} = .ok l ∧ l.errors = [] ∧ l.code.verify = [] ∧
      f ∈ l.code.functions ∧ (∃ i ∈ f.insts, i.op = .alloca .i64) ∧
      ∀ i ∈ f.insts, ∀ v ∈ i.op.contents, f.slotType v = none := by
  have hrun : ((lowerProgram printedVariable {}).toOption.any fun l =>
      decide (l.errors = [] ∧ l.code.verify = [] ∧
        ∃ f ∈ l.code.functions, ∃ i ∈ f.insts, i.op = .alloca .i64)) = true := by decide +kernel
  rcases h : lowerProgram printedVariable {} with e | l
  · simp [h, Except.toOption] at hrun
  · simp only [h, Except.toOption, Option.any_some, decide_eq_true_eq] at hrun
    obtain ⟨herrors, hverify, f, hf, hslot⟩ := hrun
    refine ⟨l, f, rfl, herrors, hverify, hf, hslot, fun i hi v hv => ?_⟩
    by_contra hslot
    obtain ⟨n, hn⟩ := List.mem_iff_getElem?.mp hv
    have hpasses := (lowerProgram_slots h herrors hverify hf hi hn hslot).1
    simp [printedVariable, Block.passesPlace, stmtsPassPlace, Stmt.passesPlace, Expr.passesPlace,
      argsPassPlace, Expr.bindingKey, Expr.isPlace] at hpasses

/-- A variable is printed where it is declared. -/
def printedDeclaration : Block :=
  .mk 0 [.expr 1 (.call 2 "printf" [.string 3 "\"%d\"",
    .block 4 (.mk 5 [.var 6 "int" "x" (some (.int 7 5))])])]

/-- A block that ends in a declaration does pass a slot on. -/
theorem lowerProgram_slot_passed :
    ¬ ∀ l, lowerProgram printedDeclaration {} = .ok l → l.errors = [] → l.code.verify = [] →
      ∀ f ∈ l.code.functions, ∀ i ∈ f.insts, ∀ v ∈ i.op.contents, f.slotType v = none := by
  have hrun : ((lowerProgram printedDeclaration {}).toOption.any fun l =>
      decide (l.errors = [] ∧ l.code.verify = [] ∧
        ∃ f ∈ l.code.functions, ∃ i ∈ f.insts, ∃ v ∈ i.op.contents,
          f.slotType v ≠ none)) = true := by
    decide +kernel
  intro hclaim
  rcases h : lowerProgram printedDeclaration {} with e | l
  · simp [h, Except.toOption] at hrun
  · simp only [h, Except.toOption, Option.any_some, decide_eq_true_eq] at hrun
    obtain ⟨herrors, hverify, f, hf, i, hi, v, hv, hslot⟩ := hrun
    exact hslot (hclaim l h herrors hverify f hf i hi v hv)

end Lowering

end TreeCompiler
