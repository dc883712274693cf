/-
Functions while they are being built.

A function starts without blocks and is built by changes of five kinds: a block is added, an
instruction is emitted at the end of a block, a phi gets another input, an instruction is named, a
parameter is named.  They come in any order, blocks are filled in turns, and giving an input to
something that is no phi fails.

Where an instruction stands is kept twice, in the list of its block and in the instruction.  The
printer goes by the one and the generator by the other, so both have to agree after any run of
changes: `Placement` survives each kind of change (`placement_after`) and with that every run.  What
an earlier answer refers to survives too.  A block keeps its name and its instructions, and of an
instruction only the name and the inputs of a phi ever change; `revise` says to what, and
`getElem?_build` that it is exactly what the changes since then ask for.
-/
import TreeCompiler.Proofs.IR.Layout
import TreeCompiler.Proofs.Lowering.Step

namespace TreeCompiler.IR

/-! ### What may change about an instruction -/

/-- Give a phi further inputs.  Other operations have none. -/
def Op.extend (new : List (Value × BlockId)) : Op → Op
  | .phi old => .phi (old ++ new)
  | op => op

theorem Op.extend_nil (op : Op) : op.extend [] = op := by
  cases op with
  | phi old => exact congrArg Op.phi (List.append_nil old)
  | _ => rfl

theorem Op.extend_extend (op : Op) (a b : List (Value × BlockId)) :
    (op.extend a).extend b = op.extend (a ++ b) := by
  cases op with
  | phi old => exact congrArg Op.phi (List.append_assoc old a b)
  | _ => rfl

theorem Op.extend_of_not_isPhi {op : Op} (h : op.isPhi = false) (new : List (Value × BlockId)) :
    op.extend new = op := by
  cases op with
  | phi old => cases h
  | _ => rfl

/-- The same instruction, in the same block and with a result of the same type, with further inputs
if it is a phi and with another name if one is given. -/
def Inst.revise (i : Inst) (inputs : List (Value × BlockId)) (name : Option String) : Inst :=
  { i with op := i.op.extend inputs, name := name.or i.name }

theorem Inst.revise_nil (i : Inst) : i.revise [] none = i := by
  simp [revise, Op.extend_nil]

theorem Inst.revise_revise (i : Inst) (a b : List (Value × BlockId)) (m n : Option String) :
    (i.revise a m).revise b n = i.revise (a ++ b) (n.or m) := by
  simp [revise, Op.extend_extend, Option.or_assoc]

namespace Function

/-! ### Changes -/

/-- An instruction as it is asked for, before it has a place. -/
inductive Emission where
  | alloca (ty : Ty) (name : String)
  | load (ty : Ty) (ptr : Value)
  | store (value ptr : Value) (volatile : Bool)
  | arith (op : Arith) (lhs rhs : Value)
  | fcmp (pred : Compare) (lhs rhs : Value)
  | call (callee : FuncId) (ret : Ty) (args : List Value)
  | phi (ty : Ty) (name : String)
  | ret (value : Option Value)
  | br (target : BlockId)
  | condBr (cond : Value) (thenBlock elseBlock : BlockId)
  deriving DecidableEq, Repr

/-- Emit an instruction at the end of a block. -/
def emit (f : Function) (b : BlockId) : Emission → Value × Function
  | .alloca ty name => f.alloca b ty name
  | .load ty ptr => f.load b ty ptr
  | .store value ptr volatile => f.store b value ptr volatile
  | .arith op lhs rhs => f.arith b op lhs rhs
  | .fcmp pred lhs rhs => f.fcmp b pred lhs rhs
  | .call callee ret args => f.call b callee ret args
  | .phi ty name => f.phi b ty name
  | .ret value => f.ret b value
  | .br target => f.br b target
  | .condBr cond thenBlock elseBlock => f.condBr b cond thenBlock elseBlock

/-- Whatever is emitted, one instruction is added to the block. -/
theorem emit_eq_push (f : Function) (b : BlockId) (e : Emission) :
    ∃ op ty name, f.emit b e = f.push b op ty name := by
  cases e <;> exact ⟨_, _, _, rfl⟩

/-- A change to a function that is being built. -/
inductive Change where
  | block (base : String)
  | emission (b : BlockId) (e : Emission)
  | incoming (phi value : Value) (source : BlockId)
  | valueName (value : Value) (name : String)
  | paramName (index : Nat) (name : String)
  deriving DecidableEq, Repr

/-- What a change answers if it succeeds. -/
inductive Answer where
  | done
  | block (id : BlockId)
  | value (value : Value)
  deriving DecidableEq, Repr

/-- Make a change: the answer, and the function after it. -/
def change (f : Function) : Change → Except PhiError Answer × Function
  | .block base => (.ok (.block (f.createBlock base).1), (f.createBlock base).2)
  | .emission b e => (.ok (.value (f.emit b e).1), (f.emit b e).2)
  | .incoming phi value source =>
    match f.addIncoming phi value source with
    | .error e => (.error e, f)
    | .ok g => (.ok .done, g)
  | .valueName value name => (.ok .done, f.setValueName value name)
  | .paramName index name => (.ok .done, f.setParamName index name)

/-- The function after a change. -/
def after (f : Function) (c : Change) : Function := (f.change c).2

/-- The function after a sequence of changes. -/
def build (f : Function) : List Change → Function
  | [] => f
  | c :: cs => (f.after c).build cs

/-- Instructions are only emitted into blocks that exist. -/
def Admits (f : Function) : Change → Prop
  | .emission b _ => b < f.blocks.length
  | _ => True

/-- Every change of a sequence is admitted when its turn comes. -/
def Admissible : Function → List Change → Prop
  | _, [] => True
  | f, c :: cs => f.Admits c ∧ Admissible (f.after c) cs

instance decidableAdmits (f : Function) : ∀ c : Change, Decidable (f.Admits c)
  | .emission b _ => inferInstanceAs (Decidable (b < f.blocks.length))
  | .block _ | .incoming .. | .valueName .. | .paramName .. => inferInstanceAs (Decidable True)

instance decidableAdmissible : ∀ (f : Function) (cs : List Change), Decidable (f.Admissible cs)
  | _, [] => inferInstanceAs (Decidable True)
  | f, c :: cs =>
    have := decidableAdmissible (f.after c) cs
    inferInstanceAs (Decidable (_ ∧ _))

variable {f g h : Function} {c : Change} {cs : List Change} {b : BlockId} {k : InstId} {i : Inst}

theorem build_append (f : Function) (cs cs' : List Change) :
    f.build (cs ++ cs') = (f.build cs).build cs' := by
  induction cs generalizing f with
  | nil => rfl
  | cons c cs ih => exact ih (f.after c)

/-- An input goes to a phi of the function, and is refused by everything else. -/
theorem addIncoming_cases (f : Function) (phi value : Value) (source : BlockId) :
    (∃ k i old, phi = .inst k ∧ f.insts[k]? = some i ∧ i.op = .phi old ∧
      f.addIncoming phi value source
        = .ok (f.setPhi k { i with op := .phi (old ++ [(value, source)]) })) ∨
    f.addIncoming phi value source = .error (.notAPhi phi) ∧
      ∀ k i, phi = .inst k → f.insts[k]? = some i → i.op.isPhi = false := by
  cases phi with
  | inst k =>
    rcases hk : f.insts[k]? with _ | ⟨op, ty, name, block⟩
    · refine .inr ⟨by simp only [addIncoming, hk], fun k' i hk' hi => ?_⟩
      cases hk'
      rw [hk] at hi
      cases hi
    · cases op with
      | phi old => exact .inl ⟨k, _, old, rfl, hk, rfl, addIncoming_phi hk value source⟩
      | _ =>
        refine .inr ⟨by simp only [addIncoming, hk], fun k' i hk' hi => ?_⟩
        cases hk'
        rw [hk] at hi
        cases hi
        rfl
  | _ => exact .inr ⟨rfl, fun _ _ hk' => (by cases hk')⟩

/-! ### Placement -/

theorem placement_new (name : String) (sig : Signature) (linkage : Linkage) :
    (new name sig linkage).Placement :=
  ⟨fun hi => (by cases hi), fun hk => (by cases hk), fun _ => .nil⟩

theorem placement_after (hf : f.Placement) (hc : f.Admits c) : (f.after c).Placement := by
  cases c with
  | block base => exact hf.createBlock base
  | emission b e =>
    obtain ⟨op, ty, name, hpush⟩ := emit_eq_push f b e
    show (f.emit b e).2.Placement
    rw [hpush]
    exact hf.push hc op ty name
  | incoming phi value source =>
    simp only [after, change]
    rcases addIncoming_cases f phi value source with ⟨k, i, old, -, hi, -, hok⟩ | ⟨herror, -⟩
    · rw [hok]
      exact hf.setPhi hi rfl
    · rw [herror]
      exact hf
  | valueName value name => exact hf.setValueName value name
  | paramName index name => exact ⟨hf.placed, hf.listed, hf.increasing⟩

theorem placement_build (hf : f.Placement) (hcs : f.Admissible cs) : (f.build cs).Placement := by
  induction cs generalizing f with
  | nil => exact hf
  | cons c cs ih => exact ih (placement_after hf hcs.1) hcs.2

/-! ### What stays -/

/-- `g` is what `f` has become: its blocks are still there, under the same names and with the
instructions that they had, and so is everything that was said about the function as a whole. -/
structure Continues (f g : Function) : Prop where
  name : g.name = f.name
  sig : g.sig = f.sig
  linkage : g.linkage = f.linkage
  params : g.paramNames.length = f.paramNames.length
  blocks : f.blocks.length ≤ g.blocks.length
  labels : ∀ b < f.blocks.length, g.label b = f.label b
  ids : ∀ b, f.ids b <+: g.ids b

namespace Continues

theorem refl (f : Function) : Continues f f :=
  ⟨rfl, rfl, rfl, rfl, Nat.le_refl _, fun _ _ => rfl, fun _ => List.prefix_refl _⟩

theorem trans (hfg : Continues f g) (hgh : Continues g h) : Continues f h where
  name := hgh.name.trans hfg.name
  sig := hgh.sig.trans hfg.sig
  linkage := hgh.linkage.trans hfg.linkage
  params := hgh.params.trans hfg.params
  blocks := Nat.le_trans hfg.blocks hgh.blocks
  labels b hb := (hgh.labels b (Nat.lt_of_lt_of_le hb hfg.blocks)).trans (hfg.labels b hb)
  ids b := (hfg.ids b).trans (hgh.ids b)

theorem ofGrows (hg : GrowsAt b f g) : Continues f g :=
  ⟨hg.name, hg.sig, hg.linkage, congrArg List.length hg.paramNames, hg.blocks, hg.labels, hg.ids⟩

end Continues

/-- Instructions that are there may be written over; that is no matter of the blocks. -/
theorem continues_withInsts (f : Function) (insts : List Inst) : Continues f { f with insts } :=
  ⟨rfl, rfl, rfl, rfl, Nat.le_refl _, fun _ _ => rfl, fun _ => List.prefix_refl _⟩

theorem continues_after (f : Function) (c : Change) : Continues f (f.after c) := by
  cases c with
  | block base => exact .ofGrows (.createBlock 0 f base)
  | emission b e =>
    obtain ⟨op, ty, name, hpush⟩ := emit_eq_push f b e
    show Continues f (f.emit b e).2
    rw [hpush]
    exact .ofGrows (.push f b op ty name)
  | incoming phi value source =>
    simp only [after, change]
    rcases addIncoming_cases f phi value source with ⟨k, i, old, -, hi, -, hok⟩ | ⟨herror, -⟩
    · rw [hok]
      exact continues_withInsts f _
    · rw [herror]
      exact .refl f
  | valueName value name =>
    cases value with
    | inst k => exact continues_withInsts f _
    | _ => exact .refl f
  | paramName index name =>
    exact { Continues.refl f with params := List.length_set }

theorem continues_build (f : Function) (cs : List Change) : Continues f (f.build cs) := by
  induction cs generalizing f with
  | nil => exact .refl f
  | cons c cs ih => exact (continues_after f c).trans (ih _)

/-! ### What becomes of an instruction -/

/-- The input that a change gives to instruction `k`. -/
def Change.inputsTo (k : InstId) : Change → List (Value × BlockId)
  | .incoming phi value source => if phi = .inst k then [(value, source)] else []
  | _ => []

/-- The name that a change gives to instruction `k`. -/
def Change.nameFor (k : InstId) : Change → Option String
  | .valueName value name => if value = .inst k then some name else none
  | _ => none

/-- The last name that a sequence of changes gives to instruction `k`. -/
def lastName (k : InstId) : List Change → Option String
  | [] => none
  | c :: cs => (lastName k cs).or (c.nameFor k)

theorem getElem?_after (hk : f.insts[k]? = some i) (c : Change) :
    (f.after c).insts[k]? = some (i.revise (c.inputsTo k) (c.nameFor k)) := by
  have hlt : k < f.insts.length := (List.getElem?_eq_some_iff.mp hk).1
  cases c with
  | block base => exact hk.trans (congrArg some i.revise_nil.symm)
  | emission b e =>
    obtain ⟨op, ty, name, hpush⟩ := emit_eq_push f b e
    have hkept : (f.emit b e).2.insts[k]? = some i := by
      rw [hpush]
      exact getElem?_push.mpr (.inl hk)
    exact hkept.trans (congrArg some i.revise_nil.symm)
  | incoming phi value source =>
    simp only [after, change, Change.inputsTo, Change.nameFor]
    rcases addIncoming_cases f phi value source with ⟨j, i', old, rfl, hj, hop, hok⟩ | ⟨herror, hno⟩
    · rw [hok]
      by_cases hjk : j = k
      · subst hjk
        rw [hk] at hj
        cases hj
        refine (getElem?_setPhi hlt).mpr (.inl ⟨rfl, ?_⟩)
        simp [Inst.revise, hop, Op.extend]
      · have hne : (Value.inst j) ≠ .inst k := fun heq => hjk (Value.inst.inj heq)
        rw [if_neg hne, Inst.revise_nil]
        exact (getElem?_setPhi (List.getElem?_eq_some_iff.mp hj).1).mpr (.inr ⟨Ne.symm hjk, hk⟩)
    · rw [herror, hk]
      by_cases hphi : phi = .inst k
      · simp [Inst.revise, Op.extend_of_not_isPhi (hno k i hphi hk)]
      · rw [if_neg hphi, Inst.revise_nil]
  | valueName value name =>
    show (f.setValueName value name).insts[k]? = _
    simp only [Change.inputsTo, Change.nameFor]
    by_cases hvalue : value = .inst k
    · subst hvalue
      simp [setValueName, hk, Inst.revise, Op.extend_nil]
    · rw [if_neg hvalue, Inst.revise_nil]
      cases value with
      | inst j => rw [setValueName_getElem?_ne fun heq => hvalue (congrArg Value.inst heq.symm), hk]
      | _ => exact hk
  | paramName index name => exact hk.trans (congrArg some i.revise_nil.symm)

/-- **What becomes of an instruction**: a phi has the inputs that it was given since, in order, and
the instruction has the last name that it was given.  Nothing else has changed. -/
theorem getElem?_build (hk : f.insts[k]? = some i) (cs : List Change) :
    (f.build cs).insts[k]? = some (i.revise (cs.flatMap (·.inputsTo k)) (lastName k cs)) := by
  induction cs generalizing f i with
  | nil => exact hk.trans (congrArg some i.revise_nil.symm)
  | cons c cs ih =>
    rw [build, ih (getElem?_after hk c), Inst.revise_revise, List.flatMap_cons, lastName]

/-! ### Answers -/

/-- A block that is answered is the next one. -/
theorem change_eq_block {id : BlockId} (h : (f.change c).1 = .ok (.block id)) :
    id = f.blocks.length ∧ id < (f.after c).blocks.length := by
  cases c with
  | block base =>
    obtain rfl : f.blocks.length = id := by simpa [change] using h
    exact ⟨rfl, by simp [after, change]⟩
  | incoming phi value source =>
    simp only [change] at h
    rcases haddIncoming : f.addIncoming phi value source with e | g <;>
      rw [haddIncoming] at h <;> cases h
  | _ => cases h

/-- A value that is answered is the result of the next instruction. -/
theorem change_eq_value {v : Value} (h : (f.change c).1 = .ok (.value v)) :
    v = .inst f.insts.length ∧ f.insts.length < (f.after c).insts.length := by
  cases c with
  | emission b e =>
    obtain ⟨op, ty, name, hpush⟩ := emit_eq_push f b e
    simp only [after, change, hpush] at h ⊢
    cases h
    exact ⟨rfl, by simp⟩
  | incoming phi value source =>
    simp only [change] at h
    rcases haddIncoming : f.addIncoming phi value source with e | g <;>
      rw [haddIncoming] at h <;> cases h
  | _ => cases h

/-- Only an input can be refused, and then nothing changes. -/
theorem change_eq_error {e : PhiError} (h : (f.change c).1 = .error e) : f.after c = f := by
  cases c with
  | incoming phi value source =>
    simp only [after, change] at h ⊢
    rcases haddIncoming : f.addIncoming phi value source with e' | g
    · rfl
    · rw [haddIncoming] at h
      cases h
  | _ => cases h

/-- **Instructions keep their places.**  Take a new function and any sequence of changes to it that
emits instructions only into blocks that exist.  Afterwards the lists of the blocks have every
instruction exactly once, in increasing order, each in the block that the instruction itself names.
Seen from any moment on the way, everything that was there has stayed: the blocks, their names and
what they list, and the instructions up to what `revise` allows, which is just the inputs and the
names that were given since.  What a change answers is new at that moment, and a change that fails
has no effect, on the function or on the state of the run that asked for it. -/
theorem build_places (name : String) (sig : Signature) (linkage : Linkage) (cs : List Change)
    (hcs : (new name sig linkage).Admissible cs) :
    let start := new name sig linkage
    let f := start.build cs
    f.Placement ∧ ((List.range f.blocks.length).flatMap f.ids).Perm (List.range f.insts.length) ∧
    (∀ before later, cs = before ++ later →
      (start.build before).Continues f ∧
      ∀ (k : InstId) (i : Inst), (start.build before).insts[k]? = some i →
        f.insts[k]? = some (i.revise (later.flatMap (·.inputsTo k)) (lastName k later))) ∧
    (∀ before c later, cs = before ++ c :: later →
      let g := start.build before
      (∀ id, (g.change c).1 = .ok (.block id) → id = g.blocks.length ∧
        id < (g.after c).blocks.length) ∧
      (∀ v, (g.change c).1 = .ok (.value v) → v = .inst g.insts.length ∧
        g.insts.length < (g.after c).insts.length) ∧
      ∀ e, (g.change c).1 = .error e → g.after c = g) ∧
    ∀ (l : Lowering.Lowerer) (func : FuncId) (phi value : Value) (source : BlockId)
      (e : Lowering.LowerError),
      (Lowering.outcome (Lowering.addIncoming func phi value source) l).1 = .error e →
        (Lowering.outcome (Lowering.addIncoming func phi value source) l).2 = l := by
  intro start f
  have hplaced : f.Placement := placement_build (placement_new name sig linkage) hcs
  refine ⟨hplaced, hplaced.perm_ids, fun before later hsplit => ?_, fun before c later _ => ?_,
    fun l func phi value source e he => ?_⟩
  · have hf : f = (start.build before).build later := by rw [← build_append, ← hsplit]
    rw [hf]
    exact ⟨continues_build _ later, fun k i hk => getElem?_build hk later⟩
  · exact ⟨fun _ => change_eq_block, fun _ => change_eq_value, fun _ => change_eq_error⟩
  · rcases Lowering.outcome_addIncoming_cases l func phi value source
      with ⟨g, -, hok⟩ | ⟨spelling, herror⟩
    · rw [hok] at he
      cases he
    · rw [herror]

/-- Two blocks are filled in turns.  A phi is given an input, a branch refuses one, and in the end
the phi has another input and a name; the block that it was emitted into lists it first. -/
theorem build_places_counter :
    let start := new "f" ⟨[.f64], .void, false⟩ .internal
    let before : List Change :=
      [.block "entry", .block "loop", .emission 0 (.br 1), .emission 1 (.phi .f64 "i")]
    let later : List Change :=
      [.incoming (.inst 1) (.param 0) 0, .emission 1 (.arith .fadd (.inst 1) (.inst 1)),
        .incoming (.inst 0) (.inst 2) 1,
        .valueName (.inst 1) "n", .block "loop", .emission 2 (.ret none), .emission 1 (.br 1),
        .incoming (.inst 1) (.inst 2) 1]
    start.Admissible (before ++ later) ∧ (start.build (before ++ later)).Placement ∧
      (start.build (before ++ later)).insts[1]? =
        some
          { op := .phi [(.param 0, 0), (.inst 2, 1)], ty := .f64, name := some "n", block := 1 } ∧
      (start.build (before ++ later)).ids 1 = [1, 2, 4] := by
  intro start before later
  have hadmissible : start.Admissible (before ++ later) := by decide
  have ⟨hplaced, _, hkept, _⟩ :=
    build_places "f" ⟨[.f64], .void, false⟩ .internal (before ++ later) hadmissible
  refine ⟨hadmissible, hplaced, ?_, by decide⟩
  exact (hkept before later rfl).2 1
    { op := .phi [], ty := .f64, name := some "i", block := 1 } (by decide)

end Function

end TreeCompiler.IR
