/-
Runs one instruction at a time.

`Reaches` skips what happens on the way, and it is about instructions that call nothing.  Here a run
is cut into single steps.  A call is one step of the function that makes it: the callee runs to its
end inside of the step, if there is fuel enough, and a call that never ends is a step that is never
made.

`Passes` lists the states that a run leaves behind, so how often an instruction is executed, and
with which results at hand, can be read off the list.  The list is what the machine does: with fuel
for its length, and for the calls in it, a run from its beginning goes on as a run from its end
(`Passes.run_eq`).
-/
import TreeCompiler.Proofs.IR.Ops
import TreeCompiler.Proofs.Semantics.Machine

namespace TreeCompiler.Semantics

open IR (FuncId BlockId InstId Ty Value Op)

section Steps

variable (p : Primitives) (m : IR.Module) (f : IR.Function) (args : List Val)

/-- What an operation does once there is fuel enough for the calls in it. -/
def Performs (frame : Frame) (w : World) (op : Op) (effect : Effect) (w' : World) : Prop :=
  ∃ least, ∀ fuel, least ≤ fuel →
    perform p m (invoke p m fun g args w => run p m fuel g args {} w) args frame w op
      = some (effect, w')

/-- One instruction of `f`. -/
inductive Step : Frame × World → Frame × World → Prop
  | result {frame : Frame} {w w' : World} {k : InstId} {op : Op} {v : Val}
      (here : (f.ops frame.block)[frame.position]? = some (k, op))
      (effect : Performs p m args frame w op (.result v) w') :
      Step (frame, w) (frame.record k v, w')
  | jump {frame : Frame} {w w' : World} {k : InstId} {op : Op} {target : BlockId}
      (here : (f.ops frame.block)[frame.position]? = some (k, op))
      (effect : Performs p m args frame w op (.jump target) w') :
      Step (frame, w) (frame.jump target, w')

/-- From the first state the run gets to the last one, and the list has all the states before it. -/
inductive Passes : Frame × World → List (Frame × World) → Frame × World → Prop
  | nil (a : Frame × World) : Passes a [] a
  | cons {a b c : Frame × World} {states : List (Frame × World)} (step : Step p m f args a b)
      (rest : Passes b states c) : Passes a (a :: states) c

variable {p m f args} {a b c : Frame × World} {frame : Frame} {w w' w'' : World} {op : Op}
  {states states' : List (Frame × World)}

/-! ### Single steps -/

theorem performs_of_forall {effect : Effect}
    (h : ∀ invoke, perform p m invoke args frame w op = some (effect, w')) :
    Performs p m args frame w op effect w' :=
  ⟨0, fun _ _ => h _⟩

/-- Only a terminator leaves its block. -/
theorem perform_of_not_isTerminator {invoke : FuncId → List Val → World → Option (Val × World)}
    {effect : Effect} (hop : op.isTerminator = false)
    (h : perform p m invoke args frame w op = some (effect, w')) : ∃ v, effect = .result v := by
  cases op with
  | alloca ty =>
    cases h
    exact ⟨_, rfl⟩
  | ret value => cases hop
  | br target => cases hop
  | condBr cond thenBlock elseBlock => cases hop
  | load _ _ | store _ _ _ | arith _ _ _ | fcmp _ _ _ | call _ _ | phi _ =>
    simp only [perform, Option.bind_eq_bind, Option.bind_eq_some_iff, Option.pure_def] at h
    grind

theorem Step.result_of_not_isTerminator {k : InstId} {next : Frame × World}
    (hstep : Step p m f args (frame, w) next)
    (here : (f.ops frame.block)[frame.position]? = some (k, op)) (hop : op.isTerminator = false) :
    ∃ v w', next = (frame.record k v, w') := by
  cases hstep with
  | result here' effect =>
    rw [here] at here'
    cases here'
    exact ⟨_, _, rfl⟩
  | jump here' effect =>
    rw [here] at here'
    cases here'
    obtain ⟨least, hperform⟩ := effect
    obtain ⟨v, hv⟩ := perform_of_not_isTerminator hop (hperform least (Nat.le_refl _))
    cases hv

/-- A step is one unit of fuel. -/
theorem Step.run_eq (h : Step p m f args a b) :
    ∃ least, ∀ fuel, least ≤ fuel →
      run p m (fuel + 1) f args a.1 a.2 = run p m fuel f args b.1 b.2 := by
  cases h with
  | result here effect =>
    obtain ⟨i, hi, rfl⟩ := IR.Function.getElem?_blockInsts here
    obtain ⟨least, hperform⟩ := effect
    refine ⟨least, ?_⟩
    intro fuel hle
    simp [run, hi, hperform fuel hle]
  | jump here effect =>
    obtain ⟨i, hi, rfl⟩ := IR.Function.getElem?_blockInsts here
    obtain ⟨least, hperform⟩ := effect
    refine ⟨least, ?_⟩
    intro fuel hle
    simp [run, hi, hperform fuel hle]

/-! ### Sequences of steps -/

theorem Passes.single (h : Step p m f args a b) : Passes p m f args a [a] b := .cons h (.nil b)

theorem Passes.append (h : Passes p m f args a states b) (h' : Passes p m f args b states' c) :
    Passes p m f args a (states ++ states') c := by
  induction h with
  | nil a => exact h'
  | cons step _ ih => exact .cons step (ih h')

theorem Passes.run_eq (h : Passes p m f args a states b) :
    ∃ least, ∀ fuel, least ≤ fuel →
      run p m (fuel + states.length) f args a.1 a.2 = run p m fuel f args b.1 b.2 := by
  induction h with
  | nil a => exact ⟨0, fun _ _ => rfl⟩
  | cons step rest ih =>
    obtain ⟨first, hfirst⟩ := step.run_eq
    obtain ⟨later, hlater⟩ := ih
    refine ⟨max first later, ?_⟩
    intro fuel hle
    rw [List.length_cons, ← Nat.add_assoc, hfirst _ (by omega), hlater _ (by omega)]

end Steps

end TreeCompiler.Semantics
