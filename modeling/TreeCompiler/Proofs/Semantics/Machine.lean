/-
Running the functions of a module.

A call runs the blocks of a function from the entry on, one instruction after the other.  It has a
frame with the results of the instructions so far, and it shares memory and output with all other
calls: a stack slot is a memory cell of its own, made anew each time its instruction is reached.
What cannot go on, a load from something that is no address, a branch on something that is no truth
value, a block that ends without a terminator, gives no result.

Operations on doubles and the text that is printed are not computed here.  They are parameters
(`Primitives`), so what is proved about a run holds however they work.

Runs are bounded by fuel, one unit per instruction.  `Reaches` and `Returns` say what holds from
some fuel on, and no proof after this file counts.
-/
import TreeCompiler.Proofs.IR.Layout

namespace TreeCompiler.Semantics

open IR (FuncId BlockId InstId Ty Value Op)

/-! ### Values -/

/-- What a variable or the result of an instruction can be. -/
inductive Val where
  | int (n : Int64)
  | float (x : Double)
  | bool (b : Bool)
  | str (text : String)
  /-- The address of a memory cell. -/
  | ptr (cell : Nat)
  | void
  deriving DecidableEq, Repr, Inhabited

/-- What runs take as given: the operations on doubles, and what the printing function makes of its
arguments. -/
structure Primitives where
  add : Double → Double → Double
  sub : Double → Double → Double
  mul : Double → Double → Double
  lt : Double → Double → Bool
  gt : Double → Double → Bool
  le : Double → Double → Bool
  print : List Val → Option String

/-- Division of integers rounds toward zero.  A division by zero, and the one quotient that is no
64-bit integer, are undefined. -/
def divide (a b : Int64) : Option Int64 :=
  if b = 0 ∨ a = Int64.minValue ∧ b = -1 then none else some (a / b)

/-! ### Instructions -/

/-- What all calls share. -/
structure World where
  memory : List Val := []
  output : String := ""
  deriving DecidableEq, Repr

/-- Where a call is. -/
structure Frame where
  block : BlockId := 0
  /-- The block that control came from. -/
  source : Option BlockId := none
  /-- How many instructions of the block are done. -/
  position : Nat := 0
  /-- The results of the instructions that are done, the latest first. -/
  results : List (InstId × Val) := []
  deriving DecidableEq, Repr

namespace Frame

/-- Note the result of an instruction and go to the next one. -/
def record (frame : Frame) (k : InstId) (v : Val) : Frame :=
  { frame with position := frame.position + 1, results := (k, v) :: frame.results }

/-- Go to the start of another block. -/
def jump (frame : Frame) (target : BlockId) : Frame :=
  { frame with block := target, source := some frame.block, position := 0 }

/-- The value of an operand. -/
def value? (frame : Frame) (m : IR.Module) (args : List Val) : Value → Option Val
  | .const (.int n) => some (.int n)
  | .const (.float x) => some (.float x)
  | .inst k => frame.results.lookup k
  | .param i => args[i]?
  | .global id => m.globals[id]?.map fun g => .str g.text

end Frame

theorem lookup_record_self (frame : Frame) (k : InstId) (val : Val) :
    (frame.record k val).results.lookup k = some val := by
  simp [Frame.record]

theorem lookup_record_ne {j k : InstId} (hjk : j ≠ k) (frame : Frame) (val : Val) :
    (frame.record k val).results.lookup j = frame.results.lookup j := by
  have hne : (j == k) = false := by simpa using hjk
  simp only [Frame.record, List.lookup_cons, hne]

/-- The arithmetic operations on values. -/
def Primitives.arith (p : Primitives) : IR.Arith → Val → Val → Option Val
  | .fadd, .float x, .float y => some (.float (p.add x y))
  | .fsub, .float x, .float y => some (.float (p.sub x y))
  | .fmul, .float x, .float y => some (.float (p.mul x y))
  | .sdiv, .int a, .int b => (divide a b).map .int
  | _, _, _ => none

/-- The comparisons of values. -/
def Primitives.compare (p : Primitives) : IR.Compare → Val → Val → Option Val
  | .olt, .float x, .float y => some (.bool (p.lt x y))
  | .ogt, .float x, .float y => some (.bool (p.gt x y))
  | .ole, .float x, .float y => some (.bool (p.le x y))
  | _, _, _ => none

/-- What an instruction does besides changing the world. -/
inductive Effect where
  | result (v : Val)
  | jump (target : BlockId)
  | done (v : Val)
  deriving DecidableEq, Repr

/-- One instruction.  `invoke` calls a function. -/
def perform (p : Primitives) (m : IR.Module)
    (invoke : FuncId → List Val → World → Option (Val × World)) (args : List Val) (frame : Frame)
    (w : World) : Op → Option (Effect × World)
  | .alloca _ => some (.result (.ptr w.memory.length), { w with memory := w.memory ++ [.void] })
  | .load _ ptr => do
    match ← frame.value? m args ptr with
    | .ptr cell => return (.result (← w.memory[cell]?), w)
    | _ => none
  | .store value ptr _ => do
    let v ← frame.value? m args value
    match ← frame.value? m args ptr with
    | .ptr cell =>
      if cell < w.memory.length then
        return (.result .void, { w with memory := w.memory.set cell v })
      else none
    | _ => none
  | .arith op lhs rhs => do
    return (.result (← p.arith op (← frame.value? m args lhs) (← frame.value? m args rhs)), w)
  | .fcmp pred lhs rhs => do
    return (.result (← p.compare pred (← frame.value? m args lhs) (← frame.value? m args rhs)), w)
  | .call callee operands => do
    let (v, w) ← invoke callee (← operands.mapM (frame.value? m args)) w
    return (.result v, w)
  | .phi incoming => do
    let source ← frame.source
    let (input, _) ← incoming.find? (·.2 = source)
    return (.result (← frame.value? m args input), w)
  | .ret none => some (.done .void, w)
  | .ret (some value) => do return (.done (← frame.value? m args value), w)
  | .br target => some (.jump target, w)
  | .condBr cond thenBlock elseBlock => do
    match ← frame.value? m args cond with
    | .bool b => return (.jump (if b then thenBlock else elseBlock), w)
    | _ => none

/-! ### Calls -/

/-- A call of a function.  The printing function is built in; `body` runs any other. -/
def invoke (p : Primitives) (m : IR.Module)
    (body : IR.Function → List Val → World → Option (Val × World)) (func : FuncId) (args : List Val)
    (w : World) : Option (Val × World) :=
  if (m.function func).name = "printf" then
    (p.print args).map fun text => (.int 0, { w with output := w.output ++ text })
  else body (m.function func) args w

/-- Go on with a function from a frame, for as many instructions as there is fuel. -/
def run (p : Primitives) (m : IR.Module) :
    Nat → IR.Function → List Val → Frame → World → Option (Val × World)
  | 0, _, _, _, _ => none
  | fuel + 1, f, args, frame, w => do
    let (k, inst) ← (f.blockInsts frame.block)[frame.position]?
    let body := fun g args w => run p m fuel g args {} w
    match ← perform p m (invoke p m body) args frame w inst.op with
    | (.result v, w) => run p m fuel f args (frame.record k v) w
    | (.jump target, w) => run p m fuel f args (frame.jump target) w
    | (.done v, w) => some (v, w)

/-- Call a function of a module. -/
def call (p : Primitives) (m : IR.Module) (fuel : Nat) (func : FuncId) (args : List Val)
    (w : World) :
    Option (Val × World) :=
  invoke p m (fun f args w => run p m fuel f args {} w) func args w

/-! ### Getting from one place to another -/

section Progress

variable (p : Primitives) (m : IR.Module) (f : IR.Function) (args : List Val)

/-- From `a` the run comes to `b`, whatever fuel is left then. -/
def Reaches (a b : Frame × World) : Prop :=
  ∃ used, ∀ fuel, run p m (fuel + used) f args a.1 a.2 = run p m fuel f args b.1 b.2

/-- From `a` the run ends with a value. -/
def Returns (a : Frame × World) (v : Val) : Prop :=
  ∃ used w, ∀ fuel, run p m (fuel + used) f args a.1 a.2 = some (v, w)

variable {p m f args} {a b c : Frame × World} {frame : Frame} {w w' : World} {v : Val}

theorem Reaches.refl (a : Frame × World) : Reaches p m f args a a := ⟨0, fun _ => rfl⟩

theorem Reaches.trans (hab : Reaches p m f args a b) (hbc : Reaches p m f args b c) :
    Reaches p m f args a c := by
  obtain ⟨n, hn⟩ := hab
  obtain ⟨k, hk⟩ := hbc
  refine ⟨k + n, ?_⟩
  intro fuel
  rw [← Nat.add_assoc, hn, hk]

theorem Reaches.returns (hab : Reaches p m f args a b) (hb : Returns p m f args b v) :
    Returns p m f args a v := by
  obtain ⟨n, hn⟩ := hab
  obtain ⟨k, w, hk⟩ := hb
  refine ⟨k + n, w, ?_⟩
  intro fuel
  rw [← Nat.add_assoc, hn, hk]

section Step

variable {entry : InstId × IR.Inst}
  (hentry : (f.blockInsts frame.block)[frame.position]? = some entry)
include hentry

theorem reaches_result
    (hop : ∀ invoke, perform p m invoke args frame w entry.2.op = some (.result v, w')) :
    Reaches p m f args (frame, w) (frame.record entry.1 v, w') := by
  refine ⟨1, ?_⟩
  intro fuel
  simp [run, hentry, hop]

theorem reaches_jump {target : BlockId}
    (hop : ∀ invoke, perform p m invoke args frame w entry.2.op = some (.jump target, w')) :
    Reaches p m f args (frame, w) (frame.jump target, w') := by
  refine ⟨1, ?_⟩
  intro fuel
  simp [run, hentry, hop]

theorem returns_done
    (hop : ∀ invoke, perform p m invoke args frame w entry.2.op = some (.done v, w')) :
    Returns p m f args (frame, w) v := by
  refine ⟨1, w', ?_⟩
  intro fuel
  simp [run, hentry, hop]

end Step

/-- A call whose run ends returns from some fuel on. -/
theorem Returns.call {func : FuncId} (h : Returns p m (m.function func) args ({}, w) v)
    (hname : (m.function func).name ≠ "printf") :
    ∃ least w', ∀ fuel, least ≤ fuel → call p m fuel func args w = some (v, w') := by
  obtain ⟨used, w', hrun⟩ := h
  refine ⟨used, w', ?_⟩
  intro fuel hle
  obtain ⟨more, rfl⟩ := Nat.exists_eq_add_of_le' hle
  simp only [Semantics.call, invoke, if_neg hname]
  exact hrun more

end Progress

end TreeCompiler.Semantics
