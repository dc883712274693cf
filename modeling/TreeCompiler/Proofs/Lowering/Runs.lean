/-
Everything that lowering can do to its state.

Lowering walks a tree, but what it does to the state does not need the tree to be told: it adds
plain instructions at the cursor, declares variables, adds strings, records errors, and opens and
closes the regions of conditionals, loops and functions.  `Runs s t` says that `t` is reached from
`s` in that way.  The regions are part of the relation, whole or broken off in the middle, so that a
run which fails somewhere is a run like any other.

An instruction may only use values that are at hand where it is added (`Usable`).  That is the one
thing the walk has to know about values; what it means for the finished function is worked out later
by induction on runs, without trees.
-/
import TreeCompiler.Proofs.IR.Layout
import TreeCompiler.Proofs.Lowering.Step

namespace TreeCompiler.Lowering

open IR (FuncId BlockId InstId Ty Value Op)
open Program (NodeId Param)

/-- A value that an instruction added now may use: a constant, a string, what a name is bound to in
the innermost table, or the result of an instruction of the block that is being filled. -/
inductive Usable (s : Lowerer) : Value → Prop
  | const (c : IR.Const) : Usable s (.const c)
  | global {id : IR.GlobalId} (h : id < s.code.globals.length) : Usable s (.global id)
  | bound {scope : Scope} {rest : List Scope} {name : String} {binding : Binding}
      (hs : s.scopes.scopes = scope :: rest) (hb : (name, binding) ∈ scope.bindings) :
      Usable s binding.value
  | result {c : Cursor} {k : InstId} {i : IR.Inst} (hc : s.At c)
      (hk : (s.body c).insts[k]? = some i) (hi : i.block = c.block) : Usable s (.inst k)

namespace Lowerer

variable (s : Lowerer) (c : Cursor)

/-! ### Opening and closing regions -/

/-- A new slot, recorded as a declaration and bound to its name. -/
def declareVariable (node : NodeId) (ty : Ty) (name : String) : Lowerer :=
  ((s.emit c (.alloca ty) .ptr (some name)).record { node, name, ty, kind := .variable }).bindName
    name (.inst (s.body c).insts.length) (some s.decls.length)

/-- The next block of the function that a cursor is in. -/
def nextBlock : BlockId := (s.body c).blocks.length

/-- The cursor of that block. -/
def nextCursor : Cursor := { c with block := s.nextBlock c }

/-- Two new blocks and the branch to them. -/
def fork (cond : Value) : Lowerer :=
  ((s.addBlock c.func "then").addBlock c.func "else").emit c
    (.condBr cond (s.nextBlock c) (s.nextBlock c + 1)) .void none

/-- The counter of a loop that is opened in a state. -/
def counter : InstId := (s.body c).insts.length + 1

/-- A new block and the jump to it. -/
def jump : Lowerer :=
  (s.addBlock c.func "loop").emit c (.br (s.nextBlock c)) .void none

/-- The jump into a loop, and its region with the counter. -/
def openLoop (start : Value) : Lowerer :=
  (((s.jump c).enter (s.nextCursor c)).emit (s.nextCursor c) (.phi [(start, c.block)]) .f64
    (some s.options.inductionName)).bindName s.options.inductionName (.inst (s.counter c)) none

/-- The next value of a counter. -/
def advance (inside : Cursor) (counter : InstId) : Lowerer :=
  s.emit inside (.arith .fadd (.inst counter) (.float .one))
    ((s.body inside).valueType (.inst counter)) none

/-- The test at the end of a loop and the block after it. -/
def testLoop (inside : Cursor) (next : InstId) (bound : Value) : Lowerer :=
  (((s.emit inside (.fcmp .ole (.inst next) bound) .i1 none).rename inside.func (.inst next)
    "nextvar").rename inside.func (.inst (s.body inside).insts.length) "loopcond").addBlock
    inside.func "afterloop"

/-- The end of a loop: the test, the branch back and the second input of the counter.  `incoming`
are the inputs that the counter has so far. -/
def closeLoop (inside : Cursor) (counter next : InstId) (induction : String)
    (incoming : List (Value × BlockId)) (bound : Value) : Lowerer :=
  ((s.testLoop inside next bound).emit inside (.condBr (.inst (s.body inside).insts.length)
    inside.block (s.body inside).blocks.length) .void none).replace inside.func counter
    { op := .phi (incoming ++ [(.inst next, inside.block)]), ty := .f64, name := some induction,
      block := inside.block }

/-- Bind parameters to the arguments of a function, the first of them to argument `i`. -/
def bindParams (s : Lowerer) (i : Nat) : List Param → Lowerer
  | [] => s
  | p :: ps =>
    ((s.record { node := p.id, name := p.name, ty := typeOf p.ty, kind := .parameter }).bindName
      p.name (.param i) (some s.decls.length)).bindParams (i + 1) ps

/-- The cursor in the body of the next function of the module. -/
def nextFunction : Cursor := ⟨s.code.functions.length, 0⟩

/-- The signature of a function with these parameters. -/
def signature (params : List Param) (ret : Ty) : IR.Signature :=
  { params := params.map fun p => typeOf p.ty, ret }

/-- A new function without blocks, its parameters named. -/
def declareFunction (name : String) (params : List Param) (ret : Ty) : Lowerer :=
  let added : Lowerer :=
    { s with code := (s.code.addFunction name (signature params ret) .internal).2 }
  added.update s.nextFunction.func fun f =>
    params.zipIdx.foldl (fun f (p, i) => f.setParamName i p.name) f

/-- A new function with one empty block. -/
def addFunction (name : String) (params : List Param) (ret : Ty) : Lowerer :=
  (s.declareFunction name params ret).addBlock s.nextFunction.func "entry"

/-- A new function, and the region of its body with the parameters. -/
def openFunction (name : String) (params : List Param) (ret : Ty) : Lowerer :=
  ((s.addFunction name params ret).enterEmpty s.nextFunction).bindParams 0 params

end Lowerer

/-- What lowering can do to its state. -/
inductive Runs : Lowerer → Lowerer → Prop
  | refl (s : Lowerer) : Runs s s
  | trans {s t u : Lowerer} : Runs s t → Runs t u → Runs s u
  | string (s : Lowerer) (name text : String) :
      Runs s { s with code := (s.code.addGlobalString name text).2 }
  | error (s : Lowerer) {e : LowerError} (he : e.isInternal = false) :
      Runs s { s with errors := s.errors ++ [e] }
  | plain {s : Lowerer} {c : Cursor} {op : Op} {ty : Ty} (hc : s.At c)
      (hop : (s.body c).Plain s.code op ty) (huse : ∀ v ∈ op.operands, Usable s v) :
      Runs s (s.emit c op ty none)
  | slot {s : Lowerer} {c : Cursor} (hc : s.At c) (node : NodeId) (ty : Ty) (name : String) :
      Runs s (s.declareVariable c node ty name)
  | branch {s t u : Lowerer} {c : Cursor} {cond : Value} (hc : s.At c) (hcond : Usable s cond)
      (hthen : Runs ((s.fork c cond).enter (s.nextCursor c)) t)
      (helse : Runs (t.leave.enter { c with block := s.nextBlock c + 1 }) u) : Runs s u.leave
  /-- A conditional that ends in its first arm. -/
  | branchBroken {s t : Lowerer} {c : Cursor} {cond : Value} (hc : s.At c) (hcond : Usable s cond)
      (hthen : Runs ((s.fork c cond).enter (s.nextCursor c)) t) : Runs s t.leave
  | loop {s t u : Lowerer} {c : Cursor} {start bound : Value} (hc : s.At c)
      (hstart : Usable s start) (hbody : Runs (s.openLoop c start) t)
      (hlimit : Runs (t.advance (s.nextCursor c) (s.counter c)) u) (hbound : Usable u bound) :
      Runs s (((u.closeLoop (s.nextCursor c) (s.counter c) (t.body c).insts.length
        s.options.inductionName [(start, c.block)] bound).leave).emit
          { c with block := (u.body c).blocks.length } (.ret none) .void none)
  /-- A loop that ends before its test. -/
  | loopBroken {s t : Lowerer} {c : Cursor} {start : Value} (hc : s.At c)
      (hstart : Usable s start) (hbody : Runs (s.openLoop c start) t) : Runs s t.leave
  | function {s t : Lowerer} (name : String) (params : List Param) (ret : Ty)
      (hbody : Runs (s.openFunction name params ret) t) : Runs s t.leave

end TreeCompiler.Lowering
