/-
Which code of a routine is needed.

A block is needed if the entry leads to it.  A parameter of a block that can only ever be one value
is that value, and is not passed any more.  An instruction is needed if it does something, or if a
needed instruction uses the value it makes.

All three are least solutions of equations over finite sets.  Each is found by steps that only add,
of which there are no more than things that can be added.
-/
import TreeCompiler.Target.Code

namespace TreeCompiler.Target

open IR (BlockId)

namespace Instr

/-- The values an instruction uses. -/
def uses : Instr → List ValueId
  | iconst .. | f64const .. | globalValue .. | stackAddr .. | funcAddr .. => []
  | load _ _ addr => [addr]
  | store value addr => [value, addr]
  | arith _ _ lhs rhs | fcmp _ _ lhs rhs => [lhs, rhs]
  | call _ _ args => args
  | callIndirect _ _ addr args => addr :: args
  | jump _ args => args
  | brif cond _ thenArgs _ elseArgs => cond :: thenArgs ++ elseArgs
  | ret value => value.toList

/-- The value an instruction makes. -/
def result? : Instr → Option ValueId
  | iconst dst _ | f64const dst _ | globalValue dst _ | stackAddr dst _ | load dst _ _
  | arith dst _ _ _ | fcmp dst _ _ _ | funcAddr dst _ => some dst
  | call dst _ _ | callIndirect dst _ _ _ => dst
  | store .. | jump .. | brif .. | ret .. => none

/-- The branches an instruction can take, with the arguments it passes. -/
def branches : Instr → List (BlockId × List ValueId)
  | jump target args => [(target, args)]
  | brif _ thenBlock thenArgs elseBlock elseArgs => [(thenBlock, thenArgs), (elseBlock, elseArgs)]
  | _ => []

/-- Whether an instruction does more than make a value.  A load may touch memory that is not there,
and a division may be one by zero. -/
def hasEffect : Instr → Bool
  | iconst .. | f64const .. | globalValue .. | stackAddr .. | funcAddr .. | fcmp .. => false
  | arith _ op _ _ => !op.isFloat
  | load .. | store .. | call .. | callIndirect .. | jump .. | brif .. | ret .. => true

/-- Whether an instruction is needed when these values are. -/
def isNeeded (needed : List ValueId) (i : Instr) : Bool :=
  i.hasEffect || i.result?.any (· ∈ needed)

/-- Replace the values an instruction uses.  `args` replaces what is passed to a block. -/
def mapUses (value : ValueId → ValueId) (args : BlockId → List ValueId → List ValueId) :
    Instr → Instr
  | load dst ty addr => load dst ty (value addr)
  | store v addr => store (value v) (value addr)
  | arith dst op lhs rhs => arith dst op (value lhs) (value rhs)
  | fcmp dst pred lhs rhs => fcmp dst pred (value lhs) (value rhs)
  | call dst callee vs => call dst callee (vs.map value)
  | callIndirect dst sig addr vs => callIndirect dst sig (value addr) (vs.map value)
  | jump target vs => jump target (args target vs)
  | brif cond thenBlock thenArgs elseBlock elseArgs =>
    brif (value cond) thenBlock (args thenBlock thenArgs) elseBlock (args elseBlock elseArgs)
  | ret v => ret (v.map value)
  | i => i

end Instr

namespace Routine

/-! ### Blocks that the entry leads to -/

/-- The branches out of a block. -/
def branchesOf (r : Routine) (b : BlockId) : List (BlockId × List ValueId) :=
  match r.blocks[b]? with
  | some block => block.body.flatMap Instr.branches
  | none => []

/-- Follow the branches out of the blocks `waiting` and add the blocks found to those `seen`. -/
def follow (r : Routine) : Nat → List BlockId → List BlockId → List BlockId
  | 0, _, seen => seen
  | _ + 1, [], seen => seen
  | fuel + 1, b :: waiting, seen =>
    if b ∈ seen then r.follow fuel waiting seen
    else r.follow fuel ((r.branchesOf b).map (·.1) ++ waiting) (b :: seen)

/-- The blocks that the entry leads to.  The entry and the target of each branch wait once. -/
def reachable (r : Routine) : List BlockId :=
  let branches := (List.range r.blocks.length).flatMap r.branchesOf
  r.follow (branches.length + 1) [r.entry] []

/-! ### Parameters that can only be one value -/

/-- What is known about the values a parameter is given. -/
inductive Origin where
  /-- None so far. -/
  | unseen
  | single (v : ValueId)
  | several
  deriving DecidableEq, Repr

def Origin.join : Origin → Origin → Origin
  | .unseen, o | o, .unseen => o
  | .single v, .single w => if v = w then .single v else .several
  | .several, _ | _, .several => .several

/-- The parameters of the blocks other than the entry, with their origins. -/
abbrev Origins := List (ValueId × Origin)

/-- Where a value comes from: a value that is no parameter, from itself. -/
def Origins.of (known : Origins) (v : ValueId) : Origin := (known.lookup v).getD (.single v)

/-- Pass a value for a parameter. -/
def Origins.pass (known : Origins) (param arg : ValueId) : Origins :=
  known.map fun (v, o) => if v = param then (v, o.join (known.of arg)) else (v, o)

/-- The parameters of a block. -/
def paramsOf (r : Routine) (b : BlockId) : List ValueId :=
  match r.blocks[b]? with
  | some block => block.params.map (·.1)
  | none => []

/-- What the reachable branches pass for parameters. -/
def passed (r : Routine) : List (ValueId × ValueId) :=
  r.reachable.flatMap fun b =>
    (r.branchesOf b).flatMap fun (target, args) => (r.paramsOf target).zip args

/-- Pass everything again until nothing changes. -/
def passAll (passed : List (ValueId × ValueId)) : Nat → Origins → Origins
  | 0, known => known
  | rounds + 1, known =>
    let next := passed.foldl (fun known (param, arg) => known.pass param arg) known
    if next = known then known else passAll passed rounds next

/-- Where the parameters come from.  An origin can change twice, so two rounds for each parameter
are enough. -/
def origins (r : Routine) : Origins :=
  let params := ((List.range r.blocks.length).filter (· ≠ r.entry)).flatMap r.paramsOf
  passAll r.passed (2 * params.length + 1) (params.map (·, .unseen))

/-- The value that a value always is. -/
def Origins.resolve (known : Origins) (v : ValueId) : ValueId :=
  match known.lookup v with
  | some (.single w) => w
  | _ => v

/-- Whether a parameter has to be passed. -/
def Origins.varies (known : Origins) (param : ValueId) : Bool :=
  match known.lookup param with
  | some (.single _) => false
  | _ => true

/-- The arguments for the parameters that have to be passed. -/
def Origins.passedArgs (known : Origins) (params args : List ValueId) : List ValueId :=
  ((params.zip args).filter fun (param, _) => known.varies param).map fun (_, arg) =>
    known.resolve arg

/-- The blocks that the entry leads to, with their instructions after the parameters that can only
be one value are resolved. -/
def resolvedBlocks (r : Routine) : List (BlockId × List Instr) :=
  let known := r.origins
  let reachable := r.reachable
  (r.placedBlocks.filter fun (_, b) => b ∈ reachable).map fun (block, b) =>
    (b, block.body.map (·.mapUses known.resolve fun target args =>
      known.passedArgs (r.paramsOf target) args))

/-! ### Values that are used -/

/-- Add the values that needed instructions use, from the last instruction to the first. -/
def addUses (instrs : List Instr) (needed : List ValueId) : List ValueId :=
  instrs.foldr (fun i needed =>
    if i.isNeeded needed then i.uses.filter (· ∉ needed) ++ needed else needed) needed

/-- Add uses until nothing changes.  Mostly once is enough, because values are made before they are
used; but a parameter may stand for a value that is made further down. -/
def addAllUses (instrs : List Instr) : Nat → List ValueId → List ValueId
  | 0, needed => needed
  | rounds + 1, needed =>
    let next := addUses instrs needed
    if next.length = needed.length then needed else addAllUses instrs rounds next

/-- The code that is needed, block by block. -/
def neededBlocks (r : Routine) : List (BlockId × List Instr) :=
  let blocks := r.resolvedBlocks
  let instrs := blocks.flatMap (·.2)
  let needed := addAllUses instrs (instrs.length + 1) []
  blocks.map fun (b, body) => (b, body.filter (·.isNeeded needed))

end Routine

end TreeCompiler.Target
