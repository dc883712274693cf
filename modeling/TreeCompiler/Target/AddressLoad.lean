/-
Where code loads the addresses of functions and strings.

On a platform without a single instruction for it, an address is loaded by a pair of instructions,
and the second refers to the first by a label that carries its position in the code.

Only code that is needed has labels.  Their positions are an estimate.  Registers are not allocated:
every value that is used after a call is taken to need a register of its own, every instruction to
have its plain encoding, and no argument to be in the wrong place unless it is kept for later.
Nothing but the names of the labels depends on it.
-/
import TreeCompiler.Target.Liveness

namespace TreeCompiler.Target

open IR (BlockId)

namespace Instr

def isCall : Instr → Bool
  | call .. | callIndirect .. => true
  | _ => false

/-- Whether the instruction loads an address.  A function that is defined elsewhere may be too far
away to be called without its address. -/
def loadsAddress (isImported : FunctionNumber → Bool) : Instr → Bool
  | globalValue .. | funcAddr .. => true
  | call _ callee _ => isImported callee
  | _ => false

/-- The size of one machine instruction in bytes. -/
def wordSize : Nat := 4

/-- The number of machine instructions that make a constant.  Small numbers, multiples of 4096 and
zero take one. -/
def constantWords : Instr → Nat
  | iconst _ n =>
    let n := n.toInt
    if -2048 ≤ n ∧ n < 2048 then 1
    else if n % 4096 = 0 ∧ Int32.minValue.toInt ≤ n ∧ n ≤ Int32.maxValue.toInt then 1
    else 2
  | f64const _ x => if x = .zero then 1 else 2
  | _ => 0

/-- The number of machine instructions, without those that move arguments into place or make
constants.  A branch to the `next` block is no instruction. -/
def words (isImported : FunctionNumber → Bool) (next : Option BlockId) : Instr → Nat
  | iconst .. | f64const .. => 0
  | globalValue .. | funcAddr .. => 2
  | call _ callee _ => if isImported callee then 3 else 2
  | jump target _ => if next = some target then 0 else 1
  | brif _ thenBlock _ elseBlock _ => if next = some thenBlock ∨ next = some elseBlock then 1 else 2
  | _ => 1

end Instr

/-- The code of a function, as far as its size goes. -/
structure CodeLayout where
  isImported : FunctionNumber → Bool
  /-- The values that have to survive a call, each in a register of its own. -/
  saved : List ValueId
  /-- The machine instructions that make each constant. -/
  constants : List (ValueId × Nat)
  /-- Whether there is a stack frame. -/
  framed : Bool
  /-- Whether the frame has room for slots or saved registers. -/
  roomy : Bool

namespace CodeLayout

/-- The number of machine instructions at the entry: four to set up a frame, one to make room, one
to save each register that is needed, and one to move each parameter that is kept. -/
def entryWords (l : CodeLayout) (params : List ValueId) : Nat :=
  (if l.framed then 4 else 0) + (if l.roomy then 1 else 0) + l.saved.length +
    (params.filter (· ∈ l.saved)).length

/-- The number of machine instructions that undo the frame before a return. -/
def exitWords (l : CodeLayout) : Nat :=
  (if l.framed then 3 else 0) + (if l.roomy then 1 else 0) + l.saved.length

/-- Constants are made just before they are used. -/
def constantWords (l : CodeLayout) (i : Instr) : Nat :=
  (i.uses.map fun v => (l.constants.lookup v).getD 0).foldr (· + ·) 0

/-- The moves around a call: one for each argument that is kept for later, and one for the result if
it is. -/
def moveWords (l : CodeLayout) (i : Instr) : Nat :=
  if i.isCall then ((i.uses ++ i.result?.toList).filter (· ∈ l.saved)).length else 0

/-- The number of machine instructions from the address that an instruction loads, if it loads one,
to its end. -/
def words (l : CodeLayout) (next : Option BlockId) (i : Instr) : Nat :=
  let exit := match i with
    | .ret _ => l.exitWords
    | _ => 0
  i.words l.isImported next + l.moveWords i + exit

/-- The positions of the address loads in instructions that are followed by the block `next`, and
the position after them. -/
def loadsIn (l : CodeLayout) (next : Option BlockId) (position : Nat) :
    List Instr → List Nat × Nat
  | [] => ([], position)
  | i :: rest =>
    let start := position + l.constantWords i
    let (loads, stop) := l.loadsIn next (start + l.words next i) rest
    (if i.loadsAddress l.isImported then start :: loads else loads, stop)

/-- The positions of the address loads in a list of blocks. -/
def loads (l : CodeLayout) (position : Nat) : List (BlockId × List Instr) → List Nat
  | [] => []
  | (_, body) :: rest =>
    let (loads, stop) := l.loadsIn (rest.head?.map (·.1)) position body
    loads ++ l.loads stop rest

end CodeLayout

namespace Routine

/-- The parameters of the block in which the routine starts. -/
def entryParams (r : Routine) : List ValueId := r.paramsOf r.entry

/-- The values that are used after a call that comes after they are made.  `calls` counts the calls
so far, and `made` tells how many there were when a value was made. -/
def survivors (calls : Nat) (made : List (ValueId × Nat)) : List Instr → List ValueId
  | [] => []
  | i :: rest =>
    let kept := i.uses.filter fun v => (made.lookup v).any (· < calls)
    let calls := if i.isCall then calls + 1 else calls
    kept ++ survivors calls (i.result?.toList.map (·, calls) ++ made) rest

/-- The layout of the code that is needed. -/
def layout (r : Routine) (isImported : FunctionNumber → Bool) (instrs : List Instr) :
    CodeLayout :=
  let constants := instrs.filterMap fun i =>
    i.result?.bind fun v => if i.constantWords = 0 then none else some (v, i.constantWords)
  let kept := (survivors 0 (r.entryParams.map (·, 0)) instrs).eraseDups
  let saved := kept.filter fun v => (constants.lookup v).isNone
  { isImported, saved, constants
    framed := instrs.any Instr.isCall || !r.slots.isEmpty
    roomy := !saved.isEmpty || !r.slots.isEmpty }

/-- The positions of the address loads in bytes. -/
def addressLoads (r : Routine) (isImported : FunctionNumber → Bool) : List Nat :=
  let blocks := r.neededBlocks
  let l := r.layout isImported (blocks.flatMap (·.2))
  (l.loads (l.entryWords r.entryParams) blocks).map (· * Instr.wordSize)

/-- The labels of the address loads in the `number`-th function. -/
def addressLabels (r : Routine) (isImported : FunctionNumber → Bool) (number : FunctionNumber) :
    List String :=
  (r.addressLoads isImported).map fun position =>
    ".L" ++ toString number ++ "_" ++ toString position

end Routine

end TreeCompiler.Target
