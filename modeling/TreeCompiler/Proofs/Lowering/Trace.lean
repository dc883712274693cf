/-
Which programs leave every block in shape.

What a construct adds to the block it stands in can be read off the tree.  The trace of an
expression or a statement lists the instructions that it adds there, each as a mark: does it end the
block?  A conditional adds the branch and a loop the jump; their arms and bodies go to blocks of
their own and have traces of their own.  A program is well shaped if the trace of every region suits
the block it fills.

A trace leaves out the loads of variables.  A load never ends a block, and something that uses the
value always follows it, so leaving it out changes nothing about the shape (`Alike`).
-/
import TreeCompiler.Lowering.Tree
import TreeCompiler.Proofs.IR.Shape

namespace TreeCompiler.Program

open IR.Marks (isOpen isClosed)

/-! ### Traces -/

mutual

/-- What an expression adds to the block it stands in: for each instruction whether it ends the
block. -/
def Expr.trace : Expr → List Bool
  | .int .. | .double .. | .string .. | .ident .. => []
  | .call _ _ args => argsTrace args ++ [false]
  | .binary _ _ left right => left.trace ++ right.trace ++ [false]
  | .assign _ _ value => value.trace ++ [false]
  | .ifElse _ cond _ _ => cond.trace ++ [true]
  | .loop _ start _ _ => start.trace ++ [true]
  | .block _ body => body.trace

def argsTrace : List Expr → List Bool
  | [] => []
  | arg :: args => arg.trace ++ argsTrace args

/-- A declaration with a value makes a slot and stores the value; a function is built elsewhere. -/
def Stmt.trace : Stmt → List Bool
  | .expr _ value => value.trace
  | .ret _ none => [true]
  | .ret _ (some value) => value.trace ++ [true]
  | .var _ _ _ none => []
  | .var _ _ _ (some init) => false :: (init.trace ++ [false])
  | .fn .. => []
  | .block _ body => body.trace

def Block.trace : Block → List Bool
  | .mk _ stmts => stmtsTrace stmts

def stmtsTrace : List Stmt → List Bool
  | [] => []
  | stmt :: stmts => stmt.trace ++ stmtsTrace stmts

end

/-! ### Shape -/

/-- What the trace of a function body must be.  A function that returns nothing and has no return
among its own statements is given one, so nothing may end its body; any other function must end by
itself. -/
def Block.endsFunction (body : Block) (retTy : Option String) : Bool :=
  if (Lowering.returnType retTy).isVoid && !body.hasTopLevelReturn then isOpen body.trace
  else isClosed body.trace

mutual

/-- The regions inside an expression suit the blocks they fill: an arm of a conditional ends its
block, and neither the body nor the bound of a loop does, since the test of the loop comes after
them. -/
def Expr.shaped : Expr → Bool
  | .int .. | .double .. | .string .. | .ident .. => true
  | .call _ _ args => argsShaped args
  | .binary _ _ left right => left.shaped && right.shaped
  | .assign _ _ value => value.shaped
  | .ifElse _ cond thenBlock elseBlock =>
    cond.shaped && ((isClosed thenBlock.trace && thenBlock.shaped) &&
      (isClosed elseBlock.trace && elseBlock.shaped))
  | .loop _ start limit body =>
    start.shaped && ((isOpen body.trace && body.shaped) && (isOpen limit.trace && limit.shaped))
  | .block _ body => body.shaped

def argsShaped : List Expr → Bool
  | [] => true
  | arg :: args => arg.shaped && argsShaped args

def Stmt.shaped : Stmt → Bool
  | .expr _ value => value.shaped
  | .ret _ none => true
  | .ret _ (some value) => value.shaped
  | .var _ _ _ none => true
  | .var _ _ _ (some init) => init.shaped
  | .fn _ retTy _ _ body => body.endsFunction retTy && body.shaped
  | .block _ body => body.shaped

def Block.shaped : Block → Bool
  | .mk _ stmts => stmtsShaped stmts

def stmtsShaped : List Stmt → Bool
  | [] => true
  | stmt :: stmts => stmt.shaped && stmtsShaped stmts

end

/-- A program whose regions all suit their blocks.  The statements of the program itself may end
their block or leave that to the compiler. -/
def Block.wellShaped (root : Block) : Bool :=
  (isOpen root.trace || isClosed root.trace) && root.shaped

end TreeCompiler.Program

namespace TreeCompiler.Lowering

open IR.Marks

/-! ### Traces and marks -/

/-- Marks that have a terminator exactly if the trace has one. -/
def Loose (marks trace : List Bool) : Prop := isOpen marks = isOpen trace

/-- Marks that differ from a trace by what does not matter to the shape of a block: they are the
same at the end, and before it they have a terminator exactly if the trace has one. -/
inductive Alike : List Bool → List Bool → Prop
  | nil : Alike [] []
  | concat {marks trace : List Bool} (before : Loose marks trace) (b : Bool) :
      Alike (marks ++ [b]) (trace ++ [b])

variable {marks marks' trace trace' : List Bool}

theorem Loose.append (h : Loose marks trace) (h' : Loose marks' trace') :
    Loose (marks ++ marks') (trace ++ trace') := by
  unfold Loose at *
  rw [isOpen_append, isOpen_append, h, h']

namespace Alike

theorem loose (h : Alike marks trace) : Loose marks trace := by
  cases h with
  | nil => rfl
  | concat before b => exact before.append rfl

theorem append (h : Alike marks trace) (h' : Alike marks' trace') :
    Alike (marks ++ marks') (trace ++ trace') := by
  cases h' with
  | nil => simpa using h
  | concat before b =>
    rw [← List.append_assoc, ← List.append_assoc]
    exact .concat (h.loose.append before) b

theorem isClosed_eq (h : Alike marks trace) : isClosed marks = isClosed trace := by
  cases h with
  | nil => rfl
  | concat before b => rw [isClosed_concat, isClosed_concat, before]

end Alike

end TreeCompiler.Lowering
