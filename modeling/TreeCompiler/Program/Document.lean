/-
Program trees as JSON documents.

A node is written as an object with every field present.  Reading is more generous: the fields of a
node may also be listed in an array in their order, fields with a default may be left out, and
fields nobody knows are skipped.  What is skipped only has to be JSON; what is read must not nest
deeper than `nestingLimit`.
-/
import TreeCompiler.Json.Reader
import TreeCompiler.Json.Printer
import TreeCompiler.Program.Basic

namespace TreeCompiler.Program

/-- How many arrays and objects may stand inside one another. -/
def nestingLimit : Nat := 127

/-! ### Reading the parts of a node -/

/-- Every key of an object, provided each of them denotes a text. -/
def readKeys (members : List (Option String × Json)) : Option (List (String × Json)) :=
  members.mapM fun (key, value) => key.map (·, value)

/-- The one member called `name`, or nothing if there is none.  Two of them are an error. -/
def member? (members : List (String × Json)) (name : String) : Option (Option Json) :=
  match members.filter (·.1 = name) with
  | [] => some none
  | [(_, value)] => some (some value)
  | _ => none

/-- The fields of a node by name, in the order asked for.  The node is an object, or an array that
lists the fields in that order and may stop early. -/
def readFields (names : List String) : Json → Option (List (Option Json))
  | .obj members => do
    let members ← readKeys members
    names.mapM (member? members)
  | .arr items =>
    if items.length ≤ names.length then
      some (items.map some ++ List.replicate (names.length - items.length) none)
    else none
  | _ => none

/-- The tag and the payload of a tagged value: an object with a single member. -/
def readTagged : Json → Option (String × Json)
  | .obj [(some tag, payload)] => some (tag, payload)
  | _ => none

def readText : Json → Option String
  | .str s => s
  | _ => none

/-- What `read` finds, or nothing for null. -/
def readOrNull {α : Type} (read : Json → Option α) : Json → Option (Option α)
  | .null => some none
  | j => (read j).map some

/-- A node number; a node without one has number zero. -/
def readId : Option Json → Option NodeId
  | none => some 0
  | some (.num (.integer false n)) => if n < UInt32.size then some (UInt32.ofNat n) else none
  | some _ => none

/-- An integer literal of 64 bits.  A minus sign before zero makes it no integer. -/
def readInt64 : Json → Option Int64
  | .num (.integer false n) => if n ≤ Int64.maxValue.toInt then some (Int64.ofNat n) else none
  | .num (.integer true n) =>
    if 0 < n ∧ Int64.minValue.toInt ≤ -n then some (Int64.ofInt (-n)) else none
  | _ => none

/-- What a number is taken for.  Readers of JSON differ in how they round, so the readers below
leave this open. -/
abbrev NumberReader := Json.Number → Double

/-- Take a number for the double nearest to it. -/
def nearest : NumberReader := fun n => n.toDecimal.toDouble

/-- Any number that is not too large for a double. -/
def readDouble (number : NumberReader) : Json → Option Double
  | .num n => if (number n).isFinite then some (number n) else none
  | _ => none

/-- The operator that a tag names. -/
def binOpOfTag? : String → Option BinOp
  | "Add" => some .add
  | "Sub" => some .sub
  | "Mul" => some .mul
  | "Div" => some .div
  | "Lt" => some .lt
  | "Gt" => some .gt
  | "Le" => some .le
  | "Ge" => some .ge
  | "Eq" => some .eq
  | "Ne" => some .ne
  | _ => none

/-- An operator is its tag, or an object with the tag and null. -/
def readBinOp (depth : Nat) : Json → Option BinOp
  | .str (some tag) => binOpOfTag? tag
  | .obj [(some tag, .null)] => if depth = 0 then none else binOpOfTag? tag
  | _ => none

/-- A parameter in at most `depth` further levels. -/
def readParam (depth : Nat) (j : Json) : Option Param := do
  guard (0 < depth)
  let [id, ty, name] ← readFields ["id", "ty", "name"] j | none
  return ⟨← readId id, ← readText (← ty), ← readText (← name)⟩

/-- The parameters of a function; none if the field is missing. -/
def readParams (depth : Nat) : Option Json → Option (List Param)
  | none => some []
  | some (.arr items) => if depth = 0 then none else items.mapM (readParam (depth - 1))
  | some _ => none

/-! ### Reading trees

The argument before the document is the number of levels that may still be entered. -/

mutual

/-- An expression. -/
def readExpr (number : NumberReader) : Nat → Json → Option Expr
  | 0, _ => none
  | depth + 1, j => do
    let [id, kind] ← readFields ["id", "kind"] j | none
    readExprKind number depth (← readId id) (← kind)

/-- What an expression with the given number is. -/
def readExprKind (number : NumberReader) : Nat → NodeId → Json → Option Expr
  | 0, _, _ => none
  | depth + 1, id, j => do
    let (tag, payload) ← readTagged j
    match tag with
    | "Int" => return .int id (← readInt64 payload)
    | "Double" => return .double id (← readDouble number payload)
    | "Str" => return .string id (← readText payload)
    | "Ident" => return .ident id (← readText payload)
    | "Block" => return .block id (← readBlock number depth payload)
    | tag => readCompound number depth id tag payload

/-- The expressions that have several parts. -/
def readCompound (number : NumberReader) : Nat → NodeId → String → Json → Option Expr
  | 0, _, _, _ => none
  | depth + 1, id, tag, j => do
    match tag with
    | "Call" =>
      let [callee, args] ← readFields ["callee", "args"] j | none
      return .call id (← readText (← callee)) (← readExprs number depth (← args))
    | "Binary" =>
      let [op, left, right] ← readFields ["op", "left", "right"] j | none
      return .binary id (← readBinOp depth (← op)) (← readExpr number depth (← left))
        (← readExpr number depth (← right))
    | "Assign" =>
      let [target, value] ← readFields ["target", "value"] j | none
      return .assign id (← readText (← target)) (← readExpr number depth (← value))
    | "If" =>
      let [cond, thenBlock, elseBlock] ← readFields ["cond", "then_block", "else_block"] j | none
      return .ifElse id (← readExpr number depth (← cond)) (← readBlock number depth (← thenBlock))
        (← readBlock number depth (← elseBlock))
    | "Loop" =>
      let [start, limit, body] ← readFields ["from", "until", "body"] j | none
      return .loop id (← readExpr number depth (← start)) (← readExpr number depth (← limit))
        (← readBlock number depth (← body))
    | _ => none

/-- An array of expressions. -/
def readExprs (number : NumberReader) : Nat → Json → Option (List Expr)
  | depth + 1, .arr items => items.mapM (readExpr number depth)
  | _, _ => none

/-- A statement. -/
def readStmt (number : NumberReader) : Nat → Json → Option Stmt
  | 0, _ => none
  | depth + 1, j => do
    let [id, kind] ← readFields ["id", "kind"] j | none
    readStmtKind number depth (← readId id) (← kind)

/-- What a statement with the given number is. -/
def readStmtKind (number : NumberReader) : Nat → NodeId → Json → Option Stmt
  | 0, _, _ => none
  | depth + 1, id, j => do
    let (tag, payload) ← readTagged j
    match tag with
    | "Expr" => return .expr id (← readExpr number depth payload)
    | "Return" => return .ret id (← readOrNull (readExpr number depth) payload)
    | "Block" => return .block id (← readBlock number depth payload)
    | tag => readDeclaration number depth id tag payload

/-- The statements that declare something. -/
def readDeclaration (number : NumberReader) : Nat → NodeId → String → Json → Option Stmt
  | 0, _, _, _ => none
  | depth + 1, id, tag, j => do
    match tag with
    | "Var" =>
      let [ty, name, init] ← readFields ["ty", "name", "init"] j | none
      return .var id (← readText (← ty)) (← readText (← name))
        (← readOrNull (readExpr number depth) (init.getD .null))
    | "Fn" =>
      let [retTy, name, params, body] ← readFields ["ret_ty", "name", "params", "body"] j | none
      return .fn id (← readOrNull readText (retTy.getD .null)) (← readText (← name))
        (← readParams depth params) (← readBlock number depth (← body))
    | _ => none

/-- A block. -/
def readBlock (number : NumberReader) : Nat → Json → Option Block
  | 0, _ => none
  | depth + 1, j => do
    let [id, stmts] ← readFields ["id", "stmts"] j | none
    return .mk (← readId id) (← readStmts number depth (← stmts))

/-- An array of statements. -/
def readStmts (number : NumberReader) : Nat → Json → Option (List Stmt)
  | depth + 1, .arr items => items.mapM (readStmt number depth)
  | _, _ => none

end

/-- The expression a document holds. -/
def Expr.ofJson? (number : NumberReader) (j : Json) : Option Expr := readExpr number nestingLimit j

/-- The statement a document holds. -/
def Stmt.ofJson? (number : NumberReader) (j : Json) : Option Stmt := readStmt number nestingLimit j

/-- The program a document holds. -/
def Block.ofJson? (number : NumberReader) (j : Json) : Option Block :=
  readBlock number nestingLimit j

/-- The program a text holds. -/
def Block.ofString? (number : NumberReader) (s : String) : Option Block := do
  Block.ofJson? number (← Json.ofString? s)

/-! ### Writing trees -/

def BinOp.tag : BinOp → String
  | .add => "Add"
  | .sub => "Sub"
  | .mul => "Mul"
  | .div => "Div"
  | .lt => "Lt"
  | .gt => "Gt"
  | .le => "Le"
  | .ge => "Ge"
  | .eq => "Eq"
  | .ne => "Ne"

/-- A tagged value. -/
def tagged (tag : String) (payload : Json) : Json := .object [(tag, payload)]

/-- A node with its number. -/
def node (id : NodeId) (kind : Json) : Json := .object [("id", .nat id.toNat), ("kind", kind)]

def Param.toJson (p : Param) : Json :=
  .object [("id", .nat p.id.toNat), ("ty", .text p.ty), ("name", .text p.name)]

mutual

/-- The document of an expression, in which `double` writes the double literals. -/
def Expr.toJsonWith (double : Double → Json) : Expr → Json
  | .int id value => node id (tagged "Int" (.int value.toInt))
  | .double id value => node id (tagged "Double" (double value))
  | .string id raw => node id (tagged "Str" (.text raw))
  | .ident id name => node id (tagged "Ident" (.text name))
  | .call id callee args =>
    node id (tagged "Call" (.object [("callee", .text callee),
      ("args", .arr (exprsToJson double args))]))
  | .binary id op left right =>
    node id (tagged "Binary" (.object [("op", .text op.tag), ("left", left.toJsonWith double),
      ("right", right.toJsonWith double)]))
  | .assign id target value =>
    node id (tagged "Assign" (.object [("target", .text target),
      ("value", value.toJsonWith double)]))
  | .ifElse id cond thenBlock elseBlock =>
    node id (tagged "If" (.object [("cond", cond.toJsonWith double),
      ("then_block", thenBlock.toJsonWith double), ("else_block", elseBlock.toJsonWith double)]))
  | .loop id start limit body =>
    node id (tagged "Loop" (.object [("from", start.toJsonWith double),
      ("until", limit.toJsonWith double), ("body", body.toJsonWith double)]))
  | .block id body => node id (tagged "Block" (body.toJsonWith double))

def exprsToJson (double : Double → Json) : List Expr → List Json
  | [] => []
  | e :: es => e.toJsonWith double :: exprsToJson double es

/-- The document of a statement. -/
def Stmt.toJsonWith (double : Double → Json) : Stmt → Json
  | .expr id value => node id (tagged "Expr" (value.toJsonWith double))
  | .ret id none => node id (tagged "Return" .null)
  | .ret id (some value) => node id (tagged "Return" (value.toJsonWith double))
  | .var id ty name none =>
    node id (tagged "Var" (.object [("ty", .text ty), ("name", .text name), ("init", .null)]))
  | .var id ty name (some init) =>
    node id (tagged "Var" (.object [("ty", .text ty), ("name", .text name),
      ("init", init.toJsonWith double)]))
  | .fn id retTy name params body =>
    node id (tagged "Fn" (.object [("ret_ty", .textOrNull retTy), ("name", .text name),
      ("params", .arr (params.map Param.toJson)), ("body", body.toJsonWith double)]))
  | .block id body => node id (tagged "Block" (body.toJsonWith double))

/-- The document of a block. -/
def Block.toJsonWith (double : Double → Json) : Block → Json
  | .mk id stmts => .object [("id", .nat id.toNat), ("stmts", .arr (stmtsToJson double stmts))]

def stmtsToJson (double : Double → Json) : List Stmt → List Json
  | [] => []
  | s :: ss => s.toJsonWith double :: stmtsToJson double ss

end

/-- A double as the shortest number that reads back to it.  JSON has no word for the others. -/
def doubleToJson (x : Double) : Json :=
  match x.value with
  | .finite negative mantissa exponent =>
    .num (.decimal (Decimal.shortest negative mantissa exponent))
  | _ => .null

/-- The document of a program. -/
def Block.toJson (b : Block) : Json := b.toJsonWith doubleToJson

/-- The text of a program. -/
def Block.render (b : Block) : String := b.toJson.render

/-- Whether a program written down and read again is written in the same way. -/
def Block.survivesRoundTrip (number : NumberReader) (b : Block) : Bool :=
  (Block.ofString? number b.render).map Block.render == some b.render

end TreeCompiler.Program
