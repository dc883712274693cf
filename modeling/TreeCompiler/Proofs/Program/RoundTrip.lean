/-
Programs that are written down and read again.

A program is written as a document and the document as a text.  The text gives the document back,
with each double as its decimal has it (`Block.reads`), and from the document the reader finds every
node again (`Block.read`), if it may go as deep as the document nests.

The other way round, readers accept more than is ever written: fields by position, fields left out,
fields nobody knows.  But none of this is deeper when it is written in full.  A node is an object or
an array in either form, a long operator becomes a short one, and the one thing that can appear from
nothing, an empty list of parameters, stands beside a body that is deeper.  So whatever was read
within some depth is written within it (`rewritable`).
-/
import TreeCompiler.Program.Document
import TreeCompiler.Proofs.Decimal.Nearest
import TreeCompiler.Proofs.Json.RoundTrip

namespace TreeCompiler

/-! ### How deep a document nests -/

namespace Json

mutual

/-- How many arrays and objects stand inside one another. -/
def nesting : Json → Nat
  | .arr items => itemsNesting items + 1
  | .obj members => membersNesting members + 1
  | _ => 0

def itemsNesting : List Json → Nat
  | [] => 0
  | j :: items => max j.nesting (itemsNesting items)

def membersNesting : List (Option String × Json) → Nat
  | [] => 0
  | (_, j) :: members => max j.nesting (membersNesting members)

end

theorem itemsNesting_le_iff {items : List Json} {depth : Nat} :
    itemsNesting items ≤ depth ↔ ∀ j ∈ items, j.nesting ≤ depth := by
  induction items with
  | nil => simp [itemsNesting]
  | cons j items ih => rw [itemsNesting, Nat.max_le, ih, List.forall_mem_cons]

theorem nesting_object (members : List (String × Json)) :
    (object members).nesting = itemsNesting (members.map (·.2)) + 1 := by
  rw [object, nesting]
  congr 1
  induction members with
  | nil => rfl
  | cons m members ih => rw [List.map_cons, List.map_cons, membersNesting, itemsNesting, ih]

end Json

namespace Program

open Json (Reads ReadsItems ReadsMembers reads_nat reads_int reads_text reads_textOrNull nesting
  itemsNesting membersNesting)

/-! ### The numbers of a program -/

mutual

/-- The double literals of an expression. -/
def Expr.doubles : Expr → List Double
  | .double _ value => [value]
  | .int .. | .string .. | .ident .. => []
  | .call _ _ args => exprsDoubles args
  | .binary _ _ left right => left.doubles ++ right.doubles
  | .assign _ _ value => value.doubles
  | .ifElse _ cond thenBlock elseBlock => cond.doubles ++ thenBlock.doubles ++ elseBlock.doubles
  | .loop _ start limit body => start.doubles ++ limit.doubles ++ body.doubles
  | .block _ body => body.doubles

def exprsDoubles : List Expr → List Double
  | [] => []
  | e :: es => e.doubles ++ exprsDoubles es

/-- The double literals of a statement. -/
def Stmt.doubles : Stmt → List Double
  | .expr _ value => value.doubles
  | .ret _ none | .var _ _ _ none => []
  | .ret _ (some value) => value.doubles
  | .var _ _ _ (some init) => init.doubles
  | .fn _ _ _ _ body => body.doubles
  | .block _ body => body.doubles

/-- The double literals of a block. -/
def Block.doubles : Block → List Double
  | .mk _ stmts => stmtsDoubles stmts

def stmtsDoubles : List Stmt → List Double
  | [] => []
  | s :: ss => s.doubles ++ stmtsDoubles ss

end

/-! ### The text of a document -/

theorem reads_tagged (tag : String) {j j' : Json} (h : Reads j j') :
    Reads (tagged tag j) (tagged tag j') :=
  .obj (.cons tag h .nil)

theorem reads_node (id : NodeId) {j j' : Json} (h : Reads j j') : Reads (node id j) (node id j') :=
  .obj (.cons "id" (reads_nat id.toNat) (.cons "kind" h .nil))

theorem readsItems_params (params : List Param) :
    ReadsItems (params.map Param.toJson) (params.map Param.toJson) := by
  induction params with
  | nil => exact .nil
  | cons p params ih =>
    refine .cons (.obj ?_) ih
    exact .cons "id" (reads_nat p.id.toNat)
      (.cons "ty" (reads_text p.ty) (.cons "name" (reads_text p.name) .nil))

section Text

variable {f g : Double → Json}

mutual

/-- The text of a document is read as the document with its doubles as their texts have them. -/
theorem Expr.reads : ∀ (e : Expr), (∀ x ∈ e.doubles, Reads (f x) (g x)) →
    Reads (e.toJsonWith f) (e.toJsonWith g)
  | .int id value, _ => reads_node id (reads_tagged _ (reads_int _))
  | .double id value, h => reads_node id (reads_tagged _ (h value (by simp [Expr.doubles])))
  | .string id raw, _ => reads_node id (reads_tagged _ (reads_text _))
  | .ident id name, _ => reads_node id (reads_tagged _ (reads_text _))
  | .call id callee args, h =>
    reads_node id (reads_tagged _
      (.obj (.cons _ (reads_text _) (.cons _ (.arr (exprs_read args h)) .nil))))
  | .binary id op left right, h => by
    simp only [Expr.doubles, List.forall_mem_append] at h
    exact reads_node id (reads_tagged _ (.obj (.cons _ (reads_text _) (.cons _ (left.reads h.1)
      (.cons _ (right.reads h.2) .nil)))))
  | .assign id target value, h =>
    reads_node id (reads_tagged _ (.obj (.cons _ (reads_text _) (.cons _ (value.reads h) .nil))))
  | .ifElse id cond thenBlock elseBlock, h => by
    simp only [Expr.doubles, List.forall_mem_append] at h
    exact reads_node id (reads_tagged _
      (.obj (.cons _ (cond.reads h.1.1) (.cons _ (thenBlock.reads h.1.2)
      (.cons _ (elseBlock.reads h.2) .nil)))))
  | .loop id start limit body, h => by
    simp only [Expr.doubles, List.forall_mem_append] at h
    exact reads_node id (reads_tagged _
      (.obj (.cons _ (start.reads h.1.1) (.cons _ (limit.reads h.1.2)
      (.cons _ (body.reads h.2) .nil)))))
  | .block id body, h => reads_node id (reads_tagged _ (body.reads h))

theorem exprs_read : ∀ (es : List Expr), (∀ x ∈ exprsDoubles es, Reads (f x) (g x)) →
    ReadsItems (exprsToJson f es) (exprsToJson g es)
  | [], _ => .nil
  | e :: es, h => by
    simp only [exprsDoubles, List.forall_mem_append] at h
    exact .cons (e.reads h.1) (exprs_read es h.2)

theorem Stmt.reads : ∀ (s : Stmt), (∀ x ∈ s.doubles, Reads (f x) (g x)) →
    Reads (s.toJsonWith f) (s.toJsonWith g)
  | .expr id value, h => reads_node id (reads_tagged _ (value.reads h))
  | .ret id none, _ => reads_node id (reads_tagged _ .null)
  | .ret id (some value), h => reads_node id (reads_tagged _ (value.reads h))
  | .var id _ _ none, _ =>
    reads_node id (reads_tagged _
      (.obj (.cons _ (reads_text _) (.cons _ (reads_text _) (.cons _ .null .nil)))))
  | .var id _ _ (some init), h =>
    reads_node id (reads_tagged _ (.obj (.cons _ (reads_text _) (.cons _ (reads_text _)
      (.cons _ (init.reads h) .nil)))))
  | .fn id _ _ params body, h =>
    reads_node id (reads_tagged _ (.obj (.cons _ (reads_textOrNull _) (.cons _ (reads_text _)
      (.cons _ (.arr (readsItems_params params)) (.cons _ (body.reads h) .nil))))))
  | .block id body, h => reads_node id (reads_tagged _ (body.reads h))

theorem Block.reads : ∀ (b : Block), (∀ x ∈ b.doubles, Reads (f x) (g x)) →
    Reads (b.toJsonWith f) (b.toJsonWith g)
  | .mk id stmts, h =>
    .obj (.cons _ (reads_nat id.toNat) (.cons _ (.arr (stmts_read stmts h)) .nil))

theorem stmts_read : ∀ (ss : List Stmt), (∀ x ∈ stmtsDoubles ss, Reads (f x) (g x)) →
    ReadsItems (stmtsToJson f ss) (stmtsToJson g ss)
  | [], _ => .nil
  | s :: ss, h => by
    simp only [stmtsDoubles, List.forall_mem_append] at h
    exact .cons (s.reads h.1) (stmts_read ss h.2)

end

end Text

/-! ### Reading a document -/

theorem readId_nat (id : NodeId) : readId (some (.nat id.toNat)) = some id := by
  simp [readId, Json.nat, id.toNat_lt_size]

theorem readInt64_int (n : Int64) : readInt64 (.int n.toInt) = some n := by
  have hlow := n.minValue_le_toInt
  have hhigh := n.toInt_le
  unfold Json.int
  by_cases hneg : n.toInt < 0
  · simp only [hneg, decide_true, readInt64]
    rw [if_pos (by omega), show -(n.toInt.natAbs : Int) = n.toInt by omega, Int64.ofInt_toInt]
  · simp only [hneg, decide_false, readInt64]
    rw [if_pos (by omega), ← Int64.ofInt_eq_ofNat, show (n.toInt.natAbs : Int) = n.toInt by omega,
      Int64.ofInt_toInt]

theorem readBinOp_tag (depth : Nat) (op : BinOp) : readBinOp depth (.text op.tag) = some op := by
  cases op <;> rfl

theorem readExpr_node (number : NumberReader) (depth : Nat) (id : NodeId) (kind : Json) :
    readExpr number (depth + 1) (node id kind) = readExprKind number depth id kind := by
  rw [readExpr, show readFields ["id", "kind"] (node id kind) = some [some (.nat id.toNat),
    some kind] from rfl]
  simp [readId_nat]

theorem readStmt_node (number : NumberReader) (depth : Nat) (id : NodeId) (kind : Json) :
    readStmt number (depth + 1) (node id kind) = readStmtKind number depth id kind := by
  rw [readStmt, show readFields ["id", "kind"] (node id kind) = some [some (.nat id.toNat),
    some kind] from rfl]
  simp [readId_nat]

theorem readParam_toJson (depth : Nat) (p : Param) : readParam (depth + 1) p.toJson = some p := by
  show (do return Param.mk (← readId (some (.nat p.id.toNat))) p.ty p.name) = some p
  rw [readId_nat]
  rfl

theorem readParams_toJson (depth : Nat) (params : List Param) :
    readParams (depth + 2) (some (.arr (params.map Param.toJson))) = some params := by
  show (params.map Param.toJson).mapM (readParam (depth + 1)) = some params
  induction params with
  | nil => rfl
  | cons p params ih => simp [readParam_toJson, ih]

theorem readOrNull_text (s : Option String) : readOrNull readText (.textOrNull s) = some s := by
  cases s <;> rfl

theorem nesting_tagged (id : NodeId) (tag : String) (j : Json) :
    (node id (tagged tag j)).nesting = j.nesting + 2 := by
  simp [node, tagged, Json.object, Json.nat, nesting, membersNesting]

/-- A tagged node is entered through two levels. -/
theorem depth_of_tagged {id : NodeId} {tag : String} {j : Json} {depth : Nat}
    (h : (node id (tagged tag j)).nesting ≤ depth) : ∃ d, depth = d + 2 ∧ j.nesting ≤ d := by
  rw [nesting_tagged] at h
  exact ⟨depth - 2, by omega, by omega⟩

/-- The parts of a node are entered through three levels. -/
theorem depth_of_compound {id : NodeId} {tag : String} {members : List (String × Json)}
    {depth : Nat} (h : (node id (tagged tag (.object members))).nesting ≤ depth) :
    ∃ d, depth = d + 3 ∧ ∀ m ∈ members, m.2.nesting ≤ d := by
  obtain ⟨d, rfl, hd⟩ := depth_of_tagged h
  rw [Json.nesting_object] at hd
  have hparts : itemsNesting (members.map (·.2)) ≤ d - 1 := by omega
  exact ⟨d - 1, by omega, fun m hm => Json.itemsNesting_le_iff.mp hparts m.2
    (List.mem_map_of_mem hm)⟩

theorem depth_of_arr {items : List Json} {depth : Nat} (h : (Json.arr items).nesting ≤ depth) :
    ∃ d, depth = d + 1 ∧ itemsNesting items ≤ d := by
  rw [nesting] at h
  exact ⟨depth - 1, by omega, by omega⟩

theorem Block.nesting_toJsonWith (f : Double → Json) (b : Block) :
    (b.toJsonWith f).nesting = itemsNesting (stmtsToJson f b.stmts) + 2 := by
  cases b with
  | mk id stmts =>
    simp [Block.toJsonWith, Block.stmts, Json.object, Json.nat, nesting, membersNesting]

section Reading

-- The document that is read has its doubles as `g` writes them.  How deep it nests is measured on
-- another, whose doubles are written by `f`: this is the one there was before the text.
variable {number : NumberReader} {f g : Double → Json}

theorem readOrNull_toJsonWith (e : Expr) (read : Json → Option Expr) :
    readOrNull read (e.toJsonWith g) = (read (e.toJsonWith g)).map some := by
  cases e <;> rfl

mutual

/-- The document of an expression is read as the expression, if its doubles are. -/
theorem Expr.read : ∀ (e : Expr) (depth : Nat), (e.toJsonWith f).nesting ≤ depth →
    (∀ x ∈ e.doubles, readDouble number (g x) = some x) →
      readExpr number depth (e.toJsonWith g) = some e
  | .int id value, depth, hdepth, _ => by
    obtain ⟨d, rfl, -⟩ := depth_of_tagged hdepth
    rw [Expr.toJsonWith, readExpr_node]
    show (do return Expr.int id (← readInt64 (.int value.toInt))) = _
    rw [readInt64_int]
    rfl
  | .double id value, depth, hdepth, h => by
    obtain ⟨d, rfl, -⟩ := depth_of_tagged hdepth
    rw [Expr.toJsonWith, readExpr_node]
    show (do return Expr.double id (← readDouble number (g value))) = _
    rw [h value (by simp [Expr.doubles])]
    rfl
  | .string id raw, depth, hdepth, _ => by
    obtain ⟨d, rfl, -⟩ := depth_of_tagged hdepth
    rw [Expr.toJsonWith, readExpr_node]
    rfl
  | .ident id name, depth, hdepth, _ => by
    obtain ⟨d, rfl, -⟩ := depth_of_tagged hdepth
    rw [Expr.toJsonWith, readExpr_node]
    rfl
  | .call id callee args, depth, hdepth, h => by
    obtain ⟨d, rfl, hparts⟩ := depth_of_compound hdepth
    simp only [List.forall_mem_cons] at hparts
    obtain ⟨d, rfl, hargs⟩ := depth_of_arr hparts.2.1
    rw [Expr.toJsonWith, readExpr_node]
    show (do return Expr.call id callee (← (exprsToJson g args).mapM (readExpr number d))) = _
    rw [exprs_read_items args d hargs h]
    rfl
  | .binary id op left right, depth, hdepth, h => by
    obtain ⟨d, rfl, hparts⟩ := depth_of_compound hdepth
    simp only [List.forall_mem_cons] at hparts
    simp only [Expr.doubles, List.forall_mem_append] at h
    rw [Expr.toJsonWith, readExpr_node]
    show (do
      return Expr.binary id (← readBinOp d (.text op.tag)) (← readExpr number d (left.toJsonWith g))
        (← readExpr number d (right.toJsonWith g))) = _
    rw [readBinOp_tag, left.read d hparts.2.1 h.1, right.read d hparts.2.2.1 h.2]
    rfl
  | .assign id target value, depth, hdepth, h => by
    obtain ⟨d, rfl, hparts⟩ := depth_of_compound hdepth
    simp only [List.forall_mem_cons] at hparts
    rw [Expr.toJsonWith, readExpr_node]
    show (do return Expr.assign id target (← readExpr number d (value.toJsonWith g))) = _
    rw [value.read d hparts.2.1 h]
    rfl
  | .ifElse id cond thenBlock elseBlock, depth, hdepth, h => by
    obtain ⟨d, rfl, hparts⟩ := depth_of_compound hdepth
    simp only [List.forall_mem_cons] at hparts
    simp only [Expr.doubles, List.forall_mem_append] at h
    rw [Expr.toJsonWith, readExpr_node]
    show (do
      return Expr.ifElse id (← readExpr number d (cond.toJsonWith g))
        (← readBlock number d (thenBlock.toJsonWith g))
        (← readBlock number d (elseBlock.toJsonWith g))) = _
    rw [cond.read d hparts.1 h.1.1, thenBlock.read d hparts.2.1 h.1.2,
      elseBlock.read d hparts.2.2.1 h.2]
    rfl
  | .loop id start limit body, depth, hdepth, h => by
    obtain ⟨d, rfl, hparts⟩ := depth_of_compound hdepth
    simp only [List.forall_mem_cons] at hparts
    simp only [Expr.doubles, List.forall_mem_append] at h
    rw [Expr.toJsonWith, readExpr_node]
    show (do
      return Expr.loop id (← readExpr number d (start.toJsonWith g))
        (← readExpr number d (limit.toJsonWith g))
        (← readBlock number d (body.toJsonWith g))) = _
    rw [start.read d hparts.1 h.1.1, limit.read d hparts.2.1 h.1.2, body.read d hparts.2.2.1 h.2]
    rfl
  | .block id body, depth, hdepth, h => by
    obtain ⟨d, rfl, hbody⟩ := depth_of_tagged hdepth
    rw [Expr.toJsonWith, readExpr_node]
    show (do return Expr.block id (← readBlock number d (body.toJsonWith g))) = _
    rw [body.read d hbody h]
    rfl

theorem exprs_read_items :
    ∀ (es : List Expr) (depth : Nat), itemsNesting (exprsToJson f es) ≤ depth →
    (∀ x ∈ exprsDoubles es, readDouble number (g x) = some x) →
      (exprsToJson g es).mapM (readExpr number depth) = some es
  | [], _, _, _ => rfl
  | e :: es, depth, hdepth, h => by
    simp only [exprsToJson, itemsNesting, exprsDoubles, List.forall_mem_append] at hdepth h
    rw [exprsToJson, List.mapM_cons, e.read depth (by omega) h.1,
      exprs_read_items es depth (by omega) h.2]
    rfl

theorem Stmt.read : ∀ (s : Stmt) (depth : Nat), (s.toJsonWith f).nesting ≤ depth →
    (∀ x ∈ s.doubles, readDouble number (g x) = some x) →
      readStmt number depth (s.toJsonWith g) = some s
  | .expr id value, depth, hdepth, h => by
    obtain ⟨d, rfl, hvalue⟩ := depth_of_tagged hdepth
    rw [Stmt.toJsonWith, readStmt_node]
    show (do return Stmt.expr id (← readExpr number d (value.toJsonWith g))) = _
    rw [value.read d hvalue h]
    rfl
  | .ret id none, depth, hdepth, _ => by
    obtain ⟨d, rfl, -⟩ := depth_of_tagged hdepth
    rw [Stmt.toJsonWith, readStmt_node]
    rfl
  | .ret id (some value), depth, hdepth, h => by
    obtain ⟨d, rfl, hvalue⟩ := depth_of_tagged hdepth
    rw [Stmt.toJsonWith, readStmt_node]
    show (do return Stmt.ret id (← readOrNull (readExpr number d) (value.toJsonWith g))) = _
    rw [readOrNull_toJsonWith, value.read d hvalue h]
    rfl
  | .var id ty name none, depth, hdepth, _ => by
    obtain ⟨d, rfl, -⟩ := depth_of_compound hdepth
    rw [Stmt.toJsonWith, readStmt_node]
    rfl
  | .var id ty name (some init), depth, hdepth, h => by
    obtain ⟨d, rfl, hparts⟩ := depth_of_compound hdepth
    simp only [List.forall_mem_cons] at hparts
    rw [Stmt.toJsonWith, readStmt_node]
    show (do return Stmt.var id ty name (← readOrNull (readExpr number d) (init.toJsonWith g))) = _
    rw [readOrNull_toJsonWith, init.read d hparts.2.2.1 h]
    rfl
  | .fn id retTy name params body, depth, hdepth, h => by
    obtain ⟨d, rfl, hparts⟩ := depth_of_compound hdepth
    simp only [List.forall_mem_cons] at hparts
    have hbody := body.nesting_toJsonWith f
    obtain ⟨d, rfl⟩ := Nat.exists_eq_add_of_le' (show 2 ≤ d by omega)
    rw [Stmt.toJsonWith, readStmt_node]
    show (do
      return Stmt.fn id (← readOrNull readText (.textOrNull retTy)) name
        (← readParams (d + 2) (some (.arr (params.map Param.toJson))))
          (← readBlock number (d + 2) (body.toJsonWith g))) = _
    rw [readOrNull_text, readParams_toJson, body.read (d + 2) hparts.2.2.2.1 h]
    rfl
  | .block id body, depth, hdepth, h => by
    obtain ⟨d, rfl, hbody⟩ := depth_of_tagged hdepth
    rw [Stmt.toJsonWith, readStmt_node]
    show (do return Stmt.block id (← readBlock number d (body.toJsonWith g))) = _
    rw [body.read d hbody h]
    rfl

theorem Block.read : ∀ (b : Block) (depth : Nat), (b.toJsonWith f).nesting ≤ depth →
    (∀ x ∈ b.doubles, readDouble number (g x) = some x) →
      readBlock number depth (b.toJsonWith g) = some b
  | .mk id stmts, depth, hdepth, h => by
    rw [Block.nesting_toJsonWith, Block.stmts] at hdepth
    obtain ⟨d, rfl⟩ := Nat.exists_eq_add_of_le' (show 2 ≤ depth by omega)
    rw [Block.toJsonWith]
    show (do
      return Block.mk (← readId (some (.nat id.toNat)))
        (← (stmtsToJson g stmts).mapM (readStmt number d))) = _
    rw [readId_nat, stmts_read_items stmts d (by omega) h]
    rfl

theorem stmts_read_items :
    ∀ (ss : List Stmt) (depth : Nat), itemsNesting (stmtsToJson f ss) ≤ depth →
    (∀ x ∈ stmtsDoubles ss, readDouble number (g x) = some x) →
      (stmtsToJson g ss).mapM (readStmt number depth) = some ss
  | [], _, _, _ => rfl
  | s :: ss, depth, hdepth, h => by
    simp only [stmtsToJson, itemsNesting, stmtsDoubles, List.forall_mem_append] at hdepth h
    rw [stmtsToJson, List.mapM_cons, s.read depth (by omega) h.1,
      stmts_read_items ss depth (by omega) h.2]
    rfl

end

end Reading

/-! ### What is read can be written -/

/-- A document nests no deeper than it may, and its numbers are finite. -/
structure Within (depth : Nat) (j : Json) (xs : List Double) : Prop where
  nesting : j.nesting ≤ depth
  finite : ∀ x ∈ xs, x.isFinite = true

theorem isFinite_of_readDouble {number : NumberReader} {j : Json} {x : Double}
    (h : readDouble number j = some x) : x.isFinite = true := by
  cases j with
  | num n =>
    rw [readDouble] at h
    split at h
    · rename_i hfinite
      cases h
      exact hfinite
    · cases h
  | _ => cases h

theorem nesting_doubleToJson (x : Double) : (doubleToJson x).nesting = 0 := by
  unfold doubleToJson
  split <;> rfl

theorem nesting_tagged_le {id : NodeId} {tag : String} {j : Json} {depth : Nat}
    (h : j.nesting ≤ depth) :
    (node id (tagged tag j)).nesting ≤ depth + 2 := by
  rw [nesting_tagged]
  exact Nat.add_le_add_right h 2

theorem nesting_compound_le {id : NodeId} {tag : String} {members : List (String × Json)}
    {depth : Nat} (h : ∀ m ∈ members, m.2.nesting ≤ depth) :
    (node id (tagged tag (.object members))).nesting ≤ depth + 3 := by
  refine nesting_tagged_le ?_
  rw [Json.nesting_object]
  refine Nat.succ_le_succ (Json.itemsNesting_le_iff.mpr fun j hj => ?_)
  obtain ⟨m, hm, rfl⟩ := List.mem_map.mp hj
  exact h m hm

/-- What holds of everything a reader finds holds of every item it finds in a list. -/
theorem forall_of_mapM {α β : Type} {read : α → Option β} {P : β → Prop}
    (h : ∀ a b, read a = some b → P b) :
    ∀ {as : List α} {bs : List β}, as.mapM read = some bs → ∀ b ∈ bs, P b := by
  intro as
  induction as with
  | nil =>
    intro bs hbs
    cases hbs
    simp
  | cons a as ih =>
    intro bs hbs
    simp only [List.mapM_cons, Option.bind_eq_bind, Option.bind_eq_some_iff] at hbs
    obtain ⟨b, hb, bs', hbs', heq⟩ := hbs
    cases heq
    exact List.forall_mem_cons.mpr ⟨h a b hb, ih hbs'⟩

/-- An array whose items are within a depth is within the next. -/
theorem Within.arr {α : Type} {write : α → Json} {numbers : α → List Double} {as : List α}
    {depth : Nat} (h : ∀ a ∈ as, Within depth (write a) (numbers a)) :
    Within (depth + 1) (.arr (as.map write)) (as.flatMap numbers) where
  nesting := by
    refine Nat.succ_le_succ (Json.itemsNesting_le_iff.mpr fun j hj => ?_)
    obtain ⟨a, ha, rfl⟩ := List.mem_map.mp hj
    exact (h a ha).nesting
  finite x hx := by
    obtain ⟨a, ha, hmem⟩ := List.mem_flatMap.mp hx
    exact (h a ha).finite x hmem

theorem exprsToJson_eq_map (f : Double → Json) (es : List Expr) :
    exprsToJson f es = es.map (Expr.toJsonWith f) := by
  induction es with
  | nil => rfl
  | cons e es ih => rw [exprsToJson, ih, List.map_cons]

theorem stmtsToJson_eq_map (f : Double → Json) (ss : List Stmt) :
    stmtsToJson f ss = ss.map (Stmt.toJsonWith f) := by
  induction ss with
  | nil => rfl
  | cons s ss ih => rw [stmtsToJson, ih, List.map_cons]

theorem exprsDoubles_eq_flatMap (es : List Expr) : exprsDoubles es = es.flatMap Expr.doubles := by
  induction es with
  | nil => rfl
  | cons e es ih => rw [exprsDoubles, ih, List.flatMap_cons]

theorem stmtsDoubles_eq_flatMap (ss : List Stmt) : stmtsDoubles ss = ss.flatMap Stmt.doubles := by
  induction ss with
  | nil => rfl
  | cons s ss ih => rw [stmtsDoubles, ih, List.flatMap_cons]

/-- Whatever the readers find in this many levels can be written in as many. -/
structure Rewritable (number : NumberReader) (depth : Nat) : Prop where
  expr : ∀ {j e}, readExpr number depth j = some e →
    Within depth (e.toJsonWith doubleToJson) e.doubles
  exprKind : ∀ {id j e}, readExprKind number depth id j = some e →
    Within (depth + 1) (e.toJsonWith doubleToJson) e.doubles
  compound : ∀ {id tag j e}, readCompound number depth id tag j = some e →
    Within (depth + 2) (e.toJsonWith doubleToJson) e.doubles
  exprs : ∀ {j es}, readExprs number depth j = some es →
    Within depth (.arr (exprsToJson doubleToJson es)) (exprsDoubles es)
  stmt : ∀ {j s}, readStmt number depth j = some s →
    Within depth (s.toJsonWith doubleToJson) s.doubles
  stmtKind : ∀ {id j s}, readStmtKind number depth id j = some s →
    Within (depth + 1) (s.toJsonWith doubleToJson) s.doubles
  declaration : ∀ {id tag j s}, readDeclaration number depth id tag j = some s →
    Within (depth + 2) (s.toJsonWith doubleToJson) s.doubles
  block : ∀ {j b}, readBlock number depth j = some b →
    Within depth (b.toJsonWith doubleToJson) b.doubles
  stmts : ∀ {j ss}, readStmts number depth j = some ss →
    Within depth (.arr (stmtsToJson doubleToJson ss)) (stmtsDoubles ss)

namespace Rewritable

variable {number : NumberReader} {depth : Nat} {id : NodeId} {tag : String} {j : Json}

theorem zero : Rewritable number 0 where
  expr h := by cases h
  exprKind h := by cases h
  compound h := by cases h
  exprs h := by cases h
  stmt h := by cases h
  stmtKind h := by cases h
  declaration h := by cases h
  block h := by cases h
  stmts h := by cases h

theorem expr_succ (ih : Rewritable number depth) {e : Expr}
    (h : readExpr number (depth + 1) j = some e) :
    Within (depth + 1) (e.toJsonWith doubleToJson) e.doubles := by
  rw [readExpr] at h
  obtain ⟨fields, -, h⟩ := Option.bind_eq_some_iff.mp h
  split at h
  · simp only [Option.bind_eq_bind, Option.bind_eq_some_iff] at h
    obtain ⟨_, -, _, -, h⟩ := h
    exact ih.exprKind h
  · cases h

theorem exprKind_succ (ih : Rewritable number depth) {e : Expr}
    (h : readExprKind number (depth + 1) id j = some e) :
    Within (depth + 2) (e.toJsonWith doubleToJson) e.doubles := by
  rw [readExprKind] at h
  obtain ⟨⟨tag, payload⟩, -, h⟩ := Option.bind_eq_some_iff.mp h
  dsimp only at h
  split at h
  · obtain ⟨n, -, heq⟩ := Option.bind_eq_some_iff.mp h
    cases heq
    exact ⟨nesting_tagged_le (Nat.zero_le _), by simp [Expr.doubles]⟩
  · obtain ⟨x, hx, heq⟩ := Option.bind_eq_some_iff.mp h
    cases heq
    refine ⟨nesting_tagged_le ?_, ?_⟩
    · rw [nesting_doubleToJson]
      exact Nat.zero_le _
    · simpa [Expr.doubles] using isFinite_of_readDouble hx
  · obtain ⟨s, -, heq⟩ := Option.bind_eq_some_iff.mp h
    cases heq
    exact ⟨nesting_tagged_le (Nat.zero_le _), by simp [Expr.doubles]⟩
  · obtain ⟨s, -, heq⟩ := Option.bind_eq_some_iff.mp h
    cases heq
    exact ⟨nesting_tagged_le (Nat.zero_le _), by simp [Expr.doubles]⟩
  · obtain ⟨b, hb, heq⟩ := Option.bind_eq_some_iff.mp h
    cases heq
    exact ⟨nesting_tagged_le (ih.block hb).nesting, (ih.block hb).finite⟩
  · exact ih.compound h

theorem compound_succ (ih : Rewritable number depth) {e : Expr}
    (h : readCompound number (depth + 1) id tag j = some e) :
    Within (depth + 3) (e.toJsonWith doubleToJson) e.doubles := by
  unfold readCompound at h
  split at h
  · -- a call
    obtain ⟨fields, -, h⟩ := Option.bind_eq_some_iff.mp h
    split at h
    · simp only [Option.bind_eq_bind, Option.bind_eq_some_iff] at h
      obtain ⟨_, -, callee, -, _, -, args, hargs, heq⟩ := h
      cases heq
      refine ⟨nesting_compound_le ?_, (ih.exprs hargs).finite⟩
      simpa using ⟨Nat.zero_le _, (ih.exprs hargs).nesting⟩
    · cases h
  · -- a binary operator
    obtain ⟨fields, -, h⟩ := Option.bind_eq_some_iff.mp h
    split at h
    · simp only [Option.bind_eq_bind, Option.bind_eq_some_iff] at h
      obtain ⟨_, -, op, -, _, -, left, hleft, _, -, right, hright, heq⟩ := h
      cases heq
      refine ⟨nesting_compound_le ?_, ?_⟩
      · simpa using ⟨Nat.zero_le _, (ih.expr hleft).nesting, (ih.expr hright).nesting⟩
      · exact List.forall_mem_append.mpr ⟨(ih.expr hleft).finite, (ih.expr hright).finite⟩
    · cases h
  · -- an assignment
    obtain ⟨fields, -, h⟩ := Option.bind_eq_some_iff.mp h
    split at h
    · simp only [Option.bind_eq_bind, Option.bind_eq_some_iff] at h
      obtain ⟨_, -, target, -, _, -, value, hvalue, heq⟩ := h
      cases heq
      refine ⟨nesting_compound_le ?_, (ih.expr hvalue).finite⟩
      simpa using ⟨Nat.zero_le _, (ih.expr hvalue).nesting⟩
    · cases h
  · -- a conditional
    obtain ⟨fields, -, h⟩ := Option.bind_eq_some_iff.mp h
    split at h
    · simp only [Option.bind_eq_bind, Option.bind_eq_some_iff] at h
      obtain ⟨_, -, cond, hcond, _, -, thenBlock, hthen, _, -, elseBlock, helse, heq⟩ := h
      cases heq
      refine ⟨nesting_compound_le ?_, ?_⟩
      · simpa using ⟨(ih.expr hcond).nesting, (ih.block hthen).nesting, (ih.block helse).nesting⟩
      · simp only [Expr.doubles, List.forall_mem_append]
        exact ⟨⟨(ih.expr hcond).finite, (ih.block hthen).finite⟩, (ih.block helse).finite⟩
    · cases h
  · -- a loop
    obtain ⟨fields, -, h⟩ := Option.bind_eq_some_iff.mp h
    split at h
    · simp only [Option.bind_eq_bind, Option.bind_eq_some_iff] at h
      obtain ⟨_, -, start, hstart, _, -, limit, hlimit, _, -, body, hbody, heq⟩ := h
      cases heq
      refine ⟨nesting_compound_le ?_, ?_⟩
      · simpa using ⟨(ih.expr hstart).nesting, (ih.expr hlimit).nesting, (ih.block hbody).nesting⟩
      · simp only [Expr.doubles, List.forall_mem_append]
        exact ⟨⟨(ih.expr hstart).finite, (ih.expr hlimit).finite⟩, (ih.block hbody).finite⟩
    · cases h
  · cases h

theorem exprs_succ (ih : Rewritable number depth) {es : List Expr}
    (h : readExprs number (depth + 1) j = some es) :
    Within (depth + 1) (.arr (exprsToJson doubleToJson es)) (exprsDoubles es) := by
  cases j with
  | arr items =>
    rw [exprsToJson_eq_map, exprsDoubles_eq_flatMap]
    exact .arr (forall_of_mapM (fun _ _ => ih.expr) h)
  | _ => cases h

theorem stmts_succ (ih : Rewritable number depth) {ss : List Stmt}
    (h : readStmts number (depth + 1) j = some ss) :
    Within (depth + 1) (.arr (stmtsToJson doubleToJson ss)) (stmtsDoubles ss) := by
  cases j with
  | arr items =>
    rw [stmtsToJson_eq_map, stmtsDoubles_eq_flatMap]
    exact .arr (forall_of_mapM (fun _ _ => ih.stmt) h)
  | _ => cases h

theorem stmt_succ (ih : Rewritable number depth) {s : Stmt}
    (h : readStmt number (depth + 1) j = some s) :
    Within (depth + 1) (s.toJsonWith doubleToJson) s.doubles := by
  rw [readStmt] at h
  obtain ⟨fields, -, h⟩ := Option.bind_eq_some_iff.mp h
  split at h
  · simp only [Option.bind_eq_bind, Option.bind_eq_some_iff] at h
    obtain ⟨_, -, _, -, h⟩ := h
    exact ih.stmtKind h
  · cases h

/-- An optional expression was read as one, if it is there. -/
theorem of_readOrNull {read : Json → Option Expr} {e : Expr}
    (h : readOrNull read j = some (some e)) :
    read j = some e := by
  unfold readOrNull at h
  split at h
  · cases h
  · simpa using h

theorem stmtKind_succ (ih : Rewritable number depth) {s : Stmt}
    (h : readStmtKind number (depth + 1) id j = some s) :
    Within (depth + 2) (s.toJsonWith doubleToJson) s.doubles := by
  rw [readStmtKind] at h
  obtain ⟨⟨tag, payload⟩, -, h⟩ := Option.bind_eq_some_iff.mp h
  dsimp only at h
  split at h
  · obtain ⟨e, he, heq⟩ := Option.bind_eq_some_iff.mp h
    cases heq
    exact ⟨nesting_tagged_le (ih.expr he).nesting, (ih.expr he).finite⟩
  · obtain ⟨value, hvalue, heq⟩ := Option.bind_eq_some_iff.mp h
    cases heq
    cases value with
    | none => exact ⟨nesting_tagged_le (Nat.zero_le _), by simp [Stmt.doubles]⟩
    | some e =>
      have he := ih.expr (of_readOrNull hvalue)
      exact ⟨nesting_tagged_le he.nesting, he.finite⟩
  · obtain ⟨b, hb, heq⟩ := Option.bind_eq_some_iff.mp h
    cases heq
    exact ⟨nesting_tagged_le (ih.block hb).nesting, (ih.block hb).finite⟩
  · exact ih.declaration h

/-- A list of parameters takes no more levels than a block. -/
theorem nesting_params (params : List Param) :
    (Json.arr (params.map Param.toJson)).nesting ≤ 2 := by
  refine Nat.succ_le_succ (Json.itemsNesting_le_iff.mpr fun j hj => ?_)
  obtain ⟨p, -, rfl⟩ := List.mem_map.mp hj
  exact Nat.le_refl 1

theorem nesting_textOrNull (s : Option String) : (Json.textOrNull s).nesting = 0 := by
  cases s <;> rfl

theorem declaration_succ (ih : Rewritable number depth) {s : Stmt}
    (h : readDeclaration number (depth + 1) id tag j = some s) :
    Within (depth + 3) (s.toJsonWith doubleToJson) s.doubles := by
  unfold readDeclaration at h
  split at h
  · -- a variable
    obtain ⟨fields, -, h⟩ := Option.bind_eq_some_iff.mp h
    split at h
    · simp only [Option.bind_eq_bind, Option.bind_eq_some_iff] at h
      obtain ⟨_, -, ty, -, _, -, name, -, init, hinit, heq⟩ := h
      cases heq
      cases init with
      | none =>
        refine ⟨nesting_compound_le ?_, by simp [Stmt.doubles]⟩
        simpa using ⟨Nat.zero_le _, Nat.zero_le _, Nat.zero_le _⟩
      | some e =>
        have he := ih.expr (of_readOrNull hinit)
        refine ⟨nesting_compound_le ?_, he.finite⟩
        simpa using ⟨Nat.zero_le _, Nat.zero_le _, he.nesting⟩
    · cases h
  · -- a function: its parameters may come from nothing, but its body takes two levels as well
    obtain ⟨fields, -, h⟩ := Option.bind_eq_some_iff.mp h
    split at h
    · simp only [Option.bind_eq_bind, Option.bind_eq_some_iff] at h
      obtain ⟨retTy, -, _, -, name, -, params, -, _, -, body, hbody, heq⟩ := h
      cases heq
      have hblock := ih.block hbody
      have hdeep := body.nesting_toJsonWith doubleToJson
      have hnesting := hblock.nesting
      refine ⟨nesting_compound_le ?_, hblock.finite⟩
      have hparams := nesting_params params
      simpa [nesting_textOrNull] using ⟨Nat.zero_le _, by omega, hnesting⟩
    · cases h
  · cases h

theorem block_succ (ih : Rewritable number depth) {b : Block}
    (h : readBlock number (depth + 1) j = some b) :
    Within (depth + 1) (b.toJsonWith doubleToJson) b.doubles := by
  rw [readBlock] at h
  obtain ⟨fields, -, h⟩ := Option.bind_eq_some_iff.mp h
  split at h
  · simp only [Option.bind_eq_bind, Option.bind_eq_some_iff] at h
    obtain ⟨id, -, _, -, stmts, hstmts, heq⟩ := h
    cases heq
    have hall := ih.stmts hstmts
    refine ⟨?_, hall.finite⟩
    have hnesting := hall.nesting
    rw [nesting] at hnesting
    rw [Block.nesting_toJsonWith, Block.stmts]
    omega
  · cases h

end Rewritable

theorem rewritable (number : NumberReader) (depth : Nat) : Rewritable number depth := by
  induction depth with
  | zero => exact .zero
  | succ depth ih =>
    exact ⟨ih.expr_succ, ih.exprKind_succ, ih.compound_succ, ih.exprs_succ, ih.stmt_succ,
      ih.stmtKind_succ, ih.declaration_succ, ih.block_succ, ih.stmts_succ⟩

/-- To the nearest double every number can be read that is not too large. -/
theorem readDouble_nearest (n : Json.Number) :
    readDouble nearest (.num n)
      = if n.toDecimal.toDouble.isInfinite then none else some n.toDecimal.toDouble := by
  rw [readDouble, nearest]
  cases hinfinite : n.toDecimal.toDouble.isInfinite with
  | false => simp [Decimal.isFinite_toDouble hinfinite]
  | true =>
    have hfinite : n.toDecimal.toDouble.isFinite = false := by
      unfold Double.isInfinite at hinfinite
      unfold Double.isFinite
      split at hinfinite <;> simp_all
    simp [hfinite]

/-! ### Written and read -/

/-- The decimal that a double is written as is read as that double, when it stands alone in a
document. -/
def ReadsBack (number : NumberReader) (x : Double) : Prop :=
  (Json.ofString? (doubleToJson x).render).bind (readDouble number) = some x

instance (number : NumberReader) (x : Double) : Decidable (ReadsBack number x) :=
  inferInstanceAs (Decidable (_ = _))

/-- A double as its own text has it. -/
def rereadDouble (x : Double) : Json :=
  (Json.ofString? (doubleToJson x).render).getD .null

theorem reads_rereadDouble {x : Double} (hx : x.isFinite = true) :
    Reads (doubleToJson x) (rereadDouble x) := by
  unfold rereadDouble
  cases hvalue : x.value with
  | finite negative mantissa exponent =>
    obtain ⟨n, hn⟩ := Json.readNumber_decimal (Decimal.shortest negative mantissa exponent)
    have hreads : Reads (doubleToJson x) (.num n) := by
      simp only [doubleToJson, hvalue]
      exact .num hn
    rw [hreads.ofString?]
    exact hreads
  | _ => simp [Double.isFinite, hvalue] at hx

theorem readDouble_rereadDouble {number : NumberReader} {x : Double} (hx : ReadsBack number x) :
    readDouble number (rereadDouble x) = some x := by
  obtain ⟨j, hj, hread⟩ := Option.bind_eq_some_iff.mp hx
  rw [rereadDouble, hj]
  exact hread

theorem Block.ofString?_render {number : NumberReader} {b : Block}
    (hfinite : ∀ x ∈ b.doubles, x.isFinite = true) (hnesting : b.toJson.nesting ≤ nestingLimit)
    (hback : ∀ x ∈ b.doubles, ReadsBack number x) :
    Block.ofString? number b.render = some b := by
  have htext : Json.ofString? b.render = some (b.toJsonWith rereadDouble) :=
    (b.reads fun x hx => reads_rereadDouble (hfinite x hx)).ofString?
  have htree : Block.ofJson? number (b.toJsonWith rereadDouble) = some b :=
    b.read nestingLimit hnesting fun x hx => readDouble_rereadDouble (hback x hx)
  rw [Block.ofString?, htext]
  exact htree

/-- A program that was read from a text can be written down. -/
theorem Block.within_of_ofString? {number : NumberReader} {b : Block} {s : String}
    (h : Block.ofString? number s = some b) :
    Within nestingLimit b.toJson b.doubles := by
  obtain ⟨j, -, hj⟩ := Option.bind_eq_some_iff.mp h
  exact (rewritable number nestingLimit).block hj

/-- Take any way to read numbers.  A program whose numbers are finite and whose document does not
nest too deep is read back from its text, provided the decimal of each of its numbers is.  Every
program that was read from some text is one of these: however that text was written, the program's
own text is accepted again and holds the same program. -/
theorem Block.text_roundTrip (number : NumberReader) (b : Block) :
    ((∀ x ∈ b.doubles, x.isFinite = true) → b.toJson.nesting ≤ nestingLimit →
      (∀ x ∈ b.doubles, x.isFinite = true → ReadsBack number x) →
        Block.ofString? number b.render = some b) ∧
    ∀ s, Block.ofString? number s = some b →
      b.toJson.nesting ≤ nestingLimit ∧ (∀ x ∈ b.doubles, x.isFinite = true) ∧
      ((∀ x ∈ b.doubles, x.isFinite = true → ReadsBack number x) →
        Block.ofString? number b.render = some b) := by
  refine ⟨fun hfinite hnesting hback => ?_, fun s hs => ?_⟩
  · exact Block.ofString?_render hfinite hnesting fun x hx => hback x hx (hfinite x hx)
  · obtain ⟨hnesting, hfinite⟩ := Block.within_of_ofString? hs
    refine ⟨hnesting, hfinite, fun hback => ?_⟩
    exact Block.ofString?_render hfinite hnesting fun x hx => hback x hx (hfinite x hx)

/-- A program with two numbers, a variable that is not set and a function without parameters. -/
def spelledOut : Block :=
  .mk 0 [.expr 3 (.binary 0 .add (.double 0 ⟨0x3FB999999999999A⟩) (.double 5 ⟨0x8000000000000000⟩)),
    .var 0 "int" "\"a\"\n" none, .fn 0 none "f" [] (.mk 2 [])]

/-- The same program with fields left out, listed by position or not known, and an operator in its
long form. -/
def abbreviated : Json :=
  .object [("stmts", .arr [
    .arr [.nat 3, tagged "Expr" (.object [("span", .arr [.nat 1, .nat 2]),
      ("kind", tagged "Binary" (.arr [
        tagged "Add" .null,
        .object [("kind", tagged "Double" (.num (.decimal ⟨false, 1, -1⟩)))],
        .arr [.nat 5, tagged "Double" (.num (.decimal ⟨true, 0, 0⟩))]]))])],
    .object [("kind", tagged "Var" (.arr [.text "int", .text "\"a\"\n"]))],
    .object [("kind",
      tagged "Fn" (.object [("body", .arr [.nat 2, .arr []]), ("name", .text "f")]))]])]

theorem Block.text_roundTrip_abbreviated :
    Block.ofString? nearest abbreviated.render = some spelledOut ∧
      Block.ofString? nearest spelledOut.render = some spelledOut := by
  have hback : ∀ x ∈ spelledOut.doubles, x.isFinite = true → ReadsBack nearest x := by
    decide +kernel
  have hsame := (Block.text_roundTrip nearest spelledOut).1 (by decide) (by decide) hback
  have htext : Block.ofString? nearest abbreviated.render
      = (Json.ofChars? abbreviated.compact).bind (Block.ofJson? nearest) := by
    rw [Block.ofString?, Json.ofString?, Json.render, String.toList_ofList]
    rfl
  have hread : ((Json.ofChars? abbreviated.compact).bind (Block.ofJson? nearest)).map
      (fun b => (b.toJson.compact, b.doubles)) =
      some (spelledOut.toJson.compact, spelledOut.doubles) := by
    decide +kernel
  obtain ⟨b, hb, heq⟩ := Option.map_eq_some_iff.mp hread
  obtain ⟨hcompact, hdoubles⟩ := Prod.mk.inj heq
  rw [← htext] at hb
  rw [← hdoubles] at hback
  -- whatever was read has the text of the program spelled out, and that text holds only one program
  have hagain := ((Block.text_roundTrip nearest b).2 _ hb).2.2 hback
  rw [show b.render = spelledOut.render from congrArg String.ofList hcompact, hsame] at hagain
  exact ⟨hb.trans hagain.symm, hsame⟩

end Program

end TreeCompiler
