/-
Trees that are put together from numbered parts.

Items are built by calls, one after the other and in any order.  A call takes the next number for
what it makes, and its children are items that earlier calls have made.  Nothing else is known of
the order: parts of different trees can be made in turns, and an item can wait for any number of
calls until it becomes a child of another.

What a call does to the numbers does not depend on the sort of node that it makes: the new item is a
node with a new number over the trees of its children (`perform?_idTree`).  So numbers are looked at
in trees that have nothing but them, and the invariant is one about all items at once.  The items
that are not yet children of another have no number in common (`Orderly`), and as long as no item
becomes a child twice, this stays so.
-/
import Mathlib.Data.List.Nodup
import TreeCompiler.Program.Numbering

namespace TreeCompiler.Program

/-! ### Trees of numbers -/

/-- A tree that has nothing but the numbers of its nodes. -/
inductive IdTree where
  | node (id : NodeId) (children : List IdTree)

namespace IdTree

/-- The number of the topmost node. -/
def root : IdTree → NodeId
  | node id _ => id

mutual

/-- The numbers of a tree, each node before its children. -/
def ids : IdTree → List NodeId
  | node id children => id :: idsOf children

def idsOf : List IdTree → List NodeId
  | [] => []
  | t :: ts => t.ids ++ idsOf ts

end

/-- The numbers below the topmost node. -/
def belowRoot : IdTree → List NodeId
  | node _ children => idsOf children

/-- One tree is the part of another that hangs at some node of it. -/
inductive Within : IdTree → IdTree → Prop
  | self (t : IdTree) : Within t t
  | child {id : NodeId} {children : List IdTree} {t u : IdTree} (ht : t ∈ children)
      (hu : Within u t) :
      Within u (node id children)

/-- No two nodes have the same number, and each node has a greater number than all nodes below
it. -/
structure WellNumbered (t : IdTree) : Prop where
  distinct : t.ids.Nodup
  greater : ∀ u : IdTree, u.Within t → ∀ n ∈ u.belowRoot, n < u.root

theorem idsOf_eq_flatMap (ts : List IdTree) : idsOf ts = ts.flatMap ids := by
  induction ts with
  | nil => rfl
  | cons t ts ih => rw [idsOf, ih, List.flatMap_cons]

theorem ids_eq (t : IdTree) : t.ids = t.root :: t.belowRoot := by
  cases t
  rw [ids, root, belowRoot]

/-- The numbers of a good tree are those up to the number of its topmost node. -/
theorem WellNumbered.le_root {t : IdTree} (h : t.WellNumbered) {n : NodeId} (hn : n ∈ t.ids) :
    n ≤ t.root := by
  rw [ids_eq] at hn
  rcases List.mem_cons.mp hn with rfl | hbelow
  · exact UInt32.le_refl _
  · exact UInt32.le_of_lt (h.greater t (.self t) n hbelow)

/-- A new number on top of good trees that have no number in common. -/
theorem WellNumbered.node {id : NodeId} {children : List IdTree}
    (hchildren : ∀ t ∈ children, t.WellNumbered) (hdistinct : (children.flatMap ids).Nodup)
    (hid : ∀ n ∈ children.flatMap ids, n < id) :
    (IdTree.node id children).WellNumbered := by
  rw [← idsOf_eq_flatMap] at hdistinct hid
  refine ⟨?_, ?_⟩
  · rw [ids]
    refine List.nodup_cons.mpr ⟨fun hmem => ?_, hdistinct⟩
    exact UInt32.lt_irrefl _ (hid id hmem)
  · intro u hu n hn
    cases hu with
    | self => exact hid n hn
    | child ht hu => exact (hchildren _ ht).greater u hu n hn

end IdTree

/-! ### The numbers of a program -/

def Param.idTree (p : Param) : IdTree := .node p.id []

mutual

def Expr.idTree : Expr → IdTree
  | .int id _ | .double id _ | .string id _ | .ident id _ => .node id []
  | .call id _ args => .node id (idTreesOfExprs args)
  | .binary id _ left right => .node id [left.idTree, right.idTree]
  | .assign id _ value => .node id [value.idTree]
  | .ifElse id cond thenBlock elseBlock =>
    .node id [cond.idTree, thenBlock.idTree, elseBlock.idTree]
  | .loop id start limit body => .node id [start.idTree, limit.idTree, body.idTree]
  | .block id body => .node id [body.idTree]

def idTreesOfExprs : List Expr → List IdTree
  | [] => []
  | e :: es => e.idTree :: idTreesOfExprs es

def Stmt.idTree : Stmt → IdTree
  | .expr id value => .node id [value.idTree]
  | .ret id none => .node id []
  | .ret id (some value) => .node id [value.idTree]
  | .var id _ _ none => .node id []
  | .var id _ _ (some init) => .node id [init.idTree]
  | .fn id _ _ params body => .node id (params.map Param.idTree ++ [body.idTree])
  | .block id body => .node id [body.idTree]

def Block.idTree : Block → IdTree
  | .mk id stmts => .node id (idTreesOfStmts stmts)

def idTreesOfStmts : List Stmt → List IdTree
  | [] => []
  | s :: ss => s.idTree :: idTreesOfStmts ss

end

theorem idTreesOfExprs_eq_map (es : List Expr) : idTreesOfExprs es = es.map Expr.idTree := by
  induction es with
  | nil => rfl
  | cons e es ih => rw [idTreesOfExprs, ih, List.map_cons]

theorem idTreesOfStmts_eq_map (ss : List Stmt) : idTreesOfStmts ss = ss.map Stmt.idTree := by
  induction ss with
  | nil => rfl
  | cons s ss ih => rw [idTreesOfStmts, ih, List.map_cons]

/-! ### Building by calls -/

/-- The sorts of items.  A number can also be taken for nothing. -/
inductive ItemSort where
  | number | expr | stmt | block | param
  deriving DecidableEq

namespace ItemSort

/-- The nodes of a sort. -/
abbrev Node : ItemSort → Type
  | number => NodeId
  | expr => Expr
  | stmt => Stmt
  | block => Block
  | param => Param

def idTree : (sort : ItemSort) → sort.Node → IdTree
  | number, id => .node id []
  | expr, e => Expr.idTree e
  | stmt, s => Stmt.idTree s
  | block, b => Block.idTree b
  | param, p => Param.idTree p

end ItemSort

/-- What a call has made. -/
structure Item where
  sort : ItemSort
  node : sort.Node

namespace Item

def idTree (item : Item) : IdTree := item.sort.idTree item.node

/-- The node of an item, if it is of the sort that is needed. -/
def as? (sort : ItemSort) (item : Item) : Option sort.Node :=
  if h : item.sort = sort then some (h ▸ item.node) else none

theorem as?_eq_some {sort : ItemSort} {item : Item} {a : sort.Node} (h : item.as? sort = some a) :
    item = ⟨sort, a⟩ := by
  obtain ⟨sort', node⟩ := item
  unfold as? at h
  split at h
  · rename_i hsort
    subst hsort
    cases h
    rfl
  · cases h

end Item

/-- A call.  Its children are named by the positions of the calls that made them. -/
inductive Call where
  | nextId
  | int (value : Int64)
  | double (value : Double)
  | string (raw : String)
  | ident (name : String)
  | call (callee : String) (args : List Nat)
  | binary (op : BinOp) (left right : Nat)
  | assign (target : String) (value : Nat)
  | ifElse (cond thenBlock elseBlock : Nat)
  | countingLoop (start limit body : Nat)
  | block (stmts : List Nat)
  | exprStmt (value : Nat)
  | ret (value : Nat)
  | retVoid
  | var (ty name : String) (init : Nat)
  | varUninit (ty name : String)
  | param (ty name : String)
  | func (retTy : Option String) (name : String) (params : List Nat) (body : Nat)
  | nested (body : Nat)

namespace Call

/-- The items that a call takes as children. -/
def children : Call → List Nat
  | nextId | int _ | double _ | string _ | ident _ | retVoid | varUninit _ _ | param _ _ => []
  | call _ args => args
  | binary _ left right => [left, right]
  | assign _ value => [value]
  | ifElse cond thenBlock elseBlock => [cond, thenBlock, elseBlock]
  | countingLoop start limit body => [start, limit, body]
  | block stmts => stmts
  | exprStmt value => [value]
  | ret value => [value]
  | var _ _ init => [init]
  | func _ _ params body => params ++ [body]
  | nested body => [body]

/-- The node at a position, if there is one of the sort that is needed. -/
def child (items : List Item) (sort : ItemSort) (i : Nat) : Option sort.Node :=
  items[i]?.bind (Item.as? sort)

/-- Take a number for a node and have it as an item. -/
def make (sort : ItemSort) (node : Numbered sort.Node) : Numbered Item := Item.mk sort <$> node

/-- What a call does when these items have been made.  There is no such call if a child is missing
or is not of the sort that is needed. -/
def perform? (items : List Item) : Call → Option (Numbered Item)
  | nextId => some (make .number Numbered.nextId)
  | int value => some (make .expr (Numbered.int value))
  | double value => some (make .expr (Numbered.double value))
  | string raw => some (make .expr (Numbered.string raw))
  | ident name => some (make .expr (Numbered.ident name))
  | call callee args =>
    do return make .expr (Numbered.call callee (← args.mapM (child items .expr)))
  | binary op left right => do
    return make .expr (Numbered.binary op (← child items .expr left) (← child items .expr right))
  | assign target value => do return make .expr (Numbered.assign target (← child items .expr value))
  | ifElse cond thenBlock elseBlock => do
    return make .expr (Numbered.ifElse (← child items .expr cond) (← child items .block thenBlock)
      (← child items .block elseBlock))
  | countingLoop start limit body => do
    return make .expr (Numbered.countingLoop (← child items .expr start) (← child items .expr limit)
      (← child items .block body))
  | block stmts => do return make .block (Numbered.block (← stmts.mapM (child items .stmt)))
  | exprStmt value => do return make .stmt (Numbered.exprStmt (← child items .expr value))
  | ret value => do return make .stmt (Numbered.ret (← child items .expr value))
  | retVoid => some (make .stmt Numbered.retVoid)
  | var ty name init => do return make .stmt (Numbered.var ty name (← child items .expr init))
  | varUninit ty name => some (make .stmt (Numbered.varUninit ty name))
  | param ty name => some (make .param (Numbered.param ty name))
  | func retTy name params body => do
    return make .stmt (Numbered.func retTy name (← params.mapM (child items .param))
      (← child items .block body))
  | nested body => do return make .stmt (Numbered.nested (← child items .block body))

variable {items : List Item} {sort : ItemSort}

theorem child_eq_some {i : Nat} {a : sort.Node} (h : child items sort i = some a) :
    items[i]? = some ⟨sort, a⟩ := by
  obtain ⟨item, hitem, ha⟩ := Option.bind_eq_some_iff.mp h
  rw [hitem, Item.as?_eq_some ha]

theorem mapM_child_eq_some {is : List Nat} {as : List sort.Node}
    (h : is.mapM (child items sort) = some as) :
    is.map (items[·]?) = (as.map (Item.mk sort)).map some := by
  induction is generalizing as with
  | nil =>
    cases h
    rfl
  | cons i is ih =>
    rw [List.mapM_cons] at h
    obtain ⟨a, ha, h⟩ := Option.bind_eq_some_iff.mp h
    obtain ⟨rest, hrest, hcons⟩ := Option.bind_eq_some_iff.mp h
    cases hcons
    rw [List.map_cons, ih hrest, child_eq_some ha]
    rfl

/-- **A call puts a new number on top of its children.** -/
theorem perform?_idTree {c : Call} {step : Numbered Item} (h : c.perform? items = some step)
    (n : NodeId) :
    ∃ kids : List Item, c.children.map (items[·]?) = kids.map some ∧
      (step.run n).1.idTree = .node n (kids.map Item.idTree) ∧ (step.run n).2 = n + 1 := by
  cases c with
  | nextId | int | double | string | ident | retVoid | varUninit | param =>
    cases h
    exact ⟨[], rfl, rfl, rfl⟩
  | assign | exprStmt | ret | var =>
    obtain ⟨e, he, hstep⟩ := Option.bind_eq_some_iff.mp h
    cases hstep
    exact ⟨[⟨.expr, e⟩], by simp [children, child_eq_some he], rfl, rfl⟩
  | nested body =>
    obtain ⟨b, hb, hstep⟩ := Option.bind_eq_some_iff.mp h
    cases hstep
    exact ⟨[⟨.block, b⟩], by simp [children, child_eq_some hb], rfl, rfl⟩
  | binary op left right =>
    obtain ⟨l, hl, h⟩ := Option.bind_eq_some_iff.mp h
    obtain ⟨r, hr, hstep⟩ := Option.bind_eq_some_iff.mp h
    cases hstep
    exact ⟨[⟨.expr, l⟩, ⟨.expr, r⟩], by simp [children, child_eq_some hl, child_eq_some hr], rfl,
      rfl⟩
  | ifElse cond thenBlock elseBlock =>
    obtain ⟨c, hc, h⟩ := Option.bind_eq_some_iff.mp h
    obtain ⟨t, ht, h⟩ := Option.bind_eq_some_iff.mp h
    obtain ⟨e, he, hstep⟩ := Option.bind_eq_some_iff.mp h
    cases hstep
    refine ⟨[⟨.expr, c⟩, ⟨.block, t⟩, ⟨.block, e⟩], ?_, rfl, rfl⟩
    simp [children, child_eq_some hc, child_eq_some ht, child_eq_some he]
  | countingLoop start limit body =>
    obtain ⟨s, hs, h⟩ := Option.bind_eq_some_iff.mp h
    obtain ⟨l, hl, h⟩ := Option.bind_eq_some_iff.mp h
    obtain ⟨b, hb, hstep⟩ := Option.bind_eq_some_iff.mp h
    cases hstep
    refine ⟨[⟨.expr, s⟩, ⟨.expr, l⟩, ⟨.block, b⟩], ?_, rfl, rfl⟩
    simp [children, child_eq_some hs, child_eq_some hl, child_eq_some hb]
  | call callee args =>
    obtain ⟨es, hes, hstep⟩ := Option.bind_eq_some_iff.mp h
    cases hstep
    refine ⟨es.map (Item.mk .expr), mapM_child_eq_some hes, ?_, rfl⟩
    show IdTree.node n (idTreesOfExprs es) = _
    rw [idTreesOfExprs_eq_map, List.map_map]
    rfl
  | block stmts =>
    obtain ⟨ss, hss, hstep⟩ := Option.bind_eq_some_iff.mp h
    cases hstep
    refine ⟨ss.map (Item.mk .stmt), mapM_child_eq_some hss, ?_, rfl⟩
    show IdTree.node n (idTreesOfStmts ss) = _
    rw [idTreesOfStmts_eq_map, List.map_map]
    rfl
  | func retTy name params body =>
    obtain ⟨ps, hps, h⟩ := Option.bind_eq_some_iff.mp h
    obtain ⟨b, hb, hstep⟩ := Option.bind_eq_some_iff.mp h
    cases hstep
    refine ⟨ps.map (Item.mk .param) ++ [⟨.block, b⟩], ?_, ?_, rfl⟩
    · rw [children, List.map_append, List.map_append, mapM_child_eq_some hps]
      simp [child_eq_some hb]
    · show IdTree.node n (ps.map Param.idTree ++ [Block.idTree b]) = _
      rw [List.map_append, List.map_map]
      rfl

end Call

/-! ### What holds after any calls -/

/-- The items that have been made, in order, and the next number. -/
structure Workshop where
  items : List Item := []
  next : NodeId := 0

namespace Workshop

/-- Make one more item. -/
def step? (w : Workshop) (c : Call) : Option Workshop :=
  (c.perform? w.items).map fun step => ⟨w.items ++ [(step.run w.next).1], (step.run w.next).2⟩

/-- Make items one after the other. -/
def run? (w : Workshop) : List Call → Option Workshop
  | [] => some w
  | c :: calls => (w.step? c).bind (·.run? calls)

/-- The numbers of the items are good, each item has the number of its position on top, and those
that are not among the used ones have no number in common. -/
structure Orderly (used : List Nat) (w : Workshop) : Prop where
  next : w.next.toNat = w.items.length
  root : ∀ {i : Nat} {item : Item}, w.items[i]? = some item → item.idTree.root.toNat = i
  wellNumbered : ∀ {item : Item}, item ∈ w.items → item.idTree.WellNumbered
  apart : ∀ {i j : Nat} {a b : Item}, i ≠ j → i ∉ used → j ∉ used → w.items[i]? = some a →
    w.items[j]? = some b →
    List.Disjoint a.idTree.ids b.idTree.ids

namespace Orderly

variable {used : List Nat} {w : Workshop}

theorem start : Orderly [] {} where
  next := rfl
  root h := by simp at h
  wellNumbered h := by simp at h
  apart _ _ _ h := by simp at h

/-- Numbers of items are numbers that have been handed out. -/
theorem lt_next (h : Orderly used w) {item : Item} (hitem : item ∈ w.items) {n : NodeId}
    (hn : n ∈ item.idTree.ids) :
    n < w.next := by
  obtain ⟨i, hi⟩ := List.mem_iff_getElem?.mp hitem
  have hroot := h.root hi
  have hle : n.toNat ≤ item.idTree.root.toNat := (h.wellNumbered hitem).le_root hn
  have hlt : i < w.items.length := (List.getElem?_eq_some_iff.mp hi).1
  have hnext := h.next
  show n.toNat < w.next.toNat
  omega

theorem exists_of_mem_kids {is : List Nat} {kids : List Item}
    (hkids : is.map (w.items[·]?) = kids.map some) {kid : Item} (hmem : kid ∈ kids) :
    ∃ i ∈ is, w.items[i]? = some kid := by
  have hsome : some kid ∈ is.map (w.items[·]?) := hkids ▸ List.mem_map_of_mem hmem
  exact List.mem_map.mp hsome

/-- Items that are not used have no number in common, however many of them are put together. -/
theorem nodup_children (h : Orderly used w) {is : List Nat} {kids : List Item}
    (hkids : is.map (w.items[·]?) = kids.map some) (honce : is.Nodup)
    (hunused : ∀ i ∈ is, i ∉ used) :
    (kids.flatMap (·.idTree.ids)).Nodup := by
  induction is generalizing kids with
  | nil =>
    rw [List.map_eq_nil_iff.mp hkids.symm]
    exact List.nodup_nil
  | cons i is ih =>
    obtain ⟨kid, rest, rfl, hkid, hrest⟩ := List.map_eq_cons_iff.mp hkids.symm
    obtain ⟨hi, honce⟩ := List.nodup_cons.mp honce
    rw [List.flatMap_cons]
    have hfirst := (h.wellNumbered (List.mem_of_getElem? hkid.symm)).distinct
    have hothers := ih hrest.symm honce fun j hj => hunused j (List.mem_cons_of_mem _ hj)
    -- The first child has no number in common with any of the others, which stand at other
    -- positions.
    refine List.Nodup.append hfirst hothers fun n hn hother => ?_
    obtain ⟨kid', hmem, hn'⟩ := List.mem_flatMap.mp hother
    obtain ⟨j, hj, hkid'⟩ := exists_of_mem_kids hrest.symm hmem
    have hne : i ≠ j := fun heq => hi (heq ▸ hj)
    exact h.apart hne (hunused i List.mem_cons_self) (hunused j (List.mem_cons_of_mem _ hj))
      hkid.symm hkid' hn hn'

theorem getElem?_concat_cases {items : List Item} {new item : Item} {i : Nat}
    (h : (items ++ [new])[i]? = some item) :
    items[i]? = some item ∨ i = items.length ∧ item = new := by
  rcases Nat.lt_or_ge i items.length with hlt | hge
  · exact .inl (List.getElem?_append_left hlt ▸ h)
  · rw [List.getElem?_append_right hge] at h
    obtain ⟨hzero, rfl⟩ : i - items.length = 0 ∧ new = item := by
      simpa [List.getElem?_singleton] using h
    exact .inr ⟨by omega, rfl⟩

section Add

variable (h : Orderly used w) {is : List Nat} {kids : List Item} {item : Item}
  (hkids : is.map (w.items[·]?) = kids.map some)
  (htree : item.idTree = .node w.next (kids.map Item.idTree))

include h hkids htree

theorem wellNumbered_new (honce : is.Nodup) (hunused : ∀ i ∈ is, i ∉ used) :
    item.idTree.WellNumbered := by
  have hkid : ∀ kid ∈ kids, kid ∈ w.items := by
    intro kid hmem
    obtain ⟨i, -, hi⟩ := exists_of_mem_kids hkids hmem
    exact List.mem_of_getElem? hi
  rw [htree]
  refine .node ?_ ?_ ?_
  · intro t ht
    obtain ⟨kid, hmem, rfl⟩ := List.mem_map.mp ht
    exact h.wellNumbered (hkid kid hmem)
  · rw [List.flatMap_map]
    exact h.nodup_children hkids honce hunused
  · intro n hn
    rw [List.flatMap_map] at hn
    obtain ⟨kid, hmem, hn⟩ := List.mem_flatMap.mp hn
    exact h.lt_next (hkid kid hmem) hn

/-- A new item shares numbers only with its children and with items that were used before. -/
theorem disjoint_new (hunused : ∀ i ∈ is, i ∉ used) {j : Nat} {other : Item} (hj : j ∉ used ++ is)
    (hother : w.items[j]? = some other) : List.Disjoint item.idTree.ids other.idTree.ids := by
  obtain ⟨hused, hchild⟩ : j ∉ used ∧ j ∉ is := by simpa using hj
  intro n hn hn'
  -- The number on top is new, and the numbers below are those of the children.
  rw [htree, IdTree.ids, IdTree.idsOf_eq_flatMap, List.flatMap_map] at hn
  rcases List.mem_cons.mp hn with rfl | hn
  · exact UInt32.lt_irrefl _ (h.lt_next (List.mem_of_getElem? hother) hn')
  · obtain ⟨kid, hmem, hn⟩ := List.mem_flatMap.mp hn
    obtain ⟨i, hi, hkid⟩ := exists_of_mem_kids hkids hmem
    have hne : i ≠ j := fun heq => hchild (heq ▸ hi)
    exact h.apart hne (hunused i hi) hused hkid hother hn hn'

/-- One more item whose children were not used before. -/
theorem add (honce : is.Nodup) (hunused : ∀ i ∈ is, i ∉ used)
    (hcount : w.items.length + 1 < UInt32.size) :
    Orderly (used ++ is) ⟨w.items ++ [item], w.next + 1⟩ where
  next := by
    have hnext := h.next
    show (w.next + 1).toNat = (w.items ++ [item]).length
    rw [UInt32.toNat_add, List.length_append, hnext]
    exact Nat.mod_eq_of_lt hcount
  root := by
    intro i new hi
    rcases getElem?_concat_cases hi with hold | ⟨rfl, rfl⟩
    · exact h.root hold
    · rw [htree]
      exact h.next
  wellNumbered := by
    intro new hmem
    rcases List.mem_append.mp hmem with hold | hnew
    · exact h.wellNumbered hold
    · rw [List.mem_singleton.mp hnew]
      exact h.wellNumbered_new hkids htree honce hunused
  apart := by
    intro i j a b hne hi hj ha hb
    rcases getElem?_concat_cases ha with hold | ⟨rfl, rfl⟩
    · rcases getElem?_concat_cases hb with hold' | ⟨rfl, rfl⟩
      · exact h.apart hne (fun hmem => hi (List.mem_append_left _ hmem))
          (fun hmem => hj (List.mem_append_left _ hmem)) hold hold'
      · exact List.disjoint_comm.mp (h.disjoint_new hkids htree hunused hi hold)
    · rcases getElem?_concat_cases hb with hold' | ⟨rfl, rfl⟩
      · exact h.disjoint_new hkids htree hunused hj hold'
      · exact absurd rfl hne

end Add

theorem step (h : Orderly used w) {c : Call} {w' : Workshop} (hstep : w.step? c = some w')
    (hcount : w.items.length + 1 < UInt32.size) (honce : c.children.Nodup)
    (hunused : ∀ i ∈ c.children, i ∉ used) :
    Orderly (used ++ c.children) w' := by
  obtain ⟨step, hperform, rfl⟩ := Option.map_eq_some_iff.mp hstep
  obtain ⟨kids, hkids, htree, hnext⟩ := Call.perform?_idTree hperform w.next
  rw [hnext]
  exact h.add hkids htree honce hunused hcount

end Orderly

/-- What holds of all items is kept by all calls, as long as there are numbers and no item becomes a
child twice. -/
theorem run?_orderly {used : List Nat} {w w' : Workshop} {calls : List Call} (h : Orderly used w)
    (hrun : w.run? calls = some w') (hcount : w.items.length + calls.length < UInt32.size)
    (honce : (used ++ calls.flatMap Call.children).Nodup) :
    Orderly (used ++ calls.flatMap Call.children) w' ∧
      w'.items.length = w.items.length + calls.length := by
  induction calls generalizing used w with
  | nil =>
    cases hrun
    simpa using h
  | cons c calls ih =>
    obtain ⟨u, hstep, hrest⟩ := Option.bind_eq_some_iff.mp hrun
    rw [List.flatMap_cons, ← List.append_assoc] at honce ⊢
    rw [List.length_cons] at hcount ⊢
    obtain ⟨-, hchildren, hunused⟩ := List.nodup_append.mp honce.of_append_left
    have hu : Orderly (used ++ c.children) u :=
      h.step hstep (by omega) hchildren fun i hi hmem => hunused i hmem i hi rfl
    have hlength : u.items.length = w.items.length + 1 := by
      obtain ⟨step, -, rfl⟩ := Option.map_eq_some_iff.mp hstep
      exact List.length_append
    obtain ⟨hlast, htotal⟩ := ih hu hrest (by omega) honce
    exact ⟨hlast, by omega⟩

/-- **Trees that are built by calls are numbered well.**  Start with nothing and make any calls, in
any order, whose children are there and of the right sorts.  If there are fewer than `2 ^ 32` calls
and no item becomes a child twice, then each call has taken one number, the next one, and in every
item that was made no two nodes have the same number and each node has a greater number than all
nodes below it. -/
theorem run?_wellNumbered {calls : List Call} {w : Workshop} (hrun : run? {} calls = some w)
    (hcount : calls.length < UInt32.size) (honce : (calls.flatMap Call.children).Nodup) :
    w.next.toNat = calls.length ∧ w.items.length = calls.length ∧
      ∀ (i : Nat) (item : Item), w.items[i]? = some item → item.idTree.root.toNat = i ∧
        item.idTree.WellNumbered := by
  obtain ⟨h, hlength⟩ := run?_orderly .start hrun (by simpa using hcount) (by simpa using honce)
  have hitems : w.items.length = calls.length := by simpa using hlength
  refine ⟨h.next.trans hitems, hitems, fun i item hi => ?_⟩
  exact ⟨h.root hi, h.wellNumbered (List.mem_of_getElem? hi)⟩

/-- The parts of a function and of a call that follows it are made in turns, and the parameter last
of all parts. -/
theorem run?_wellNumbered_inTurns :
    let calls : List Call := [.int 1, .string "\"a\"", .int 2, .binary .lt 0 2, .retVoid,
      .block [4], .nextId,
      .block [], .ifElse 3 5 7, .exprStmt 8, .block [9], .param "int" "x", .func none "f" [11] 10,
      .call "f" [1], .exprStmt 13, .block [12, 14]]
    ∃ w item, run? {} calls = some w ∧ (calls.flatMap Call.children).Nodup ∧
      w.items[15]? = some item ∧
      item.idTree.ids = [15, 12, 11, 10, 9, 8, 3, 0, 2, 5, 4, 7, 14, 13, 1] ∧
        item.idTree.WellNumbered := by
  intro calls
  have honce : (calls.flatMap Call.children).Nodup := by decide
  have hids : (run? {} calls).any (fun w => w.items[15]?.any fun item =>
      decide (item.idTree.ids = [15, 12, 11, 10, 9, 8, 3, 0, 2, 5, 4, 7, 14, 13, 1])) = true := by
    decide +kernel
  obtain ⟨w, hrun, hids⟩ := (Option.any_eq_true _ _).mp hids
  obtain ⟨item, hitem, hids⟩ := (Option.any_eq_true _ _).mp hids
  obtain ⟨-, -, hgood⟩ := run?_wellNumbered hrun (by decide) honce
  exact ⟨w, item, hrun, honce, hitem, of_decide_eq_true hids, (hgood 15 item hitem).2⟩

end Workshop

end TreeCompiler.Program
