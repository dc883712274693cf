/-
Where the loops of a program are in its module.

A loop is lowered to a jump, a block that holds the counter, the body, the next value, the bound and
the test, and a block after it.  `loops` lists the loops of a program in the order in which they are
lowered, and `lowerProgram_houses` says that each of them has a site of its own in the module, with
exactly the code that lowering its body and its bounds gave (`Hosts`).

What is lowered later cannot touch a site.  The block of a loop and the block after it are new when
the loop is lowered, and a region that is open then goes on to fill a block that was there before
(`Spares`).  Only the block that the jump stands in may get more instructions, behind the jump.
-/
import TreeCompiler.Proofs.IR.Ops
import TreeCompiler.Proofs.Lowering.Shape

namespace TreeCompiler.Program

/-- A counting loop. -/
structure Loop where
  start : Expr
  limit : Expr
  body : Block

mutual

/-- The loops in an expression.  A loop comes before those in its body. -/
def Expr.loops : Expr → List Loop
  | .int .. | .double .. | .string .. | .ident .. => []
  | .call _ _ args => argsLoops args
  | .binary _ _ left right => left.loops ++ right.loops
  | .assign _ _ value => value.loops
  | .ifElse _ cond thenBlock elseBlock => cond.loops ++ (thenBlock.loops ++ elseBlock.loops)
  | .loop _ start limit body => start.loops ++ { start, limit, body } :: (body.loops ++ limit.loops)
  | .block _ body => body.loops

def argsLoops : List Expr → List Loop
  | [] => []
  | arg :: args => arg.loops ++ argsLoops args

def Stmt.loops : Stmt → List Loop
  | .expr _ value => value.loops
  | .ret _ none => []
  | .ret _ (some value) => value.loops
  | .var _ _ _ none => []
  | .var _ _ _ (some init) => init.loops
  | .fn _ _ _ _ body => body.loops
  | .block _ body => body.loops

def Block.loops : Block → List Loop
  | .mk _ stmts => stmtsLoops stmts

def stmtsLoops : List Stmt → List Loop
  | [] => []
  | stmt :: stmts => stmt.loops ++ stmtsLoops stmts

end

end TreeCompiler.Program

namespace TreeCompiler.Lowering

open IR (FuncId BlockId InstId Ty Value Op)
open Program (Expr Stmt Block BinOp NodeId Param Loop argsLoops stmtsLoops)

variable {α : Type} {s t u : Lowerer} {c d : Cursor} {m m' m'' : IR.Module} {l : Loop}
  {ls ls' : List Loop}

/-! ### Blocks that are left alone -/

/-- The operations of a block. -/
def opsAt (m : IR.Module) (c : Cursor) : List (InstId × Op) := (m.function c.func).ops c.block

/-- From `m` to `m'` no block but the one at `c` changes, and there only phis and what comes
behind. -/
structure Spares (c : Cursor) (m m' : IR.Module) : Prop where
  has : ∀ {d}, Has m d → Has m' d
  others : ∀ {d}, Has m d → d ≠ c → opsAt m' d = opsAt m d
  here : ∀ {j : Nat} {k : InstId} {op : Op}, (opsAt m c)[j]? = some (k, op) → op.isPhi = false →
    (opsAt m' c)[j]? = some (k, op)

theorem CodeGrows.has {c : Option Cursor} (h : CodeGrows c m m') (hd : Has m d) : Has m' d := by
  refine ⟨Nat.lt_of_lt_of_le hd.1 h.functions, ?_⟩
  by_cases hc : ∃ e ∈ c, d.func = e.func
  · obtain ⟨e, he, heq⟩ := hc
    have hgrows := h.here e he (heq ▸ hd.1)
    rw [← heq] at hgrows
    exact Nat.lt_of_lt_of_le hd.2 hgrows.blocks
  · rw [h.others d.func hd.1 fun e he heq => hc ⟨e, he, heq⟩]
    exact hd.2

namespace Spares

theorem trans (h : Spares c m m') (h' : Spares c m' m'') : Spares c m m'' where
  has hd := h'.has (h.has hd)
  others hd hne := (h'.others (h.has hd) hne).trans (h.others hd hne)
  here hj hop := h'.here (h.here hj hop) hop

/-- What is added to a block that `m` does not have. -/
theorem inner (h : Spares c m m') (h' : Spares d m' m'') (hc : Has m c) (hd : ¬ Has m d) :
    Spares c m m'' where
  has he := h'.has (h.has he)
  others he hne := (h'.others (h.has he) fun heq => hd (heq ▸ he)).trans (h.others he hne)
  here hj hop := by
    rw [h'.others (h.has hc) fun heq => hd (heq ▸ hc)]
    exact h.here hj hop

/-- What is added at a cursor. -/
theorem ofGrows (hplaced : (m.function c.func).Placement) (hc : Has m c)
    (h : CodeGrows (some c) m m') :
    Spares c m m' := by
  have hgrows := h.here c rfl hc.1
  refine ⟨h.has, ?_, ?_⟩
  · intro d hd hne
    unfold opsAt
    by_cases hfunc : d.func = c.func
    · rw [hfunc]
      refine hgrows.ops_eq hplaced (hfunc ▸ hd.2) ?_
      intro hblock
      exact hne (Cursor.eq_of_func_block hfunc hblock)
    · rw [h.others d.func hd.1 (by simpa using hfunc)]
  · intro j k op hj _
    exact (List.prefix_iff_getElem?.mp (hgrows.ops_prefix hplaced c.block) j
      (List.getElem?_eq_some_iff.mp hj).1).trans ((List.getElem?_eq_getElem _).symm.trans hj)

theorem ofAdvances (hs : s.Sound) (hc : s.At c) (h : Advances s t) : Spares c s.code t.code :=
  have hhas := hs.valid.cursor hc
  .ofGrows (hs.laid hhas.1).placement hhas (hc.cursor? ▸ h.code)

end Spares

/-! ### Sites -/

/-- The place of a loop in a module. -/
structure LoopSite where
  func : FuncId
  /-- The block before the loop and the position of the jump in it. -/
  before : BlockId
  entry : Nat
  /-- The block of the loop. -/
  header : BlockId
  after : BlockId
  counter : InstId
  next : InstId
  test : InstId
  branch : InstId
  start : Value
  bound : Value
  /-- What the body of the loop and its bound have become. -/
  body : List (InstId × Op)
  bounding : List (InstId × Op)

namespace LoopSite

variable (site : LoopSite)

def outside : Cursor := ⟨site.func, site.before⟩

def inside : Cursor := ⟨site.func, site.header⟩

def beyond : Cursor := ⟨site.func, site.after⟩

/-- The next value of the counter, which is computed after the body. -/
def advancing : InstId × Op := (site.next, .arith .fadd (.inst site.counter) (.float .one))

/-- The operations of the block of a loop. -/
def code : List (InstId × Op) :=
  (site.counter, .phi [(site.start, site.before), (.inst site.next, site.header)]) :: (site.body ++
    site.advancing :: (site.bounding ++
      [(site.test, .fcmp .ole (.inst site.next) site.bound),
        (site.branch, .condBr (.inst site.test) site.header site.after)]))

/-- The code at a site is what lowering the parts of a loop gave. -/
inductive Renders (site : LoopSite) (l : Loop) : Prop
  | intro {s u t t' : Lowerer} {result : Option Value}
      (start : outcome (operand "loop start" (lowerExpr l.start)) s = (.ok site.start, u))
      (header : site.header = u.nextBlock site.outside)
      (counter : site.counter = u.counter site.outside)
      (body : outcome (lowerBlock l.body) (u.openLoop site.outside site.start) = (.ok result, t))
      (bodyOps : opsAt t.code site.inside
        = (site.counter, .phi [(site.start, site.before)]) :: site.body)
      (bound : outcome (operand "loop bound" (lowerExpr l.limit))
        (t.advance site.inside site.counter)
        = (.ok site.bound, t'))
      (boundOps : opsAt t'.code site.inside
        = opsAt (t.advance site.inside site.counter).code site.inside ++ site.bounding)

theorem operand_double {context : String} {id : NodeId} {x : Double} {v : Value}
    (h : outcome (operand context (lowerExpr (.double id x))) s = (.ok v, t)) :
    v = .float x ∧ t = s := by
  obtain ⟨v', u, hok, hload⟩ := operand_succeeds h
  obtain ⟨rfl, rfl⟩ : .float x = v' ∧ s = u := by simpa [lowerExpr] using hok
  obtain ⟨d, -, ⟨-, hv, ht⟩ | ⟨ty, hslot, -⟩⟩ := materialize_succeeds hload
  · exact ⟨hv, ht⟩
  · cases hslot

variable {site}

/-- A bound that is a number stands for itself. -/
theorem Renders.start_eq (h : site.Renders l) {id : NodeId} {x : Double}
    (hstart : l.start = .double id x) :
    site.start = .float x := by
  obtain ⟨start, -⟩ := h
  rw [hstart] at start
  exact (operand_double start).1

theorem Renders.bound_eq (h : site.Renders l) {id : NodeId} {x : Double}
    (hlimit : l.limit = .double id x) :
    site.bound = .float x ∧ site.bounding = [] := by
  obtain ⟨-, -, -, -, -, bound, boundOps⟩ := h
  rw [hlimit] at bound
  obtain ⟨hvalue, rfl⟩ := operand_double bound
  exact ⟨hvalue, List.self_eq_append_right.mp boundOps⟩

end LoopSite

/-- A site in a module has the code of a loop. -/
structure Hosts (m : IR.Module) (l : Loop) (site : LoopSite) : Prop where
  enters : ∃ k, (opsAt m site.outside)[site.entry]? = some (k, .br site.header)
  code : opsAt m site.inside = site.code
  leaves : ∃ k, opsAt m site.beyond = [(k, .ret none)]
  before_lt : site.before < site.header
  has : Has m site.outside ∧ Has m site.inside ∧ Has m site.beyond
  renders : site.Renders l

/-- Changes at another place leave a site as it is. -/
theorem Hosts.spare {site : LoopSite} (h : Hosts m l site) (hs : Spares c m m')
    (hinside : site.inside ≠ c) (hbeyond : site.beyond ≠ c) : Hosts m' l site := by
  refine ⟨?_, ?_, ?_, h.before_lt, ⟨hs.has h.has.1, hs.has h.has.2.1, hs.has h.has.2.2⟩, h.renders⟩
  · obtain ⟨k, hk⟩ := h.enters
    refine ⟨k, ?_⟩
    by_cases hc : site.outside = c
    · rw [hc] at hk ⊢
      exact hs.here hk rfl
    · rw [hs.others h.has.1 hc, hk]
  · rw [hs.others h.has.2.1 hinside, h.code]
  · rw [hs.others h.has.2.2 hbeyond]
    exact h.leaves

/-- From `m` to `m'` these loops were lowered, each to a site of its own that is new. -/
inductive Houses (m m' : IR.Module) (ls : List Loop) : Prop
  | intro (places : List (Loop × LoopSite)) (loops : places.map (·.1) = ls)
      (hosts : ∀ place ∈ places, Hosts m' place.1 place.2)
      (fresh : ∀ place ∈ places, ¬ Has m place.2.inside ∧ ¬ Has m place.2.beyond)
      (distinct : places.Pairwise fun a b => a.2.inside ≠ b.2.inside)

namespace Houses

theorem nil : Houses m m' [] := .intro [] rfl (by simp) (by simp) .nil

/-- Sites are new compared to less than `m`, too. -/
theorem ofHas (h : Houses m m' ls) (hm : ∀ {d}, Has m'' d → Has m d) : Houses m'' m' ls := by
  obtain ⟨places, hloops, hhosts, hfresh, hdistinct⟩ := h
  refine .intro places hloops hhosts ?_ hdistinct
  intro place hplace
  exact ⟨fun hd => (hfresh place hplace).1 (hm hd), fun hd => (hfresh place hplace).2 (hm hd)⟩

theorem append (h : Houses m m' ls) (h' : Houses m' m'' ls') (hs : Spares c m' m'') (hc : Has m c)
    (hm : ∀ {d}, Has m d → Has m' d) : Houses m m'' (ls ++ ls') := by
  obtain ⟨places, hloops, hhosts, hfresh, hdistinct⟩ := h
  obtain ⟨places', hloops', hhosts', hfresh', hdistinct'⟩ := h'
  refine .intro (places ++ places') (by rw [List.map_append, hloops, hloops']) ?_ ?_ ?_
  · intro place hplace
    rcases List.mem_append.mp hplace with hold | hnew
    · refine (hhosts place hold).spare hs ?_ ?_
      · exact fun heq => (hfresh place hold).1 (heq ▸ hc)
      · exact fun heq => (hfresh place hold).2 (heq ▸ hc)
    · exact hhosts' place hnew
  · intro place hplace
    rcases List.mem_append.mp hplace with hold | hnew
    · exact hfresh place hold
    · exact ⟨fun hd => (hfresh' place hnew).1 (hm hd), fun hd => (hfresh' place hnew).2 (hm hd)⟩
  · refine List.pairwise_append.mpr ⟨hdistinct, hdistinct', ?_⟩
    intro old hold new hnew heq
    exact (hfresh' new hnew).1 (heq ▸ (hhosts old hold).has.2.1)

/-- What is done later at a block that was there before. -/
theorem spare (h : Houses m m' ls) (hs : Spares c m' m'') (hc : Has m c)
    (hm : ∀ {d}, Has m d → Has m' d) :
    Houses m m'' ls := by
  have hall := h.append nil hs hc hm
  rwa [List.append_nil] at hall

/-- A loop and those inside of it, which were lowered after the block of the loop was opened. -/
theorem cons {site : LoopSite} (h : Houses m' m'' ls) (hsite : Hosts m'' l site)
    (hinside : ¬ Has m site.inside) (hbeyond : ¬ Has m site.beyond) (hopen : Has m' site.inside)
    (hm : ∀ {d}, Has m d → Has m' d) : Houses m m'' (l :: ls) := by
  obtain ⟨places, hloops, hhosts, hfresh, hdistinct⟩ := h
  refine .intro ((l, site) :: places) (by rw [List.map_cons, hloops]) ?_ ?_ ?_
  · exact List.forall_mem_cons.mpr ⟨hsite, hhosts⟩
  · refine List.forall_mem_cons.mpr ⟨⟨hinside, hbeyond⟩, ?_⟩
    intro place hplace
    exact ⟨fun hd => (hfresh place hplace).1 (hm hd), fun hd => (hfresh place hplace).2 (hm hd)⟩
  · refine List.pairwise_cons.mpr ⟨?_, hdistinct⟩
    intro place hplace heq
    exact (hfresh place hplace).1 (heq ▸ hopen)

/-- What is done in the same region comes after what was done before. -/
theorem sequence (h : Houses s.code t.code ls) (h' : Houses t.code u.code ls') (hs : s.Sound)
    (hc : s.At c) (ha : Advances s t) (ht : t.Sound) (ha' : Advances t u) :
    Houses s.code u.code (ls ++ ls') :=
  h.append h' (.ofAdvances ht (ha.at_iff.mpr hc) ha') (hs.valid.cursor hc) ha.code.has

theorem later (h : Houses s.code t.code ls) (hs : s.Sound) (hc : s.At c) (ha : Advances s t)
    (ht : t.Sound) (ha' : Advances t u) : Houses s.code u.code ls :=
  h.spare (.ofAdvances ht (ha.at_iff.mpr hc) ha') (hs.valid.cursor hc) ha.code.has

end Houses

/-! ### The code of a loop -/

section Code

variable {k next : InstId} {name : String} {incoming : List (Value × BlockId)} {bound : Value}
  {rest : List (InstId × Op)}

theorem Lowerer.Sound.placement (hs : s.Sound) (hf : d.func < s.code.functions.length) :
    (s.body d).Placement :=
  (hs.laid hf).placement

theorem opsAt_emit (hplaced : (s.body d).Placement) (hd : Has s.code d) (op : Op) (ty : Ty)
    (name : Option String) :
    opsAt (s.emit d op ty name).code d = opsAt s.code d ++ [((s.body d).insts.length, op)] := by
  show (Lowerer.body _ d).ops d.block = _
  rw [Lowerer.body_update _ hd.1]
  exact IR.Function.ops_push_self hplaced hd.2 op ty name

/-- The jump into a loop. -/
theorem opsAt_jump (hs : s.Sound) (hc : s.At c) :
    opsAt (s.jump c).code c = opsAt s.code c
      ++ [((s.body c).insts.length, .br (s.nextBlock c))] := by
  have hhas := hs.valid.cursor hc
  have hbody : (s.addBlock c.func "loop").body c = ((s.body c).createBlock "loop").2 :=
    Lowerer.body_update _ hhas.1
  have hadded := hs.addBlock hhas.1 "loop"
  have hnew : Has (s.addBlock c.func "loop").code c := hadded.valid.cursor hc
  rw [Lowerer.jump, opsAt_emit (hadded.placement hnew.1) hnew, hbody]
  show (Lowerer.body _ c).ops c.block ++ _ = _
  rw [hbody, IR.Function.ops_createBlock]
  rfl

/-- A loop begins with its counter. -/
theorem opsAt_openLoop (hs : s.Sound) (hc : s.At c) (start : Value) :
    opsAt (s.openLoop c start).code (s.nextCursor c)
      = [(s.counter c, .phi [(start, c.block)])] := by
  have hhas := hs.valid.cursor hc
  have ho := opens_jump hs.valid hc
  have hbody : ((s.jump c).enter (s.nextCursor c)).body (s.nextCursor c) = (s.jump c).body c := by
    rw [Lowerer.body, enter_code]
    rfl
  have hplaced : ((s.jump c).body c).Placement :=
    (sound_jump hs hc).placement (by simpa [Lowerer.nextCursor] using ho.exists_block.1)
  have hempty : ((s.jump c).body c).ops (s.nextBlock c) = [] := by
    have hne : s.nextBlock c ≠ c.block := Nat.ne_of_gt hhas.2
    rw [body_jump hhas.1, (IR.Function.GrowsAt.push _ _ _ _ _).ops_eq
      ((hs.placement hhas.1).createBlock "loop")
      (by simp [Lowerer.nextBlock]) hne, IR.Function.ops_createBlock]
    exact IR.Function.ops_of_length_le (Nat.le_refl _)
  rw [Lowerer.openLoop, bindName_code, opsAt_emit (by rwa [hbody]) ho.exists_block,
    counter_eq hs.valid hc]
  show (Lowerer.body _ _).ops _ ++ _ = _
  rw [hbody]
  exact congrArg (· ++ _) hempty

/-- The jump stays the last instruction before the loop. -/
theorem opsAt_openLoop_outside (hs : s.Sound) (hc : s.At c) (start : Value) :
    opsAt (s.openLoop c start).code c
      = opsAt s.code c ++ [((s.body c).insts.length, .br (s.nextBlock c))] := by
  have hhas := hs.valid.cursor hc
  have ho := opens_jump hs.valid hc
  have hplaced : (((s.jump c).enter (s.nextCursor c)).code.function
      (s.nextCursor c).func).Placement := by
    rw [enter_code]
    exact (sound_jump hs hc).placement (by simpa using ho.exists_block.1)
  have hspares := Spares.ofGrows hplaced ho.exists_block (.emit _ _ (.phi [(start, c.block)]) .f64
    (some s.options.inductionName))
  have hne : c ≠ s.nextCursor c := fun heq => Nat.ne_of_lt hhas.2 (congrArg Cursor.block heq)
  rw [Lowerer.openLoop, bindName_code, hspares.others (ho.code.has hhas) hne, enter_code,
    opsAt_jump hs hc]

theorem body_closeLoop (hf : d.func < s.code.functions.length) :
    (s.closeLoop d k next name incoming bound).body d =
      (((s.testLoop d next bound).body d).push d.block
        (.condBr (.inst (s.body d).insts.length) d.block
        (s.body d).blocks.length) .void none).2.setPhi k
        { op := .phi (incoming ++ [(.inst next, d.block)]), ty := .f64, name := some name,
          block := d.block } := by
  have hft : d.func < (s.testLoop d next bound).code.functions.length := by
    simpa [Lowerer.testLoop] using hf
  rw [Lowerer.closeLoop, Lowerer.body_update _ (by simpa using hft), Lowerer.body_update _ hft]
  rfl

section Close

variable (hs : s.Sound) (hd : s.At d) (hnext : Usable s (.inst next)) (hbound : Usable s bound)
include hs hd hnext hbound

/-- A loop ends with its test and the branch. -/
theorem opsAt_closeLoop (hops : opsAt s.code d = (k, .phi incoming) :: rest) :
    opsAt (s.closeLoop d k next name incoming bound).code d =
      (k, .phi (incoming ++ [(.inst next, d.block)])) :: (rest ++
        [((s.body d).insts.length, .fcmp .ole (.inst next) bound),
          ((s.body d).insts.length + 1,
            .condBr (.inst (s.body d).insts.length) d.block (s.body d).blocks.length)]) := by
  have hhas := hs.valid.cursor hd
  have htest := sound_testLoop hs hd hnext hbound
  have hthas := htest.valid.cursor (show (s.testLoop d next bound).At d from hd)
  have htplaced := htest.placement hthas.1
  have hlen : ((s.testLoop d next bound).body d).insts.length = (s.body d).insts.length + 1 := by
    rw [body_testLoop hhas.1]
    simp
  have htops : ((s.testLoop d next bound).body d).ops d.block
      = (k, .phi incoming) :: (rest
        ++ [((s.body d).insts.length, .fcmp .ole (.inst next) bound)]) := by
    rw [body_testLoop hhas.1, IR.Function.ops_createBlock, IR.Function.ops_setValueName,
      IR.Function.ops_setValueName, IR.Function.ops_push_self (hs.placement hhas.1) hhas.2]
    exact congrArg (· ++ _) hops
  show (Lowerer.body _ d).ops d.block = _
  rw [body_closeLoop hhas.1]
  have hops' : (((s.testLoop d next bound).body d).push d.block
      (.condBr (.inst (s.body d).insts.length) d.block
      (s.body d).blocks.length) .void none).2.ops d.block = (k, .phi incoming) :: (rest ++
        [((s.body d).insts.length, .fcmp .ole (.inst next) bound),
          ((s.body d).insts.length + 1,
            .condBr (.inst (s.body d).insts.length) d.block (s.body d).blocks.length)]) := by
    rw [IR.Function.ops_push_self htplaced hthas.2, htops, hlen]
    simp
  exact IR.Function.ops_setPhi_self (htplaced.push hthas.2 _ _ _) _ hops'

theorem spares_closeLoop (hk : (s.body d).insts[k]?
      = some { op := .phi incoming, ty := .f64, name := some name, block := d.block })
    (hkn : k ≠ next) (hops : opsAt s.code d = (k, .phi incoming) :: rest) :
    Spares d s.code (s.closeLoop d k next name incoming bound).code := by
  have hhas := hs.valid.cursor hd
  have hplaced := hs.placement hhas.1
  have htest := sound_testLoop hs hd hnext hbound
  have hthas := htest.valid.cursor (show (s.testLoop d next bound).At d from hd)
  have htplaced := htest.placement hthas.1
  have hfunction : ∀ {func : FuncId}, func ≠ d.func →
      (s.closeLoop d k next name incoming bound).code.function func = s.code.function func := by
    intro func hne
    simp only [Lowerer.closeLoop, Lowerer.testLoop, Lowerer.function_update_ne _ hne]
  refine ⟨?_, ?_, ?_⟩
  · intro e he
    refine ⟨by simpa [Lowerer.closeLoop, Lowerer.testLoop] using he.1, ?_⟩
    by_cases hfunc : e.func = d.func
    · rw [hfunc]
      refine Nat.lt_of_lt_of_eq (Nat.lt_succ_of_lt ?_) (closeLoop_blocks hhas.1).symm
      simpa [Lowerer.body, hfunc] using he.2
    · rw [hfunction hfunc]
      exact he.2
  · intro e he hne
    unfold opsAt
    by_cases hfunc : e.func = d.func
    · have hblock : e.block ≠ d.block := fun heq => hne (Cursor.eq_of_func_block hfunc heq)
      have hlt : e.block < (s.body d).blocks.length := by simpa [Lowerer.body, hfunc] using he.2
      have hlt' : e.block < ((s.testLoop d next bound).body d).blocks.length := by
        simpa [body_testLoop hhas.1] using Nat.lt_succ_of_lt hlt
      rw [hfunc]
      show (Lowerer.body _ d).ops e.block = (s.body d).ops e.block
      have hphi := (IR.Function.GrowsAt.push _ d.block
        (.condBr (.inst (s.body d).insts.length) d.block
        (s.body d).blocks.length) .void none).some_of_some (getElem?_testLoop hhas.1 hk hkn bound)
      rw [body_closeLoop hhas.1,
        IR.Function.ops_setPhi_ne (htplaced.push hthas.2 _ _ _) hphi _ hblock,
        (IR.Function.GrowsAt.push _ _ _ _ _).ops_eq htplaced hlt' hblock, body_testLoop hhas.1,
        IR.Function.ops_createBlock, IR.Function.ops_setValueName, IR.Function.ops_setValueName,
        (IR.Function.GrowsAt.push _ _ _ _ _).ops_eq hplaced hlt hblock]
    · rw [hfunction hfunc]
  · intro j k op hj hop
    rw [hops] at hj
    rw [opsAt_closeLoop hs hd hnext hbound hops]
    cases j with
    | zero =>
      cases hj
      cases hop
    | succ j =>
      rw [List.getElem?_cons_succ] at hj ⊢
      rw [List.getElem?_append_left (List.getElem?_eq_some_iff.mp hj).1, hj]

end Close

end Code

/-! ### The code of a whole loop -/

namespace LoopRun

variable {t' : Lowerer} {start bound : Value}

section

variable (h : LoopRun u t t' c start bound)
include h

/-- The counter comes first, and the body after it. -/
theorem exists_body :
    ∃ body, opsAt t.code (u.nextCursor c) = (u.counter c, .phi [(start, c.block)]) :: body := by
  have hgrows := h.advances_body.body h.opened.valid h.opens.opened
  obtain ⟨body, hbody⟩ := hgrows.ops_prefix (h.opened.placement h.opens.exists_block.1)
    (u.nextBlock c)
  refine ⟨body, hbody.symm.trans ?_⟩
  rw [show (Lowerer.body _ _).ops (u.nextBlock c) = _ from opsAt_openLoop h.sound h.cursor start]
  rfl

theorem exists_bounding : ∃ bounding, opsAt t'.code (u.nextCursor c)
    = opsAt (t.advance (u.nextCursor c) (u.counter c)).code (u.nextCursor c) ++ bounding := by
  have hat : (t.advance (u.nextCursor c) (u.counter c)).At (u.nextCursor c) := h.loopEnd.body_at
  have hgrows := (h.limit.advances h.stepSound.valid).body h.stepSound.valid hat
  obtain ⟨bounding, hbounding⟩ :=
    hgrows.ops_prefix (h.stepSound.placement (h.stepSound.valid.cursor hat).1) (u.nextBlock c)
  exact ⟨bounding, hbounding.symm⟩

/-- The block of a loop when its bound has been lowered. -/
theorem opsAt_limit {body bounding : List (InstId × Op)}
    (hbody : opsAt t.code (u.nextCursor c) = (u.counter c, .phi [(start, c.block)]) :: body)
    (hbounding : opsAt t'.code (u.nextCursor c)
      = opsAt (t.advance (u.nextCursor c) (u.counter c)).code (u.nextCursor c) ++ bounding) :
    opsAt t'.code (u.nextCursor c) = (u.counter c, .phi [(start, c.block)]) ::
      (body ++ ((t.body c).insts.length, .arith .fadd (.inst (u.counter c)) (.float .one))
        :: bounding) := by
  have hhas := h.bodySound.valid.cursor h.loopEnd.body_at
  have hnext : (t.body (u.nextCursor c)).insts.length = (t.body c).insts.length := rfl
  rw [hbounding, Lowerer.advance, opsAt_emit (h.bodySound.placement hhas.1) hhas, hbody, hnext]
  simp

/-- The block after a loop is new. -/
theorem has_after : Has (u.closed t t' c start bound).code (t'.afterLoop c) := by
  have hf := (h.endSound.valid.cursor h.loopEnd.bound_at).1
  refine ⟨by simpa [Lowerer.leave, Lowerer.closeLoop, Lowerer.testLoop, Lowerer.nextCursor]
    using hf, ?_⟩
  exact Nat.lt_of_lt_of_eq (Nat.lt_succ_self _) (closeLoop_blocks hf).symm

/-- From the bound to the end of a loop, its block is the only one that is there and changes. -/
theorem spares_endLoop : Spares (u.nextCursor c) t'.code (u.endLoop t t' c start bound).code := by
  obtain ⟨body, hbody⟩ := h.exists_body
  obtain ⟨bounding, hbounding⟩ := h.exists_bounding
  have hend := h.loopEnd
  have hclose := spares_closeLoop h.endSound hend.bound_at hend.next h.usable_bound hend.counter
    (Nat.ne_of_lt hend.counter_lt) (h.opsAt_limit hbody hbounding)
  refine hclose.inner (.ofGrows (h.closeSound.placement h.has_after.1) h.has_after
    (.emit _ _ _ _ _))
    (h.endSound.valid.cursor hend.bound_at) ?_
  exact fun hd => Nat.lt_irrefl _ hd.2

theorem entry_endLoop : (opsAt (u.endLoop t t' c start bound).code c)[(opsAt u.code c).length]?
    = some ((u.body c).insts.length, .br (u.nextBlock c)) := by
  have hhas := h.sound.valid.cursor h.cursor
  have hopen := h.opens.code.has hhas
  have hne : c ≠ u.nextCursor c := fun heq => Nat.ne_of_lt hhas.2 (congrArg Cursor.block heq)
  rw [h.spares_endLoop.others (h.advances_limit.code.has hopen) hne,
    (Spares.ofAdvances h.opened h.opens.opened h.advances_limit).others hopen hne,
    opsAt_openLoop_outside h.sound h.cursor start]
  simp

theorem code_endLoop {body bounding : List (InstId × Op)}
    (hbody : opsAt t.code (u.nextCursor c) = (u.counter c, .phi [(start, c.block)]) :: body)
    (hbounding : opsAt t'.code (u.nextCursor c)
      = opsAt (t.advance (u.nextCursor c) (u.counter c)).code (u.nextCursor c) ++ bounding) :
    opsAt (u.endLoop t t' c start bound).code (u.nextCursor c)
      = (u.counter c, .phi [(start, c.block), (.inst (t.body c).insts.length, u.nextBlock c)]) ::
        (body ++
          ((t.body c).insts.length, .arith .fadd (.inst (u.counter c)) (.float .one)) ::
            (bounding ++
              [((t'.body c).insts.length, .fcmp .ole (.inst (t.body c).insts.length) bound),
                ((t'.body c).insts.length + 1,
                  .condBr (.inst (t'.body c).insts.length) (u.nextBlock c)
                    (t'.body c).blocks.length)])) := by
  have hend := h.loopEnd
  have hhas := h.endSound.valid.cursor hend.bound_at
  have hlimit := h.opsAt_limit hbody hbounding
  have hspares := spares_closeLoop h.endSound hend.bound_at hend.next h.usable_bound hend.counter
    (Nat.ne_of_lt hend.counter_lt) hlimit
  have hne : u.nextCursor c ≠ t'.afterLoop c :=
    fun heq => Nat.ne_of_lt hhas.2 (congrArg Cursor.block heq)
  rw [(Spares.ofGrows (h.closeSound.placement h.has_after.1) h.has_after
    (.emit _ _ (.ret none) .void none)).others (hspares.has hhas) hne]
  refine (opsAt_closeLoop h.endSound hend.bound_at hend.next h.usable_bound hlimit).trans ?_
  simp only [List.append_assoc, List.cons_append, List.nil_append]
  rfl

theorem after_endLoop :
    ∃ k, opsAt (u.endLoop t t' c start bound).code (t'.afterLoop c) = [(k, .ret none)] := by
  have hend := h.loopEnd
  have hmarks : marksAt (u.closed t t' c start bound).code (t'.afterLoop c) = [] :=
    ((fills_closeLoop h.endSound hend.bound_at hend.counter (Nat.ne_of_lt hend.counter_lt) hend.next
      h.usable_bound).fresh List.mem_cons_self).2.2
  have hempty : opsAt (u.closed t t' c start bound).code (t'.afterLoop c) = [] :=
    List.map_eq_nil_iff.mpr (List.map_eq_nil_iff.mp hmarks)
  have hemit := opsAt_emit (h.closeSound.placement h.has_after.1) h.has_after (.ret none) .void none
  rw [hempty] at hemit
  exact ⟨_, hemit⟩

/-- The site of a loop is in the module when the loop has been lowered. -/
theorem hosts {l : Loop} {result : Option Value}
    (hstart : outcome (operand "loop start" (lowerExpr l.start)) s = (.ok start, u))
    (hbody : outcome (lowerBlock l.body) (u.openLoop c start) = (.ok result, t))
    (hbound : outcome (operand "loop bound" (lowerExpr l.limit))
      (t.advance (u.nextCursor c) (u.counter c))
      = (.ok bound, t')) :
    ∃ site, Hosts (u.endLoop t t' c start bound).code l site ∧ site.inside = u.nextCursor c ∧
      site.beyond = t'.afterLoop c := by
  obtain ⟨body, hbodyOps⟩ := h.exists_body
  obtain ⟨bounding, hboundOps⟩ := h.exists_bounding
  have hhas := h.sound.valid.cursor h.cursor
  refine ⟨⟨c.func, c.block, (opsAt u.code c).length, u.nextBlock c, (t'.body c).blocks.length,
    u.counter c, (t.body c).insts.length, (t'.body c).insts.length, (t'.body c).insts.length + 1,
    start, bound, body, bounding⟩,
    ⟨⟨_, h.entry_endLoop⟩, h.code_endLoop hbodyOps hboundOps, h.after_endLoop, hhas.2,
      ⟨?_, ?_, ?_⟩, .intro hstart rfl rfl hbody hbodyOps hbound hboundOps⟩, rfl, rfl⟩
  · exact h.spares_endLoop.has (h.advances_limit.code.has (h.opens.code.has hhas))
  · exact h.spares_endLoop.has (h.endSound.valid.cursor h.loopEnd.bound_at)
  · exact (CodeGrows.emit _ _ (.ret none) .void none).has h.has_after

end

end LoopRun

/-! ### Constructs -/

/-- A step that gives these loops their sites whenever it succeeds. -/
structure Settles (x : LowerM α) (ls : List Loop) : Prop where
  houses : ∀ {s t : Lowerer} {a : α} {c : Cursor}, s.Sound → s.options.policy = .failFast → s.At c →
    outcome x s = (.ok a, t) → Houses s.code t.code ls

section Constructs

variable {x y z : LowerM (Option Value)} {ls₁ ls₂ ls₃ : List Loop}

theorem Settles.pure (a : α) : Settles (pure a : LowerM α) [] :=
  ⟨fun _ _ _ _ => .nil⟩

theorem Settles.map {β : Type} {x : LowerM α} (hx : Settles x ls) (g : α → β) :
    Settles (do return g (← x)) ls := by
  constructor
  intro s t b c hs hp hc h
  obtain ⟨a, u, hok, hk⟩ := (outcome_bind_eq_ok s).mp h
  cases hk
  exact hx.houses hs hp hc hok

/-- A value and the load that it may need. -/
theorem Settles.andLoad {v w : Value} (hx : Settles x ls) (hxy : Yields x) (hs : s.Sound)
    (hp : s.options.policy = .failFast) (hc : s.At c) (hok : outcome x s = (.ok (some v), u))
    (hload : outcome (materialize v) u = (.ok w, t)) : Houses s.code t.code ls := by
  have hwalk := hxy s hs.valid
  have hvalue := hx.houses hs hp hc hok
  obtain ⟨d, hd, ⟨-, -, rfl⟩ | ⟨ty, -, -, rfl⟩⟩ := materialize_succeeds hload
  · exact hvalue
  · exact hvalue.later hs hc (hwalk.advances hs.valid hok) (hwalk.sound hs hok)
      (advances_emit hd _ _ _)

theorem settles_operand (hx : Settles x ls) (hxy : Yields x) (context : String) :
    Settles (operand context x) ls := by
  constructor
  intro s t w c hs hp hc h
  obtain ⟨v, u, hok, hload⟩ := operand_succeeds h
  exact hx.andLoad hxy hs hp hc hok hload

/-- A step and then an instruction. -/
theorem Settles.andEmit {x : LowerM α} {Q : Lowerer → α → Prop} {a : α} (hx : Settles x ls)
    (hwalk : Walks s x Q) (hs : s.Sound) (hp : s.options.policy = .failFast) (hc : s.At c)
    (hok : outcome x s = (.ok a, t)) (hd : t.At d) (op : Op) (ty : Ty) :
    Houses s.code (t.emit d op ty none).code ls :=
  (hx.houses hs hp hc hok).later hs hc (hwalk.advances hs.valid hok) (hwalk.sound hs hok)
    (advances_emit hd _ _ _)

theorem settles_lowerIdent (name : String) : Settles (lowerIdent name) [] :=
  ⟨fun _ _ _ _ => .nil⟩

theorem settles_lowerBinary (hx : Settles x ls₁) (hy : Settles y ls₂) (hxy : Yields x)
    (hyy : Yields y) (op : BinOp) : Settles (lowerBinary op x y) (ls₁ ++ ls₂) := by
  constructor
  intro s t v c hs hp hc h
  obtain ⟨lhs, u, rhs, u', lowered, d, hl, hr, -, hd, -, rfl⟩ := lowerBinary_succeeds h
  have hleft := walks_operand hxy hs.valid "left operand"
  have ha := hleft.advances hs.valid hl
  have hu := hleft.sound hs hl
  have hright := walks_operand hyy hu.valid "right operand"
  have ha' := hright.advances hu.valid hr
  have hhouses := (settles_operand hx hxy _).houses hs hp hc hl
  have hhouses' := (settles_operand hy hyy _).houses hu (by rw [ha.options, hp])
    (ha.at_iff.mpr hc) hr
  exact (hhouses.sequence hhouses' hs hc ha hu ha').later hs hc (ha.trans ha') (hright.sound hu hr)
    (advances_emit hd _ _ _)

theorem settles_lowerAssign (hx : Settles x ls) (hxy : Yields x) (target : String) :
    Settles (lowerAssign target x) ls := by
  constructor
  intro s t w c hs hp hc h
  obtain ⟨slot, _, ty, v, u, d, -, -, -, hval, hd, -, rfl⟩ := lowerAssign_succeeds h
  exact (settles_operand hx hxy _).andEmit (walks_operand hxy hs.valid _) hs hp hc hval hd _ _

theorem settles_lowerArg (hx : Settles x ls) (hxy : Yields x) (key : Option String) :
    Settles (lowerArg key x) ls := by
  constructor
  intro s t w c hs hp hc h
  obtain ⟨v, u, hok, ⟨-, rfl⟩ | hload⟩ := lowerArg_succeeds h
  · exact hx.houses hs hp hc hok
  · exact hx.andLoad hxy hs hp hc hok hload

theorem settles_lowerCall {args : LowerM (List Value)} {Q : Lowerer → List Value → Prop}
    (hargs : Settles args ls) (hwalk : ∀ s : Lowerer, s.Valid → Walks s args Q) (callee : String)
    (count : Nat) : Settles (lowerCall callee count args) ls := by
  constructor
  intro s t v c hs hp hc h
  obtain ⟨func, values, u, d, hok, hd, -, rfl⟩ := lowerCall_succeeds h
  exact hargs.andEmit (hwalk s hs.valid) hs hp hc hok hd _ _

theorem settles_lowerReturn (hx : Settles x ls) (hxy : Yields x) :
    Settles (lowerReturn (some x)) ls := by
  constructor
  intro s t w c hs hp hc h
  obtain ⟨v, u, d, hval, hd, -, rfl⟩ := lowerReturn_succeeds h
  exact (settles_operand hx hxy _).andEmit (walks_operand hxy hs.valid _) hs hp hc hval hd _ _

theorem settles_lowerReturn_none : Settles (lowerReturn none) [] :=
  ⟨fun _ _ _ _ => .nil⟩

/-- A slot is made before the value is lowered. -/
theorem settles_lowerVar (hx : Settles x ls) (hxy : Yields x) (node : NodeId) (ty name : String) :
    Settles (lowerVar node ty name x) ls := by
  constructor
  intro s t v c hs hp hc h
  obtain ⟨d, w, hd, -, hassign⟩ := lowerVar_succeeds h
  have hslot : Runs s (s.declareVariable d node (typeOf ty) name) := .slot hd node (typeOf ty) name
  have ha := hslot.advances hs.valid
  exact ((settles_lowerAssign hx hxy name).houses (hslot.sound hs) (by rw [ha.options, hp])
    (ha.at_iff.mpr hc) hassign).ofHas ha.code.has

/-- What the first arm of a conditional has is left alone by the second. -/
theorem settles_lowerIf (hx : Settles x ls₁) (hy : Settles y ls₂) (hz : Settles z ls₃)
    (hxy : Yields x) (hyy : Yields y) (hzy : Yields z) :
    Settles (lowerIf x y z) (ls₁ ++ (ls₂ ++ ls₃)) := by
  constructor
  intro s t _ c hs hp hc h
  obtain ⟨cond, u, d, result, t₁, result', t₂, hcond, hd, hthen, helse, rfl⟩ :=
    lowerIf_succeeds hxy hs.valid h
  have hwalk := walks_operand hxy hs.valid "condition"
  have ha := hwalk.advances hs.valid hcond
  have hu := hwalk.sound hs hcond
  have hus : u.options.policy = .failFast := by rw [ha.options, hp]
  have ho := opens_then hu.valid hd cond
  have hsthen := sound_then hu hd (hwalk.value_of_ok hcond)
  have ha₁ := (hyy _ hsthen.valid).advances hsthen.valid hthen
  have ho' := opens_else hu.valid hd ha₁
  have hselse := sound_else hu hd ha₁ ((hyy _ hsthen.valid).sound hsthen hthen)
  have ha₂ := (hzy _ hselse.valid).advances hselse.valid helse
  have harm := hy.houses hsthen (by rw [ho.options, hus]) ho.opened hthen
  have harm' := hz.houses hselse (by rw [ho'.options, hus]) ho'.opened helse
  have hspares := Spares.ofAdvances hselse ho'.opened ha₂
  rw [enter_code] at harm' hspares
  -- The block of the second arm is there when the first one begins.
  have helseHas : Has ((u.fork d cond).enter (u.nextCursor d)).code
      { d with block := u.nextBlock d + 1 } := by
    refine ⟨ho.exists_block.1, ?_⟩
    rw [enter_code]
    exact Nat.lt_of_lt_of_eq (Nat.lt_succ_self _) (fork_blocks (hu.valid.cursor hd).1 cond).symm
  have harms := (harm.append harm' hspares helseHas ha₁.code.has).ofHas ho.code.has
  exact ((settles_operand hx hxy _).houses hs hp hc hcond).sequence harms hs hc ha hu
    (ho'.close ha₂)

theorem settles_lowerLoop (l : Loop) (hx : Settles (lowerExpr l.start) ls₁)
    (hy : Settles (lowerBlock l.body) ls₂) (hz : Settles (lowerExpr l.limit) ls₃) :
    Settles (lowerLoop (lowerExpr l.start) (lowerBlock l.body) (lowerExpr l.limit))
      (ls₁ ++ l :: (ls₂ ++ ls₃)) := by
  constructor
  intro s t _ c hs hp hc h
  have hxy := lowerExpr_yields l.start
  have hyy := lowerBlock_yields l.body
  have hzy := lowerExpr_yields l.limit
  obtain ⟨start, u, result, t₁, bound, t₂, hstart, hbody, hbound, ha, hloop, rfl⟩ :=
    lowerLoop_runs hxy hyy hzy hs hc h
  -- The loops inside of this one,
  have ho := hloop.opens
  have hstep := hloop.advances_step
  have hpolicy : (u.openLoop c start).options.policy = .failFast := by
    rw [ho.options, ha.options, hp]
  have hpolicy' : (t₁.advance (u.nextCursor c) (u.counter c)).options.policy = .failFast := by
    rw [hstep.options, hloop.advances_body.options, hpolicy]
  have hinner := (hy.houses hloop.opened hpolicy ho.opened hbody).later hloop.opened ho.opened
    hloop.advances_body hloop.bodySound hstep
  have hinner' := (settles_operand hz hzy _).houses hloop.stepSound hpolicy'
    hloop.loopEnd.body_at hbound
  have hnested := hinner.sequence hinner' hloop.opened ho.opened (hloop.advances_body.trans hstep)
    hloop.stepSound (hloop.limit.advances hloop.stepSound.valid)
  have hclosed := hnested.spare hloop.spares_endLoop ho.exists_block hloop.advances_limit.code.has
  -- and the loop itself.
  obtain ⟨site, hhosts, hheader, hafter⟩ := hloop.hosts hstart hbody hbound
  have hall : Houses u.code (u.endLoop t₁ t₂ c start bound).code (l :: (ls₂ ++ ls₃)) := by
    refine hclosed.cons hhosts ?_ ?_ (hheader ▸ ho.exists_block) ho.code.has
    · rw [hheader]
      exact fun hd => Nat.lt_irrefl _ hd.2
    · rw [hafter]
      exact fun hd => Nat.lt_irrefl _ (hloop.advances_limit.code.has (ho.code.has hd)).2
  exact ((settles_operand hx hxy _).houses hs hp hc hstart).sequence hall hs hc ha hloop.sound
    hloop.advances_endLoop

theorem settles_lowerFn {block : Block} (hx : Settles (lowerBlock block) ls) (retTy : Option String)
    (name : String) (params : List Param) :
    Settles (lowerFn retTy name params block.hasTopLevelReturn (lowerBlock block)) ls := by
  constructor
  intro s t _ c hs hp hc h
  obtain ⟨result, u, hbody, rfl⟩ := lowerFn_succeeds (lowerBlock_yields block) hs.valid h
  have ho := opens_function s name params (returnType retTy)
  have hopen := sound_openFunction hs name params (returnType retTy)
  have hwalk := lowerBlock_yields block _ hopen.valid
  have hinner := hx.houses hopen (by rw [ho.options, hp]) ho.opened hbody
  have hended : Houses (s.openFunction name params (returnType retTy)).code
      (u.endFunction s.nextFunction (returnType retTy) block.hasTopLevelReturn).code ls := by
    unfold Lowerer.endFunction
    split
    · exact hinner.later hopen ho.opened (hwalk.advances hopen.valid hbody)
        (hwalk.sound hopen hbody)
        (advances_emit ((hwalk.advances hopen.valid hbody).at_iff.mpr ho.opened) _ _ _)
    · exact hinner
  exact hended.ofHas ho.code.has

end Constructs

/-! ### The walk -/

mutual

theorem lowerExpr_settles : ∀ e : Expr, Settles (lowerExpr e) e.loops
  | .int .. | .double .. => .pure _
  | .string .. => ⟨fun _ _ _ _ => .nil⟩
  | .ident _ name => (settles_lowerIdent name).map _
  | .call _ callee args =>
    (settles_lowerCall (lowerArgs_settles args) (lowerArgs_walks args) callee _).map _
  | .binary _ op left right =>
    (settles_lowerBinary (lowerExpr_settles left) (lowerExpr_settles right) (lowerExpr_yields left)
      (lowerExpr_yields right) op).map _
  | .assign _ target value =>
    (settles_lowerAssign (lowerExpr_settles value) (lowerExpr_yields value) target).map _
  | .ifElse _ cond thenBlock elseBlock =>
    (settles_lowerIf (lowerExpr_settles cond) (lowerBlock_settles thenBlock)
      (lowerBlock_settles elseBlock)
      (lowerExpr_yields cond) (lowerBlock_yields thenBlock)
        (lowerBlock_yields elseBlock)).map fun _ => none
  | .loop _ start limit body =>
    (settles_lowerLoop { start, limit, body } (lowerExpr_settles start) (lowerBlock_settles body)
      (lowerExpr_settles limit)).map fun _ => none
  | .block _ body => lowerBlock_settles body

theorem lowerArgs_settles : ∀ args : List Expr, Settles (lowerArgs args) (argsLoops args)
  | [] => .pure _
  | arg :: args => by
    constructor
    intro s t values c hs hp hc h
    rw [lowerArgs] at h
    obtain ⟨v, u, harg, hk⟩ := (outcome_bind_eq_ok s).mp h
    obtain ⟨vs, u', hrest, hend⟩ := (outcome_bind_eq_ok u).mp hk
    cases hend
    have hwalk := walks_lowerArg (lowerExpr_yields arg) hs.valid arg.bindingKey
    have ha := hwalk.advances hs.valid harg
    have hu := hwalk.sound hs harg
    have hfirst := (settles_lowerArg (lowerExpr_settles arg) (lowerExpr_yields arg) _).houses
      hs hp hc harg
    have hlater := (lowerArgs_settles args).houses hu (by rw [ha.options, hp])
      (ha.at_iff.mpr hc) hrest
    exact hfirst.sequence hlater hs hc ha hu
      ((lowerArgs_walks args u hu.valid).advances hu.valid hrest)

theorem lowerStmt_settles : ∀ stmt : Stmt, Settles (lowerStmt stmt) stmt.loops
  | .expr _ value => lowerExpr_settles value
  | .ret _ none => settles_lowerReturn_none.map _
  | .ret _ (some value) =>
    (settles_lowerReturn (lowerExpr_settles value) (lowerExpr_yields value)).map _
  | .var _ _ name none => (settles_lowerIdent name).map _
  | .var id ty name (some init) =>
    (settles_lowerVar (lowerExpr_settles init) (lowerExpr_yields init) id ty name).map _
  | .fn _ retTy name params body =>
    (settles_lowerFn (lowerBlock_settles body) retTy name params).map fun _ => none
  | .block _ body => lowerBlock_settles body

theorem lowerBlock_settles : ∀ block : Block, Settles (lowerBlock block) block.loops
  | .mk _ stmts => lowerStmts_settles stmts none

theorem lowerStmts_settles : ∀ (stmts : List Stmt) (last : Option Value),
    Settles (lowerStmts last stmts) (stmtsLoops stmts)
  | [], _ => .pure _
  | stmt :: stmts, last => by
    constructor
    intro s t r c hs hp hc h
    obtain ⟨value, u, hstmt, hrest⟩ := lowerStmts_succeeds hp h
    have hwalk := lowerStmt_yields stmt s hs.valid
    have ha := hwalk.advances hs.valid hstmt
    have hu := hwalk.sound hs hstmt
    have hfirst := (lowerStmt_settles stmt).houses hs hp hc hstmt
    have hlater := (lowerStmts_settles stmts value).houses hu (by rw [ha.options, hp])
      (ha.at_iff.mpr hc) hrest
    exact hfirst.sequence hlater hs hc ha hu
      ((lowerStmts_walks stmts value u hu.valid (hwalk.value_of_ok hstmt)).advances hu.valid hrest)

end

/-! ### Programs -/

/-- **Loops and their sites.**  If a program lowers without an error, each of its loops has a site
of its own in the module, with the code that lowering the loop gave. -/
theorem lowerProgram_houses {root : Block} {options : Options} {lowered : Lowered}
    (h : lowerProgram root options = .ok lowered) (herrors : lowered.errors = []) :
    Houses (start { options with policy := .failFast }).code lowered.code root.loops := by
  obtain ⟨r, t, hok, hcode⟩ := lowerProgram_succeeds h herrors
  have hs := start_sound { options with policy := .failFast }
  have hat : (start { options with policy := .failFast }).At entryCursor := rfl
  have hwalk := lowerBlock_yields root _ hs.valid
  have hhouses := (lowerBlock_settles root).houses hs rfl hat hok
  rw [hcode, closeModule]
  split
  · exact hhouses
  · exact hhouses.later hs hat (hwalk.advances hs.valid hok) (hwalk.sound hs hok)
      (advances_emit ((hwalk.advances hs.valid hok).at_iff.mpr hat) (.ret none) .void none)

end TreeCompiler.Lowering
