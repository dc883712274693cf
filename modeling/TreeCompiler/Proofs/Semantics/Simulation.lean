/-
Lowered code does what evaluation says.

A call of a lowered function is followed along the evaluation of its declaration.  At each point of
the evaluation the lowering of the part at hand has filled a block up to some place, and the run
stands at that place (`Current`).  What the names of the store stand for is in memory or among the
arguments (`Represents`).  Arguments have the first cells of the store; each later cell has a memory
cell of its own, made in the same order, so the two numberings differ by a constant and no two
variables share memory.

The function that runs is the finished one.  It has everything that the function had when the part
was lowered, and the blocks that were opened and closed meanwhile are as they were left (`Settled`).
That is where verification comes in.  If an arm of a conditional came to its end without a return,
nothing that was executed would be a terminator, and nothing is added to its block later; so the
block would have none, which the verifier reports.

`Simulates` says all this of one step of lowering and the evaluation that belongs to it.  There is a
lemma for each construct, and the walk over the tree comes last.
-/
import TreeCompiler.Proofs.IR.Verified
import TreeCompiler.Proofs.Lowering.Sound
import TreeCompiler.Proofs.Semantics.Evaluation

namespace TreeCompiler.Semantics

open IR (FuncId BlockId InstId Ty Value Op)
open Lowering
open Program (Expr Stmt Block BinOp Param NodeId Declaration)

/-! ### What stays fixed -/

/-- A call of a function of a module, in which every block has a terminator. -/
structure Activation where
  prims : Primitives
  code : IR.Module
  func : FuncId
  args : List Val
  /-- The number of memory cells in use before the call. -/
  base : Nat
  placed : (code.function func).Placement
  ended : ∀ {b : BlockId}, b < (code.function func).blocks.length →
    ∃ entry ∈ (code.function func).blockInsts b, entry.2.op.isTerminator = true

namespace Activation

variable (a : Activation)

/-- The function that runs. -/
abbrev body : IR.Function := a.code.function a.func

/-- The value of an operand. -/
def value? (frame : Frame) (v : Value) : Option Val := frame.value? a.code a.args v

abbrev Reaches (x y : Frame × World) : Prop := Semantics.Reaches a.prims a.code a.body a.args x y

abbrev Returns (x : Frame × World) (v : Val) : Prop :=
  Semantics.Returns a.prims a.code a.body a.args x v

/-- The function that runs has all that was lowered for it so far.  The block at the cursor may
still grow; the blocks from number `n` on are finished. -/
structure Settled (c : Cursor) (n : Nat) (t : Lowerer) : Prop where
  insts : (t.body c).insts <+: a.body.insts
  blocks : (t.body c).blocks.length ≤ a.body.blocks.length
  block : (t.body c).ids c.block <+: a.body.ids c.block
  closed : ∀ b, n ≤ b → b < (t.body c).blocks.length → a.body.ids b = (t.body c).ids b
  globals : t.code.globals <+: a.code.globals

end Activation

/-- A state in which a part is lowered at a cursor, under orders to stop at the first error. -/
structure Ready (c : Cursor) (s : Lowerer) : Prop where
  valid : s.Valid
  opened : s.At c
  strict : s.options.policy = .failFast

theorem Ready.advances {c : Cursor} {s t : Lowerer} (h : Ready c s) (ha : Advances s t) :
    Ready c t :=
  ⟨ha.valid h.valid, ha.at_iff.mpr h.opened, by rw [ha.options, h.strict]⟩

theorem Ready.opens {c d : Cursor} {s o : Lowerer} (h : Ready c s) (ho : Opens s o d) : Ready d o :=
  ⟨ho.valid h.valid, ho.opened, by rw [ho.options, h.strict]⟩

theorem Ready.grows {c : Cursor} {s t : Lowerer} (h : Ready c s) (ha : Advances s t) :
    (s.body c).GrowsAt c.block (t.body c) :=
  ha.body h.valid h.opened

theorem Ready.func_lt {c : Cursor} {s : Lowerer} (h : Ready c s) :
    c.func < s.code.functions.length :=
  (h.valid.cursor h.opened).1

theorem Ready.block_lt {c : Cursor} {s : Lowerer} (h : Ready c s) :
    c.block < (s.body c).blocks.length :=
  (h.valid.cursor h.opened).2

/-! ### Where the run is -/

/-- The run stands where the next instruction of the block is going to be.  What it executed there
is no terminator, and only instructions that were lowered have results. -/
structure Current (c : Cursor) (s : Lowerer) (frame : Frame) : Prop where
  block : frame.block = c.block
  position : frame.position = ((s.body c).ids c.block).length
  running : ∀ k ∈ (s.body c).ids c.block,
    ∃ i : IR.Inst, (s.body c).insts[k]? = some i ∧ i.op.isTerminator = false
  results : ∀ {k v}, frame.results.lookup k = some v → k < (s.body c).insts.length

/-- The first `n` instructions keep their results, and no memory cell is given back. -/
structure Keeps (n : Nat) (x y : Frame × World) : Prop where
  results : ∀ {k}, k < n → y.1.results.lookup k = x.1.results.lookup k
  memory : x.2.memory.length ≤ y.2.memory.length

theorem Keeps.refl (n : Nat) (x : Frame × World) : Keeps n x x := ⟨fun _ => rfl, Nat.le_refl _⟩

theorem Keeps.trans {n k : Nat} {x y z : Frame × World} (h : Keeps n x y) (h' : Keeps k y z)
    (hle : n ≤ k) : Keeps n x z where
  results hlt := (h'.results (Nat.lt_of_lt_of_le hlt hle)).trans (h.results hlt)
  memory := Nat.le_trans h.memory h'.memory

namespace Activation

variable (a : Activation)

/-- What a cell of the store is for the run: an argument, or the memory cell of a slot. -/
inductive Denotes (f : IR.Function) (frame : Frame) : Value → Nat → Prop
  | argument {i : Nat} (h : i < a.args.length) : Denotes f frame (.param i) i
  | slot {k : InstId} {j : Nat} {ty : Ty} (hslot : f.slotType (.inst k) = some ty)
      (hptr : frame.results.lookup k = some (.ptr (a.base + j))) :
      Denotes f frame (.inst k) (a.args.length + j)

/-- What a lowered value stands for once it is used: a slot for what it holds, any other for
itself. -/
inductive Carries (f : IR.Function) (frame : Frame) (w : World) : Value → Val → Prop
  | direct {v : Value} {val : Val} (hslot : f.slotType v = none)
      (hval : a.value? frame v = some val) :
      Carries f frame w v val
  | stored {k : InstId} {ty : Ty} {cell : Nat} {val : Val} (hslot : f.slotType (.inst k) = some ty)
      (hptr : frame.results.lookup k = some (.ptr cell)) (hcell : w.memory[cell]? = some val) :
      Carries f frame w (.inst k) val

/-- The variables of the store are where the run has them. -/
structure Represents (c : Cursor) (s : Lowerer) (σ : Store) (frame : Frame) (w : World) : Prop where
  arguments : ∀ i, i < a.args.length → σ.cells[i]? = (a.args[i]?).map some
  enough : a.args.length ≤ σ.cells.length
  length : w.memory.length + a.args.length = a.base + σ.cells.length
  memory : ∀ {j v}, σ.cells[a.args.length + j]? = some (some v) → w.memory[a.base + j]? = some v
  names : ∀ {x i}, σ.scope.lookup x = some i → i < σ.cells.length ∧
    ∃ v, s.scopes.resolve x = some v ∧ a.Denotes (s.body c) frame v i

/-- The run is where lowering is, with the variables of the store. -/
structure Follows (c : Cursor) (s : Lowerer) (σ : Store) (frame : Frame) (w : World) : Prop where
  current : Current c s frame
  represents : a.Represents c s σ frame w

/-- What the run of the code between two states of lowering does, by how the evaluation ends. -/
def Matches {β : Type} (c : Cursor) (s t : Lowerer) (frame : Frame) (w : World)
    (Q : β → Frame → World → Prop) : Result β → Prop
  | .undefined => True
  | .returned v => a.Returns (frame, w) v
  | .normal b σ => ∃ frame' w', a.Reaches (frame, w) (frame', w') ∧
      Keeps (s.body c).insts.length (frame, w) (frame', w') ∧ a.Follows c t σ frame' w' ∧
        Q b frame' w'

/-- A step of lowering whose code does what an evaluation says, and whose value fits. -/
structure Simulates {α β : Type} (x : LowerM α) (e : Eval β)
    (V : IR.Function → Frame → World → α → β → Prop) : Prop where
  run : ∀ {c s t r σ frame w}, Ready c s → outcome x s = (.ok r, t) →
    a.Settled c (s.body c).blocks.length t → a.Follows c s σ frame w →
    a.Matches c s t frame w (fun b frame' w' => V (t.body c) frame' w' r b) (e σ)

end Activation

/-! ### The effect of one instruction on where the run is -/

section Instruction

variable {c : Cursor} {s : Lowerer} {frame : Frame} {w w' : World} {op : Op}

theorem body_emit (hr : Ready c s) (op : Op) (ty : Ty) (name : Option String) :
    (s.emit c op ty name).body c = ((s.body c).push c.block op ty name).2 :=
  Lowerer.body_update _ hr.func_lt

theorem keeps_record (s : Lowerer) (c : Cursor) (frame : Frame) (val : Val)
    (hle : w.memory.length ≤ w'.memory.length) :
    Keeps (s.body c).insts.length (frame, w) (frame.record (s.body c).insts.length val, w') :=
  ⟨fun hlt => lookup_record_ne (Nat.ne_of_lt hlt) frame val, hle⟩

theorem Current.congr {t : Lowerer} (h : Current c s frame)
    (hids : (t.body c).ids c.block = (s.body c).ids c.block)
    (hinsts : (t.body c).insts = (s.body c).insts) : Current c t frame := by
  refine ⟨h.block, ?_, ?_, ?_⟩
  · rw [hids]
    exact h.position
  · rw [hids, hinsts]
    exact h.running
  · rw [hinsts]
    exact h.results

theorem Current.emit (h : Current c s frame) (hr : Ready c s)
    (hop : op.isTerminator = false) (ty : Ty) (name : Option String) (val : Val) :
    Current c (s.emit c op ty name) (frame.record (s.body c).insts.length val) where
  block := h.block
  position := by
    rw [body_emit hr, IR.Function.ids_push_self _ _ _ _ _ hr.block_lt, List.length_append,
      ← h.position]
    rfl
  running := by
    intro k hk
    rw [body_emit hr, IR.Function.ids_push_self _ _ _ _ _ hr.block_lt] at hk
    rw [body_emit hr]
    rcases List.mem_append.mp hk with hmem | hlast
    · obtain ⟨i, hi, hrun⟩ := h.running k hmem
      exact ⟨i, IR.Function.getElem?_push.mpr (.inl hi), hrun⟩
    · exact ⟨_, IR.Function.getElem?_push.mpr (.inr ⟨List.mem_singleton.mp hlast, rfl⟩), hop⟩
  results := by
    intro k v hk
    rw [body_emit hr, IR.Function.push_insts, List.length_append]
    by_cases hlast : k = (s.body c).insts.length
    · rw [hlast]
      exact Nat.lt_succ_self _
    · rw [lookup_record_ne hlast] at hk
      exact Nat.lt_succ_of_lt (h.results hk)

end Instruction

/-! ### What names stand for -/

section Names

variable {c : Cursor} {s : Lowerer}

theorem resolve_bindName (hc : s.At c) (name x : String) (v : Value) (decl : Option DeclId) :
    (s.bindName name v decl).scopes.resolve x
      = if x = name then some v else s.scopes.resolve x := by
  obtain ⟨scope, rest, hscopes, -⟩ := hc.scopes
  simp only [Lowerer.bindName, hscopes, ScopeStack.resolve, ScopeStack.lookup, List.lookup_cons]
  by_cases hx : x = name
  · simp [hx]
  · have hne : (x == name) = false := by simpa using hx
    simp [hne, hx]

theorem resolve_declareVariable (hc : s.At c) (node : NodeId) (ty : Ty) (name x : String) :
    (s.declareVariable c node ty name).scopes.resolve x
      = if x = name then some (.inst (s.body c).insts.length) else s.scopes.resolve x :=
  resolve_bindName (by exact hc) _ _ _ _

theorem resolve_enter (hc : s.At c) (d : Cursor) :
    (s.enter d).scopes.resolve = s.scopes.resolve := by
  obtain ⟨scope, rest, hscopes, -⟩ := hc.scopes
  funext name
  simp only [Lowerer.enter, hscopes, ScopeStack.resolve, ScopeStack.lookup]

end Names

namespace Activation

variable {a : Activation} {β γ : Type} {c : Cursor} {s t u : Lowerer} {σ : Store}
  {frame frame' : Frame} {w w' : World} {n : Nat} {f g : IR.Function} {b : BlockId} {v : Value}
  {val : Val}

/-! ### Taking a run apart -/

/-- What came before is settled when what came after is. -/
theorem Settled.before (h : a.Settled c n t) (hr : Ready c s) (ha : Advances s t)
    (hn : c.block < n) :
    a.Settled c n s := by
  have hg := hr.grows ha
  refine ⟨hg.insts.trans h.insts, Nat.le_trans hg.blocks h.blocks, (hg.ids _).trans h.block, ?_,
    ha.code.globals.trans h.globals⟩
  intro b hb hlt
  rw [h.closed b hb (Nat.lt_of_lt_of_le hlt hg.blocks),
    hg.others b hlt (Nat.ne_of_gt (Nat.lt_of_lt_of_le hn hb))]

/-- A later part of the code, seen by itself. -/
theorem Settled.after (h : a.Settled c (s.body c).blocks.length t) (hr : Ready c s)
    (ha : Advances s u) : a.Settled c (u.body c).blocks.length t :=
  ⟨h.insts, h.blocks, h.block,
    fun b hb => h.closed b (Nat.le_trans (hr.grows ha).blocks hb), h.globals⟩

theorem Settled.unleave (h : a.Settled c n t.leave) : a.Settled c n t :=
  ⟨h.insts, h.blocks, h.block, h.closed, h.globals⟩

/-- Nothing is left to do. -/
theorem Matches.normal {Q : β → Frame → World → Prop} {r : β} (hf : a.Follows c t σ frame w)
    (hq : Q r frame w) : a.Matches c t t frame w Q (.normal r σ) :=
  ⟨frame, w, .refl _, .refl _ _, hf, hq⟩

theorem Matches.mono {Q R : β → Frame → World → Prop} {r : Result β}
    (h : a.Matches c s t frame w Q r) (hQR : ∀ b frame' w', Q b frame' w' → R b frame' w') :
    a.Matches c s t frame w R r := by
  cases r with
  | undefined => trivial
  | returned v => exact h
  | normal b σ =>
    obtain ⟨frame', w', hreach, hkeeps, hf, hq⟩ := h
    exact ⟨frame', w', hreach, hkeeps, hf, hQR b frame' w' hq⟩

/-- One part of the code after the other. -/
theorem Matches.bind {x : Eval β} {k : β → Eval γ} {Q : β → Frame → World → Prop}
    {R : γ → Frame → World → Prop} (h : a.Matches c s u frame w Q (x σ))
    (hle : (s.body c).insts.length ≤ (u.body c).insts.length)
    (hk : ∀ {r σ' frame' w'}, Keeps (s.body c).insts.length (frame, w) (frame', w') →
      a.Follows c u σ' frame' w' → Q r frame' w' → a.Matches c u t frame' w' R (k r σ')) :
    a.Matches c s t frame w R ((x >>= k) σ) := by
  rw [Eval.bind_apply]
  cases hx : x σ with
  | undefined => trivial
  | returned v =>
    rw [hx] at h
    exact h
  | normal r σ' =>
    rw [hx] at h
    obtain ⟨frame', w', hreach, hkeeps, hf, hq⟩ := h
    have hrest := hk hkeeps hf hq
    simp only
    cases hy : k r σ' with
    | undefined => trivial
    | returned v =>
      rw [hy] at hrest
      exact hreach.returns hrest
    | normal r' σ'' =>
      rw [hy] at hrest
      obtain ⟨frame'', w'', hreach', hkeeps', hf', hq'⟩ := hrest
      exact ⟨frame'', w'', hreach.trans hreach', hkeeps.trans hkeeps' hle, hf', hq'⟩

/-! ### What later instructions leave alone -/

theorem value?_keeps (hc : Current c s frame)
    (hk : Keeps (s.body c).insts.length (frame, w) (frame', w')) (h : a.value? frame v = some val) :
    a.value? frame' v = some val := by
  cases v with
  | inst k => exact (hk.results (hc.results h)).trans h
  | const k => cases k <;> exact h
  | param i => exact h
  | global id => exact h

theorem Denotes.keeps {i : Nat} (h : a.Denotes f frame v i) (hg : f.GrowsAt b g)
    (hk : Keeps f.insts.length (frame, w) (frame', w')) : a.Denotes g frame' v i := by
  cases h with
  | argument h => exact .argument h
  | slot hslot hptr =>
    have hknows := IR.Function.knows_of_slotType hslot
    exact .slot ((hg.slotType hknows).trans hslot) ((hk.results hknows).trans hptr)

/-! ### One instruction -/

section Instruction

variable {op : Op} {ty : Ty} {name : Option String}

/-- The run is about to execute the instruction that is lowered next. -/
theorem fetch (hr : Ready c s) (hinsts : ((s.emit c op ty name).body c).insts <+: a.body.insts)
    (hblock : ((s.emit c op ty name).body c).ids c.block <+: a.body.ids c.block)
    (hc : Current c s frame) :
    ∃ entry, (a.body.blockInsts frame.block)[frame.position]? = some entry ∧
      entry.1 = (s.body c).insts.length ∧ entry.2.op = op := by
  have hbody := body_emit hr op ty name
  have hid : (a.body.ids c.block)[((s.body c).ids c.block).length]?
      = some (s.body c).insts.length := by
    rw [hbody, IR.Function.ids_push_self _ _ _ _ _ hr.block_lt] at hblock
    obtain ⟨rest, hrest⟩ := hblock
    rw [← hrest]
    simp
  have hinst : a.body.insts[(s.body c).insts.length]?
      = some { op, ty, name, block := c.block } := by
    rw [hbody, IR.Function.push_insts] at hinsts
    obtain ⟨rest, hrest⟩ := hinsts
    rw [← hrest]
    simp
  rw [← a.placed.map_blockInsts c.block, List.getElem?_map] at hid
  obtain ⟨entry, hentry, hk⟩ := Option.map_eq_some_iff.mp hid
  refine ⟨entry, ?_, hk, ?_⟩
  · rw [hc.block, hc.position]
    exact hentry
  · have hmem := (a.placed.mem_blockInsts.mp (List.mem_of_getElem? hentry)).1
    rw [hk, hinst] at hmem
    rw [← Option.some.inj hmem]

/-- Neither the scope nor the memory changes. -/
theorem Represents.step (h : a.Represents c s σ frame w) (hr : Ready c s) (ha : Advances s t)
    (hscopes : t.scopes = s.scopes)
    (hk : Keeps (s.body c).insts.length (frame, w) (frame', w')) (hmem : w'.memory = w.memory) :
    a.Represents c t σ frame' w' where
  arguments := h.arguments
  enough := h.enough
  length := by rw [hmem, h.length]
  memory := by
    intro j v hj
    rw [hmem]
    exact h.memory hj
  names := by
    intro x i hx
    obtain ⟨hlt, v, hv, hden⟩ := h.names hx
    exact ⟨hlt, v, by rw [hscopes, hv], hden.keeps (hr.grows ha) hk⟩

/-- An instruction that only has a result. -/
theorem Matches.instruction {Q : β → Frame → World → Prop} {r : β} (hr : Ready c s)
    (hset : a.Settled c n (s.emit c op ty name)) (hf : a.Follows c s σ frame w)
    (hterm : op.isTerminator = false)
    (hop : ∀ invoke, perform a.prims a.code invoke a.args frame w op = some (.result val, w))
    (hq : Q r (frame.record (s.body c).insts.length val) w) :
    a.Matches c s (s.emit c op ty name) frame w Q (.normal r σ) := by
  obtain ⟨entry, hentry, hid, hentryOp⟩ := fetch hr hset.insts hset.block hf.current
  have hreach : a.Reaches (frame, w) (frame.record entry.1 val, w) :=
    reaches_result hentry (by rw [hentryOp]; exact hop)
  rw [hid] at hreach
  have hkeeps : Keeps (s.body c).insts.length (frame, w)
      (frame.record (s.body c).insts.length val, w) := keeps_record s c frame val (Nat.le_refl _)
  refine ⟨_, w, hreach, hkeeps, ⟨hf.current.emit hr hterm ty name val, ?_⟩, hq⟩
  exact hf.represents.step hr (advances_emit hr.opened op ty name) rfl hkeeps rfl

end Instruction

/-! ### Operands -/

/-- A lowered operand has the value of the evaluation. -/
def HasValue (a : Activation) (_ : IR.Function) (frame : Frame) (_ : World) (v : Value)
    (val : Val) :
    Prop :=
  a.value? frame v = some val

/-- If the evaluation has a value, so has the lowering, and it stands for that value. -/
def CarriesAny (a : Activation) (f : IR.Function) (frame : Frame) (w : World) (r : Option Value)
    (val : Option Val) : Prop :=
  ∀ x, val = some x → ∃ v, r = some v ∧ a.Carries f frame w v x

section Constructs

variable {x y z : LowerM (Option Value)} {e e' e'' : Eval (Option Val)}

theorem simulates_operand (hx : a.Simulates x e a.CarriesAny) (hy : Yields x) (context : String) :
    a.Simulates (operand context x) e.needed a.HasValue := by
  constructor
  intro c s t r σ frame w hr h hset hf
  obtain ⟨v, u, hok, hmat⟩ := operand_succeeds h
  have ha := (hy s hr.valid).advances hr.valid hok
  have hru := hr.advances ha
  obtain ⟨d, hd, hcases⟩ := materialize_succeeds hmat
  obtain rfl := hd.unique hru.opened
  have hload : Advances u t := by
    rcases hcases with ⟨-, -, rfl⟩ | ⟨ty, -, -, rfl⟩
    · exact .refl t
    · exact advances_emit hd _ _ _
  refine (hx.run hr hok (hset.before hru hload hr.block_lt) hf).bind
    (hr.grows ha).insts.length_le ?_
  intro val σ' frame' w' _ hf' hcarries
  cases val with
  | none => trivial
  | some val =>
    obtain ⟨_, ⟨⟩, hcarry⟩ := hcarries val rfl
    show a.Matches d u t frame' w' _ (.normal val σ')
    rcases hcases with ⟨hslot, rfl, rfl⟩ | ⟨ty, hslot, rfl, rfl⟩
    · cases hcarry with
      | direct _ hval => exact .normal hf' hval
      | stored hslot' =>
        rw [hslot'] at hslot
        cases hslot
    · cases hcarry with
      | direct hslot' =>
        rw [hslot'] at hslot
        cases hslot
      | stored _ hptr hcell =>
        refine .instruction hru hset hf' rfl ?_ (lookup_record_self _ _ val)
        intro invoke
        simp [perform, Frame.value?, hptr, hcell]

/-- The name of a variable stands for its slot, and that of a parameter for the argument. -/
theorem simulates_lowerIdent (name : String) :
    a.Simulates (do return some (← lowerIdent name)) (evalIdent name) a.CarriesAny := by
  constructor
  intro c s t r σ frame w hr h hset hf
  obtain ⟨v, u, hident, hend⟩ := (outcome_bind_eq_ok s).mp h
  obtain ⟨hname, rfl⟩ := lowerIdent_succeeds hident
  cases hend
  rw [evalIdent, Eval.cell_bind]
  cases hcell : σ.scope.lookup name with
  | none => trivial
  | some i =>
    refine .normal hf ?_
    intro val hval
    obtain ⟨-, v', hv', hden⟩ := hf.represents.names hcell
    rw [hname] at hv'
    cases hv'
    have hcontent : σ.cells[i]? = some (some val) := by
      simpa [Option.join_eq_some_iff] using hval
    refine ⟨v, rfl, ?_⟩
    cases hden with
    | argument hlt =>
      rw [hf.represents.arguments i hlt] at hcontent
      exact .direct rfl (show a.args[i]? = some val by simpa using hcontent)
    | slot hslot hptr => exact .stored hslot hptr (hf.represents.memory hcontent)

theorem simulates_const (k : IR.Const) (hval : a.value? {} (.const k) = some val) :
    a.Simulates (pure (some (.const k))) (pure (some val)) a.CarriesAny := by
  constructor
  intro c s t r σ frame w hr h hset hf
  cases h
  refine .normal hf ?_
  rintro _ ⟨⟩
  refine ⟨_, rfl, .direct rfl ?_⟩
  cases k <;> exact hval

/-- The text of a string literal is a string of the module. -/
theorem simulates_string (raw : String) :
    a.Simulates (do return some (← addGlobalString "str" (literalText raw)))
      (pure (some (.str (literalText raw)))) a.CarriesAny := by
  constructor
  intro c s t r σ frame w hr h hset hf
  rw [outcome_bind_ok s _ (outcome_addGlobalString _ _)] at h
  cases h
  have ha : Advances s { s with code := (s.code.addGlobalString "str" (literalText raw)).2 } :=
    .ofCode (.string _ _ _ _)
  have hrep := hf.represents.step hr ha rfl (.refl _ (frame, w)) rfl
  refine ⟨frame, w, .refl _, .refl _ _, ⟨hf.current.congr rfl rfl, hrep⟩, ?_⟩
  rintro _ ⟨⟩
  refine ⟨_, rfl, .direct rfl ?_⟩
  obtain ⟨rest, hrest⟩ := hset.globals
  show a.code.globals[s.code.globals.length]?.map _ = _
  rw [← hrest]
  simp [IR.Module.addGlobalString]

/-! ### Operators -/

/-- What a lowered operator does. -/
def applyLowered (p : Primitives) : LoweredOp → Val → Val → Option Val
  | .arith op => p.arith op
  | .compare pred => p.compare pred

theorem applyLowered_eq {p : Primitives} {op : BinOp} {lowered : LoweredOp}
    (h : lowerOp op = some lowered) (x y : Val) :
    applyLowered p lowered x y = applyOp p op x y := by
  cases op <;> cases h <;> cases x <;> cases y <;> rfl

/-- A result that is no address is its own value. -/
theorem carries_result (hr : Ready c s) {op : Op} (hop : ∀ ty, op ≠ .alloca ty) (ty : Ty)
    (name : Option String) (h : frame.results.lookup (s.body c).insts.length = some val) :
    a.Carries ((s.emit c op ty name).body c) frame w (.inst (s.body c).insts.length) val := by
  refine .direct ?_ h
  rcases hslot : ((s.emit c op ty name).body c).slotType (.inst (s.body c).insts.length)
    with _ | ty'
  · rfl
  · obtain ⟨k, i, ⟨⟩, hk, halloca⟩ := IR.Function.slotType_eq_some_iff.mp hslot
    rw [getElem?_emit hr.func_lt] at hk
    cases hk
    exact absurd halloca (hop ty')

theorem simulates_lowerBinary (hx : a.Simulates x e a.CarriesAny)
    (hy : a.Simulates y e' a.CarriesAny) (hxy : Yields x) (hyy : Yields y) (op : BinOp) :
    a.Simulates (lowerBinary op x y) (evalBinary a.prims op e e') a.Carries := by
  constructor
  intro c s t r σ frame w hr h hset hf
  obtain ⟨lhs, u, rhs, u', lowered, d, hl, hright, hop, hd, rfl, rfl⟩ := lowerBinary_succeeds h
  have ha := (walks_operand hxy hr.valid _).advances hr.valid hl
  have hru := hr.advances ha
  have ha' := (walks_operand hyy hru.valid _).advances hru.valid hright
  have hru' := hru.advances ha'
  obtain rfl := hd.unique hru'.opened
  have hemit := advances_emit hd (lowered.inst (u'.body d) lhs rhs).1
    (lowered.inst (u'.body d) lhs rhs).2 none
  refine ((simulates_operand hx hxy _).run hr hl
    (hset.before hru (ha'.trans hemit) hr.block_lt) hf).bind (hr.grows ha).insts.length_le ?_
  intro va σ₁ frame₁ w₁ _ hf₁ hva
  refine ((simulates_operand hy hyy _).run hru hright
    ((hset.after hr ha).before hru' hemit hru.block_lt) hf₁).bind (hru.grows ha').insts.length_le ?_
  intro vb σ₂ frame₂ w₂ hkeeps hf₂ hvb
  have hva' : frame₂.value? a.code a.args lhs = some va := value?_keeps hf₁.current hkeeps hva
  have hvb' : frame₂.value? a.code a.args rhs = some vb := hvb
  have happly := applyLowered_eq (p := a.prims) hop va vb
  cases hval : applyOp a.prims op va vb with
  | none => trivial
  | some val =>
    rw [hval] at happly
    show a.Matches d u' _ frame₂ w₂ _ (.normal val σ₂)
    cases lowered with
    | arith op' =>
      refine .instruction hru' hset hf₂ rfl ?_
        (carries_result hru' (by simp [LoweredOp.inst]) _ none (lookup_record_self _ _ _))
      intro invoke
      have harith : a.prims.arith op' va vb = some val := happly
      simp [LoweredOp.inst, perform, hva', hvb', harith]
    | compare pred =>
      refine .instruction hru' hset hf₂ rfl ?_
        (carries_result hru' (by simp [LoweredOp.inst]) _ none (lookup_record_self _ _ _))
      intro invoke
      have hcompare : a.prims.compare pred va vb = some val := happly
      simp [LoweredOp.inst, perform, hva', hvb', hcompare]

/-! ### Variables -/

/-- Storing into the memory cell of a variable is writing to the variable. -/
theorem Represents.write {j : Nat} (h : a.Represents c s σ frame w)
    (hcell : a.base + j < w.memory.length) (val : Val) :
    a.Represents c s { σ with cells := σ.cells.set (a.args.length + j) (some val) } frame
      { w with memory := w.memory.set (a.base + j) val } where
  arguments := by
    intro i hi
    rw [List.getElem?_set_ne (by omega)]
    exact h.arguments i hi
  enough := by
    rw [List.length_set]
    exact h.enough
  length := by
    rw [List.length_set, List.length_set]
    exact h.length
  memory := by
    intro j' v hv
    by_cases hj : j' = j
    · subst hj
      have hlt : a.args.length + j' < σ.cells.length := by
        have hlen := h.length
        omega
      rw [List.getElem?_set_self hlt] at hv
      rw [List.getElem?_set_self hcell]
      simpa using hv
    · rw [List.getElem?_set_ne (by omega)] at hv
      rw [List.getElem?_set_ne (by omega)]
      exact h.memory hv
  names := by
    intro x i hx
    rw [List.length_set]
    exact h.names hx

/-- The code of an assignment, once its slot is known. -/
theorem matches_assignTo (hx : a.Simulates x e a.CarriesAny) (hxy : Yields x) (hr : Ready c s)
    {slot : Value} {i : Nat} {ty : Ty} (hslot : (s.body c).slotType slot = some ty)
    (hden : a.Denotes (s.body c) frame slot i)
    (hlt : i + a.base < w.memory.length + a.args.length)
    (hok : outcome (operand "assigned value" x) s = (.ok v, u))
    (hset : a.Settled c (s.body c).blocks.length (u.emit c (.store v slot true) .void none))
    (hf : a.Follows c s σ frame w) :
    a.Matches c s (u.emit c (.store v slot true) .void none) frame w
      (fun val frame' w' =>
        a.Carries ((u.emit c (.store v slot true) .void none).body c) frame' w' slot val ∧
          a.Carries ((u.emit c (.store v slot true) .void none).body c) frame' w'
            (.inst (u.body c).insts.length) .void) (assignTo i e σ) := by
  have ha := (walks_operand hxy hr.valid _).advances hr.valid hok
  have hru := hr.advances ha
  have hemit := advances_emit hru.opened (.store v slot true) .void none
  refine ((simulates_operand hx hxy _).run hr hok (hset.before hru hemit hr.block_lt) hf).bind
    (hr.grows ha).insts.length_le ?_
  intro val σ' frame' w' hkeeps hf' hval
  show a.Matches c u _ frame' w' _ (.normal val { σ' with cells := σ'.cells.set i (some val) })
  cases hden with
  | argument => simp [IR.Function.slotType] at hslot
  | @slot k j ty' _ hptr =>
    have hknows := IR.Function.knows_of_slotType hslot
    have hptr' : frame'.results.lookup k = some (.ptr (a.base + j)) :=
      (hkeeps.results hknows).trans hptr
    have hcell : a.base + j < w'.memory.length := by
      have hle : w.memory.length ≤ w'.memory.length := hkeeps.memory
      omega
    have hval' : frame'.value? a.code a.args v = some val := hval
    have hslot' : frame'.value? a.code a.args (.inst k) = some (.ptr (a.base + j)) := hptr'
    obtain ⟨entry, hentry, hid, hop⟩ := fetch hru hset.insts hset.block hf'.current
    have hreach : a.Reaches (frame', w') (frame'.record entry.1 .void,
        { w' with memory := w'.memory.set (a.base + j) val }) := by
      refine reaches_result hentry ?_
      intro invoke
      simp [hop, perform, hval', hslot', hcell]
    rw [hid] at hreach
    have hrep := (hf'.represents.write hcell val).step hru hemit rfl
      (keeps_record u c frame' .void (Nat.le_refl _)) rfl
    refine ⟨_, _, hreach, keeps_record u c frame' .void (by simp),
      ⟨hf'.current.emit hru rfl .void none .void, hrep⟩, ?_, ?_⟩
    · refine .stored (((hr.grows ha).trans (hru.grows hemit)).slotType hknows |>.trans hslot)
        ((lookup_record_ne ?_ _ _).trans hptr') (by simp [hcell])
      exact Nat.ne_of_lt (Nat.lt_of_lt_of_le hknows (hr.grows ha).insts.length_le)
    · exact carries_result hru (by simp) .void none (lookup_record_self _ _ _)

theorem simulates_lowerAssign (hx : a.Simulates x e a.CarriesAny) (hxy : Yields x)
    (target : String) :
    a.Simulates (lowerAssign target x) (evalAssign target e) a.Carries := by
  constructor
  intro c s t r σ frame w hr h hset hf
  obtain ⟨slot, c', ty, v, u, d, hname, hc', hslot, hok, hd, rfl, rfl⟩ := lowerAssign_succeeds h
  obtain rfl := hc'.unique hr.opened
  have ha := (walks_operand hxy hr.valid _).advances hr.valid hok
  obtain rfl := hd.unique (ha.at_iff.mpr hc')
  rw [evalAssign, Eval.cell_bind]
  cases hcell : σ.scope.lookup target with
  | none => trivial
  | some i =>
    obtain ⟨hlt, slot', hslot', hden⟩ := hf.represents.names hcell
    rw [hname] at hslot'
    cases hslot'
    have hlt' : i + a.base < w.memory.length + a.args.length := by
      have hlen := hf.represents.length
      omega
    refine (matches_assignTo hx hxy hr hslot hden hlt' hok hset hf).bind ?_ ?_
    · exact (hr.grows (ha.trans (advances_emit hd _ _ _))).insts.length_le
    · intro val σ' frame' w' _ hf' hq
      exact .normal hf' hq.2

/-- A new variable has a memory cell of its own. -/
theorem Represents.declare {node : NodeId} {ty : Ty} {name : String}
    (h : a.Represents c s σ frame w) (hr : Ready c s)
    (hk : Keeps (s.body c).insts.length (frame, w) (frame', w'))
    (hmem : w'.memory = w.memory ++ [.void])
    (hden : a.Denotes ((s.declareVariable c node ty name).body c) frame'
      (.inst (s.body c).insts.length) σ.cells.length) :
    a.Represents c (s.declareVariable c node ty name)
      { scope := (name, σ.cells.length) :: σ.scope, cells := σ.cells ++ [none] } frame' w' where
  arguments := by
    intro i hi
    rw [List.getElem?_append_left (Nat.lt_of_lt_of_le hi h.enough)]
    exact h.arguments i hi
  enough := by
    have hle := h.enough
    simp only [List.length_append]
    omega
  length := by
    have hlen := h.length
    simp only [hmem, List.length_append, List.length_singleton]
    omega
  memory := by
    intro j v hj
    rcases Nat.lt_or_ge (a.args.length + j) σ.cells.length with hlt | hge
    · rw [List.getElem?_append_left hlt] at hj
      have hold := h.memory hj
      rw [hmem, List.getElem?_append_left (List.getElem?_eq_some_iff.mp hold).1]
      exact hold
    · -- The last cell is empty, and there is none after it.
      rw [List.getElem?_append_right hge] at hj
      rcases Nat.eq_zero_or_pos (a.args.length + j - σ.cells.length) with hzero | hpos
      · simp [hzero] at hj
      · rw [List.getElem?_eq_none (by simp only [List.length_singleton]; omega)] at hj
        cases hj
  names := by
    intro x i hx
    rw [resolve_declareVariable hr.opened]
    simp only [List.length_append, List.length_singleton]
    rw [List.lookup_cons] at hx
    by_cases hname : x = name
    · obtain rfl : σ.cells.length = i := by simpa [hname] using hx
      exact ⟨Nat.lt_succ_self _, _, if_pos hname, hden⟩
    · have hne : (x == name) = false := by simpa using hname
      simp only [hne] at hx
      obtain ⟨hlt, v, hv, hden'⟩ := h.names hx
      refine ⟨Nat.lt_succ_of_lt hlt, v, by rw [if_neg hname, hv], ?_⟩
      exact hden'.keeps (hr.grows (advances_declareVariable hr.opened node ty name)) hk

/-- A new slot is the memory cell of the new variable. -/
theorem matches_declare {node : NodeId} {ty : Ty} {name : String} (hr : Ready c s)
    (hset : a.Settled c n (s.declareVariable c node ty name)) (hf : a.Follows c s σ frame w) :
    a.Matches c s (s.declareVariable c node ty name) frame w
      (fun i frame' w' => i + a.base < w'.memory.length + a.args.length ∧
        a.Denotes ((s.declareVariable c node ty name).body c) frame'
          (.inst (s.body c).insts.length) i) (Eval.declare name σ) := by
  have hbody : (s.declareVariable c node ty name).body c
      = (s.emit c (.alloca ty) .ptr (some name)).body c := by
    rw [Lowerer.body, Lowerer.declareVariable, bindName_code]
    rfl
  have hset' : a.Settled c n (s.emit c (.alloca ty) .ptr (some name)) := by
    obtain ⟨hinsts, hblocks, hblock, hclosed, hglobals⟩ := hset
    rw [hbody] at hinsts hblocks hblock hclosed
    rw [Lowerer.declareVariable, bindName_code] at hglobals
    exact ⟨hinsts, hblocks, hblock, hclosed, hglobals⟩
  obtain ⟨entry, hentry, hid, hop⟩ := fetch hr hset'.insts hset'.block hf.current
  have hreach : a.Reaches (frame, w) (frame.record entry.1 (.ptr w.memory.length),
      { w with memory := w.memory ++ [.void] }) := by
    refine reaches_result hentry ?_
    intro invoke
    rw [hop]
    rfl
  rw [hid] at hreach
  have hkeeps : Keeps (s.body c).insts.length (frame, w)
      (frame.record (s.body c).insts.length (.ptr w.memory.length),
        { w with memory := w.memory ++ [.void] }) :=
    keeps_record s c frame _ (by simp)
  obtain ⟨j, hj⟩ : ∃ j, σ.cells.length = a.args.length + j :=
    Nat.exists_eq_add_of_le hf.represents.enough
  have hlen := hf.represents.length
  have hcell : w.memory.length = a.base + j := by omega
  have hden : a.Denotes ((s.declareVariable c node ty name).body c)
      (frame.record (s.body c).insts.length (.ptr w.memory.length))
      (.inst (s.body c).insts.length) σ.cells.length := by
    have hslot : ((s.emit c (.alloca ty) .ptr (some name)).body c).slotType
        (.inst (s.body c).insts.length) = some ty :=
      IR.Function.slotType_eq_some_iff.mpr ⟨_, _, rfl, getElem?_emit hr.func_lt _ _ _, rfl⟩
    rw [hj, hbody]
    exact .slot hslot (by rw [lookup_record_self, hcell])
  refine ⟨_, _, hreach, hkeeps, ⟨?_, ?_⟩, ?_, hden⟩
  · exact (hf.current.emit hr rfl .ptr (some name) _).congr (by rw [hbody]) (by rw [hbody])
  · exact hf.represents.declare hr hkeeps rfl hden
  · simp only [List.length_append, List.length_singleton]
    omega

theorem simulates_lowerVar (hx : a.Simulates x e a.CarriesAny) (hxy : Yields x) (node : NodeId)
    (ty name : String) : a.Simulates (lowerVar node ty name x) (evalVar name e) a.Carries := by
  constructor
  intro c s t r σ frame w hr h hset hf
  obtain ⟨c', r', hc', rfl, hassign⟩ := lowerVar_succeeds h
  obtain rfl := hc'.unique hr.opened
  have ha := advances_declareVariable hc' node (typeOf ty) name
  have hrs := hr.advances ha
  obtain ⟨slot, c', ty', v, u, d, hname, hc₁, hslot, hok, hd, rfl, rfl⟩ :=
    lowerAssign_succeeds hassign
  obtain rfl := hc₁.unique hrs.opened
  have ha' := (walks_operand hxy hrs.valid _).advances hrs.valid hok
  obtain rfl := hd.unique (ha'.at_iff.mpr hc₁)
  have hemit := advances_emit hd (.store v slot true) .void none
  obtain rfl : slot = .inst (s.body d).insts.length := by
    rw [resolve_declareVariable hc'] at hname
    simpa using hname.symm
  refine (matches_declare hr (hset.before hrs (ha'.trans hemit) hr.block_lt) hf).bind
    (hr.grows ha).insts.length_le ?_
  intro i σ' frame' w' _ hf' hq
  refine (matches_assignTo hx hxy hrs hslot hq.2 hq.1 hok (hset.after hr ha) hf').mono ?_
  intro val frame'' w'' hq'
  exact hq'.1

/-! ### Returns -/

/-- A return with a value ends the run with it. -/
theorem simulates_lowerReturn {V : IR.Function → Frame → World → Value → Val → Prop}
    (hx : a.Simulates x e a.CarriesAny) (hxy : Yields x) :
    a.Simulates (lowerReturn (some x)) (evalReturn (some e)) V := by
  constructor
  intro c s t r σ frame w hr h hset hf
  obtain ⟨v, u, d, hok, hd, -, rfl⟩ := lowerReturn_succeeds h
  have ha := (walks_operand hxy hr.valid _).advances hr.valid hok
  have hru := hr.advances ha
  obtain rfl := hd.unique hru.opened
  have hemit := advances_emit hd (.ret (some v)) .void none
  refine ((simulates_operand hx hxy _).run hr hok (hset.before hru hemit hr.block_lt) hf).bind
    (hr.grows ha).insts.length_le ?_
  intro val σ' frame' w' _ hf' hval
  obtain ⟨entry, hentry, -, hop⟩ := fetch hru hset.insts hset.block hf'.current
  have hval' : frame'.value? a.code a.args v = some val := hval
  have hdone : ∀ invoke, perform a.prims a.code invoke a.args frame' w' entry.2.op
      = some (.done val, w') := by
    intro invoke
    simp [hop, perform, hval']
  exact returns_done hentry hdone

/-- A return without a value that is about to be executed. -/
theorem returns_none (hr : Ready c s)
    (hinsts : ((s.emit c (.ret none) .void none).body c).insts <+: a.body.insts)
    (hblock : ((s.emit c (.ret none) .void none).body c).ids c.block <+: a.body.ids c.block)
    (hc : Current c s frame) : a.Returns (frame, w) .void := by
  obtain ⟨entry, hentry, -, hop⟩ := fetch hr hinsts hblock hc
  have hdone : ∀ invoke, perform a.prims a.code invoke a.args frame w entry.2.op
      = some (.done .void, w) := by
    intro invoke
    rw [hop]
    rfl
  exact returns_done hentry hdone

theorem simulates_lowerReturn_none {V : IR.Function → Frame → World → Value → Val → Prop} :
    a.Simulates (lowerReturn none) (evalReturn none) V := by
  constructor
  intro c s t r σ frame w hr h hset hf
  obtain ⟨d, hd, -, rfl⟩ := lowerReturn_none_succeeds h
  obtain rfl := hd.unique hr.opened
  exact returns_none hr hset.insts hset.block hf.current

/-! ### Conditionals -/

/-- A region does not come to its end if nothing is added to its block any more: the block would
have no terminator. -/
theorem Follows.not_finished (h : a.Follows c t σ frame w)
    (hblock : c.block < a.body.blocks.length) (hids : a.body.ids c.block = (t.body c).ids c.block)
    (hinsts : (t.body c).insts <+: a.body.insts) : False := by
  obtain ⟨entry, hentry, hterm⟩ := a.ended hblock
  obtain ⟨hinst, hin⟩ := a.placed.mem_blockInsts.mp hentry
  have hmem : entry.1 ∈ (t.body c).ids c.block := by
    rw [← hids, ← hin]
    exact a.placed.placed hinst
  obtain ⟨i, hi, hrun⟩ := h.current.running entry.1 hmem
  have hlt := (List.getElem?_eq_some_iff.mp hi).1
  have hsame : a.body.insts[entry.1]? = some i := by
    rw [List.prefix_iff_getElem?.mp hinsts entry.1 hlt, ← List.getElem?_eq_getElem hlt, hi]
  rw [hinst] at hsame
  rw [Option.some.inj hsame, hrun] at hterm
  cases hterm

/-- The arm of a conditional starts with the variables of the scope around it. -/
theorem Follows.enter {o : Lowerer} {arm : BlockId} (h : a.Follows c s σ frame w)
    (hg : (s.body c).GrowsAt b (o.body c)) (hempty : (o.body c).ids arm = [])
    (hresolve : o.scopes.resolve = s.scopes.resolve) :
    a.Follows { c with block := arm } o σ (frame.jump arm) w where
  current := by
    have hids : (o.body { c with block := arm }).ids arm = [] := hempty
    refine ⟨rfl, ?_, ?_, ?_⟩
    · show 0 = ((o.body { c with block := arm }).ids arm).length
      rw [hids]
      rfl
    · show ∀ k ∈ (o.body { c with block := arm }).ids arm, _
      rw [hids]
      simp
    · intro k v hk
      exact Nat.lt_of_lt_of_le (h.current.results hk) hg.insts.length_le
  represents := by
    refine ⟨h.represents.arguments, h.represents.enough, h.represents.length,
      h.represents.memory, ?_⟩
    intro x i hx
    obtain ⟨hlt, v, hv, hden⟩ := h.represents.names hx
    have hkeeps : Keeps (s.body c).insts.length (frame, w) (frame.jump arm, w) :=
      ⟨fun _ => rfl, Nat.le_refl _⟩
    exact ⟨hlt, v, by rw [hresolve, hv], hden.keeps hg hkeeps⟩

/-- An arm either has no meaning or ends the function. -/
theorem arm_returns (hx : a.Simulates x e a.CarriesAny) (hxy : Yields x) (hr : Ready c s)
    {r : Option Value} (hok : outcome x s = (.ok r, t))
    (hset : a.Settled c (s.body c).blocks.length t)
    (hids : a.body.ids c.block = (t.body c).ids c.block) (hf : a.Follows c s σ frame w) :
    e.inCopy σ = .undefined ∨ ∃ v, e.inCopy σ = .returned v ∧ a.Returns (frame, w) v := by
  have hrun := hx.run hr hok hset hf
  unfold Eval.inCopy
  cases he : e σ with
  | undefined => exact .inl rfl
  | returned v =>
    rw [he] at hrun
    exact .inr ⟨v, rfl, hrun⟩
  | normal val σ' =>
    rw [he] at hrun
    obtain ⟨frame', w', -, -, hf', -⟩ := hrun
    have hle := (hr.grows ((hxy s hr.valid).advances hr.valid hok)).blocks
    have hlt := Nat.lt_of_lt_of_le hr.block_lt (Nat.le_trans hle hset.blocks)
    exact (hf'.not_finished hlt hids hset.insts).elim

theorem Matches.of_arm {Q : β → Frame → World → Prop} {r : Result β}
    (hreach : a.Reaches (frame, w) (frame', w))
    (h : r = .undefined ∨ ∃ v, r = .returned v ∧ a.Returns (frame', w) v) :
    a.Matches c s t frame w Q r := by
  rcases h with rfl | ⟨v, rfl, hret⟩
  · trivial
  · exact hreach.returns hret

/-- The arms of a conditional are empty when it branches to them. -/
theorem ids_fork (hr : Ready c s) (cond : Value) (hb : s.nextBlock c ≤ b) :
    ((s.fork c cond).body c).ids b = [] := by
  have hne : b ≠ c.block := Nat.ne_of_gt (Nat.lt_of_lt_of_le hr.block_lt hb)
  rw [body_fork hr.func_lt, IR.Function.ids_push_ne _ _ _ _ _ hne, IR.Function.ids_createBlock,
    IR.Function.ids_createBlock]
  exact IR.Function.ids_of_length_le hb

/-- The branch of a conditional goes to the arm that the condition says. -/
theorem reaches_arm {cond : Value} {holds : Bool} (hr : Ready c s)
    (hinsts : ((s.fork c cond).body c).insts <+: a.body.insts)
    (hblock : ((s.fork c cond).body c).ids c.block <+: a.body.ids c.block)
    (hc : Current c s frame) (hcond : a.HasValue (s.body c) frame w cond (.bool holds)) :
    a.Reaches (frame, w)
      (frame.jump (if holds then s.nextBlock c else s.nextBlock c + 1), w) := by
  have hblocks := body_addArms hr.func_lt
  have hc' : Current c ((s.addBlock c.func "then").addBlock c.func "else") frame :=
    hc.congr (by rw [hblocks]; simp) (by rw [hblocks]; simp)
  obtain ⟨entry, hentry, -, hop⟩ :=
    fetch (hr.advances (advances_addArms hr.opened)) hinsts hblock hc'
  have hval : frame.value? a.code a.args cond = some (.bool holds) := hcond
  refine reaches_jump hentry ?_
  intro invoke
  cases holds <;> simp [hop, perform, hval]

/-- What is known of the two arms of a conditional at the end of it.  The first arm is as the second
found it, and both are as they will be in the finished function. -/
structure Arms (a : Activation) (c : Cursor) (s t₁ t₂ : Lowerer) (cond : Value) : Prop where
  thenSettled : a.Settled (s.nextCursor c) ((s.fork c cond).body c).blocks.length t₁
  thenIds : a.body.ids (s.nextBlock c) = (t₁.body c).ids (s.nextBlock c)
  elseSettled : a.Settled { c with block := s.nextBlock c + 1 } (t₁.body c).blocks.length t₂
  elseIds : a.body.ids (s.nextBlock c + 1) = (t₂.body c).ids (s.nextBlock c + 1)
  elseEmpty : (t₁.body c).ids (s.nextBlock c + 1) = []
  insts : ((s.fork c cond).body c).insts <+: a.body.insts
  block : ((s.fork c cond).body c).ids c.block <+: a.body.ids c.block

theorem arms {t₁ t₂ : Lowerer} {cond : Value} (hr : Ready c s)
    (h₁ : Advances ((s.fork c cond).enter (s.nextCursor c)) t₁)
    (h₂ : Advances (t₁.leave.enter { c with block := s.nextBlock c + 1 }) t₂)
    (hset : a.Settled c (s.nextBlock c) t₂) : a.Arms c s t₁ t₂ cond := by
  have ho := opens_then hr.valid hr.opened cond
  have ho' := opens_else hr.valid hr.opened h₁
  have hlen : ((s.fork c cond).body c).blocks.length = s.nextBlock c + 2 :=
    fork_blocks hr.func_lt cond
  have hg₁ : ((s.fork c cond).body c).GrowsAt (s.nextBlock c) (t₁.body c) := by
    have hg := h₁.body (ho.valid hr.valid) ho.opened
    rw [body_enter] at hg
    exact hg
  have hg₂ : (t₁.body c).GrowsAt (s.nextBlock c + 1) (t₂.body c) := by
    have hg := h₂.body (ho'.valid hr.valid) ho'.opened
    rw [body_enter] at hg
    exact hg
  have hglobals : t₁.code.globals <+: t₂.code.globals := by
    have hg := h₂.code.globals
    rw [enter_code] at hg
    exact hg
  have hle₁ := hg₁.blocks
  have hle₂ := hg₂.blocks
  rw [hlen] at hle₁
  have hthen : a.body.ids (s.nextBlock c) = (t₁.body c).ids (s.nextBlock c) := by
    rw [hset.closed _ (Nat.le_refl _) (by omega), hg₂.others _ (by omega) (by omega)]
  have helse : a.body.ids (s.nextBlock c + 1) = (t₂.body c).ids (s.nextBlock c + 1) :=
    hset.closed _ (Nat.le_succ _) (by omega)
  refine ⟨⟨hg₂.insts.trans hset.insts, Nat.le_trans hle₂ hset.blocks, ?_, ?_,
    hglobals.trans hset.globals⟩, hthen, ⟨hset.insts, hset.blocks, ?_, ?_, hset.globals⟩, helse, ?_,
    (hg₁.insts.trans hg₂.insts).trans hset.insts, ((hg₁.ids _).trans (hg₂.ids _)).trans hset.block⟩
  · exact hthen ▸ List.prefix_refl _
  · intro b hb hlt
    rw [hlen] at hb
    have hlt' : b < (t₁.body c).blocks.length := hlt
    rw [hset.closed b (by omega) (by omega),
      hg₂.others b hlt' (by omega)]
    rfl
  · exact helse ▸ List.prefix_refl _
  · intro b hb hlt
    exact hset.closed b (by omega) hlt
  · rw [hg₁.others _ (by omega) (by omega)]
    exact ids_fork hr cond (Nat.le_succ _)

/-- **A conditional does what its condition says**, and ends the function if it has a meaning. -/
theorem simulates_lowerIf {V : IR.Function → Frame → World → Unit → Unit → Prop}
    (hx : a.Simulates x e a.CarriesAny) (hy : a.Simulates y e' a.CarriesAny)
    (hz : a.Simulates z e'' a.CarriesAny) (hxy : Yields x) (hyy : Yields y) (hzy : Yields z) :
    a.Simulates (lowerIf x y z) (evalIf e e' e'') V := by
  constructor
  intro c s t r σ frame w hr h hset hf
  obtain ⟨cond, u, d, r₁, t₁, r₂, t₂, hcond, hd, hthen, helse, rfl⟩ :=
    lowerIf_succeeds hxy hr.valid h
  have ha := (walks_operand hxy hr.valid _).advances hr.valid hcond
  have hru := hr.advances ha
  obtain rfl := hd.unique hru.opened
  have ho := opens_then hru.valid hd cond
  have h₁ := (hyy _ (ho.valid hru.valid)).advances (ho.valid hru.valid) hthen
  have ho' := opens_else hru.valid hd h₁
  have h₂ := (hzy _ (ho'.valid hru.valid)).advances (ho'.valid hru.valid) helse
  have harms := arms hru h₁ h₂ (hset.after hr ha).unleave
  refine ((simulates_operand hx hxy _).run hr hcond
    (hset.before hru (ho'.close h₂) hr.block_lt) hf).bind
    (hr.grows ha).insts.length_le ?_
  intro val σ' frame' w' _ hf' hval
  cases val with
  | bool holds =>
    have hreach := reaches_arm hru harms.insts harms.block hf'.current hval
    cases holds with
    | true =>
      refine .of_arm hreach (arm_returns hy hyy (hru.opens ho) hthen ?_ harms.thenIds ?_)
      · rw [body_enter]
        exact harms.thenSettled
      · have hresolve : ((u.fork d cond).enter (u.nextCursor d)).scopes.resolve
            = u.scopes.resolve :=
          resolve_enter ((advances_fork hd cond).at_iff.mpr hd) _
        refine hf'.enter (b := d.block) ?_ ?_ hresolve
        · rw [body_enter]
          exact hru.grows (advances_fork hd cond)
        · rw [body_enter]
          exact ids_fork hru cond (Nat.le_refl _)
    | false =>
      refine .of_arm hreach (arm_returns hz hzy (hru.opens ho') helse ?_ harms.elseIds ?_)
      · rw [body_enter]
        exact harms.elseSettled
      · refine hf'.enter (b := d.block) ?_ ?_ ?_
        · rw [body_enter]
          exact hru.grows (ho.close h₁)
        · rw [body_enter]
          exact harms.elseEmpty
        · rw [resolve_enter ((ho.close h₁).at_iff.mpr hd), ho.leave_scopes h₁]
  | _ => trivial

end Constructs

/-! ### The walk -/

theorem Matches.map {Q : β → Frame → World → Prop} {R : γ → Frame → World → Prop} {e : Eval β}
    {k : β → γ} (h : a.Matches c s t frame w Q (e σ))
    (hQR : ∀ b frame' w', Q b frame' w' → R (k b) frame' w') :
    a.Matches c s t frame w R ((do return k (← e) : Eval γ) σ) := by
  rw [Eval.bind_apply]
  cases he : e σ with
  | undefined => trivial
  | returned v =>
    rw [he] at h
    exact h
  | normal b σ' =>
    rw [he] at h
    obtain ⟨frame', w', hreach, hkeeps, hf, hq⟩ := h
    exact ⟨frame', w', hreach, hkeeps, hf, hQR b frame' w' hq⟩

/-- A step that always has a value. -/
theorem simulates_some {x : LowerM Value} {e : Eval Val} (hx : a.Simulates x e a.Carries) :
    a.Simulates (do return some (← x)) (do return some (← e)) a.CarriesAny := by
  constructor
  intro c s t r σ frame w hr h hset hf
  obtain ⟨v, u, hok, hend⟩ := (outcome_bind_eq_ok s).mp h
  cases hend
  refine (hx.run hr hok hset hf).map ?_
  rintro val frame' w' hcarries _ ⟨⟩
  exact ⟨v, rfl, hcarries⟩

/-- A step that never has one. -/
theorem simulates_none {x : LowerM Unit} {e : Eval Unit}
    (hx : a.Simulates x e fun _ _ _ _ _ => True) :
    a.Simulates (do x; return none) (do e; return none) a.CarriesAny := by
  constructor
  intro c s t r σ frame w hr h hset hf
  obtain ⟨v, u, hok, hend⟩ := (outcome_bind_eq_ok s).mp h
  cases hend
  refine (hx.run hr hok hset hf).map ?_
  rintro _ frame' w' _ _ ⟨⟩

theorem simulates_undefined {α : Type} (x : LowerM α)
    (V : IR.Function → Frame → World → α → β → Prop) :
    a.Simulates x Eval.undefined V :=
  ⟨fun _ _ _ _ => trivial⟩

mutual

/-- **The code of an expression computes the value of the expression.** -/
theorem lowerExpr_simulates :
    ∀ e : Expr, a.Simulates (lowerExpr e) (evalExpr a.prims e) a.CarriesAny
  | .int _ n => simulates_const (.int n) rfl
  | .double _ x => simulates_const (.float x) rfl
  | .string _ raw => simulates_string raw
  | .ident _ name => simulates_lowerIdent name
  | .call .. => simulates_undefined _ _
  | .binary _ op left right =>
    simulates_some (simulates_lowerBinary (lowerExpr_simulates left) (lowerExpr_simulates right)
      (lowerExpr_yields left) (lowerExpr_yields right) op)
  | .assign _ target value =>
    simulates_some (simulates_lowerAssign (lowerExpr_simulates value)
      (lowerExpr_yields value) target)
  | .ifElse _ cond thenBlock elseBlock =>
    simulates_none (simulates_lowerIf (lowerExpr_simulates cond) (lowerBlock_simulates thenBlock)
      (lowerBlock_simulates elseBlock) (lowerExpr_yields cond) (lowerBlock_yields thenBlock)
      (lowerBlock_yields elseBlock))
  | .loop .. => simulates_undefined _ _
  | .block _ body => lowerBlock_simulates body

theorem lowerStmt_simulates : ∀ stmt : Stmt,
    a.Simulates (lowerStmt stmt) (evalStmt a.prims stmt) a.CarriesAny
  | .expr _ value => lowerExpr_simulates value
  | .ret _ none => simulates_some simulates_lowerReturn_none
  | .ret _ (some value) =>
    simulates_some (simulates_lowerReturn (lowerExpr_simulates value) (lowerExpr_yields value))
  | .var _ _ name none => simulates_lowerIdent name
  | .var id ty name (some init) =>
    simulates_some (simulates_lowerVar (lowerExpr_simulates init)
      (lowerExpr_yields init) id ty name)
  | .fn .. => simulates_undefined _ _
  | .block _ body => lowerBlock_simulates body

theorem lowerBlock_simulates : ∀ block : Block,
    a.Simulates (lowerBlock block) (evalBlock a.prims block) a.CarriesAny
  | .mk _ stmts => ⟨fun hr h hset hf => lowerStmts_simulates stmts hr h hset hf (by rintro _ ⟨⟩)⟩

theorem lowerStmts_simulates : ∀ (stmts : List Stmt) {last r : Option Value} {last' : Option Val}
    {c : Cursor} {s t : Lowerer} {σ : Store} {frame : Frame} {w : World}, Ready c s →
    outcome (lowerStmts last stmts) s = (.ok r, t) → a.Settled c (s.body c).blocks.length t →
    a.Follows c s σ frame w → a.CarriesAny (s.body c) frame w last last' →
    a.Matches c s t frame w (fun val frame' w' => a.CarriesAny (t.body c) frame' w' r val)
      (evalStmts a.prims last' stmts σ)
  | [], _, _, _, _, _, _, _, _, _, _, h, _, hf, hlast => by
    cases h
    exact .normal hf hlast
  | stmt :: stmts, _, _, _, c, s, t, _, _, _, hr, h, hset, hf, _ => by
    obtain ⟨value, u, hstmt, hrest⟩ := lowerStmts_succeeds hr.strict h
    have hwalk := lowerStmt_yields stmt s hr.valid
    have ha := hwalk.advances hr.valid hstmt
    have hru := hr.advances ha
    have husable : ∀ v ∈ value, Usable u v := by
      have hvalue := hwalk.value value (by rw [hstmt])
      rw [hstmt] at hvalue
      exact hvalue
    have ha' := (lowerStmts_walks stmts value u hru.valid husable).advances hru.valid hrest
    refine ((lowerStmt_simulates stmt).run hr hstmt (hset.before hru ha' hr.block_lt) hf).bind
      (hr.grows ha).insts.length_le ?_
    intro val σ' frame' w' _ hf' hcarries
    exact lowerStmts_simulates stmts hru hrest (hset.after hr ha) hf' hcarries

end

end Activation

end TreeCompiler.Semantics
