/-
Where control can go, and which values are defined there.

Blocks are linked by branch instructions.  In the functions that matter here every block but the
first is entered by one branch from a block with a smaller number, and besides that only a block
itself can branch back to it.  So forward edges form a tree, and a block on the way from the root of
the tree to another one (`Above`) cannot be avoided by any path (`dominates_of_above`).

`Available` says of a value that it is known in a block: the instruction that computes it stands in
that block or above it.  Both notions only ever grow when a function is added to, and neither the
names of instructions nor further inputs of a phi matter to them; `Keeps` is the common ground of
such changes.
-/
import Mathlib.Logic.Relation
import TreeCompiler.Proofs.IR.Growth

namespace TreeCompiler.IR.Function

variable {f g h : Function} {a b p q : BlockId}

/-! ### Edges and paths -/

/-- An instruction of block `p` branches to `q`.  In a block that passes the checks this is the last
instruction, and no other one branches. -/
def Flows (f : Function) (p q : BlockId) : Prop :=
  ∃ entry ∈ f.blockInsts p, q ∈ entry.2.op.successors

/-- The paths from the entry to a block, each as the blocks it passes, the last first. -/
inductive Path (f : Function) : BlockId → List BlockId → Prop
  | entry : Path f 0 [0]
  | step {p q : BlockId} {path : List BlockId} (h : Path f p path) (hflow : f.Flows p q) :
      Path f q (q :: path)

/-- No path from the entry to `b` avoids `a`. -/
def Dominates (f : Function) (a b : BlockId) : Prop := ∀ path, f.Path b path → a ∈ path

/-- An instruction that names block `p` as its own branches to `q`. -/
def Edge (f : Function) (p q : BlockId) : Prop :=
  ∃ (k : InstId) (i : Inst), f.insts[k]? = some i ∧ i.block = p ∧ q ∈ i.op.successors

/-- Forward edges lead from `a` to `b`. -/
def Above (f : Function) : BlockId → BlockId → Prop :=
  Relation.ReflTransGen fun p q => f.Edge p q ∧ p < q

theorem Above.refl (f : Function) (a : BlockId) : f.Above a a := Relation.ReflTransGen.refl

theorem Above.step (h : f.Above a p) (he : f.Edge p q) (hlt : p < q) : f.Above a q :=
  Relation.ReflTransGen.tail h ⟨he, hlt⟩

theorem Above.le (h : f.Above a b) : a ≤ b := by
  induction h with
  | refl => exact Nat.le_refl a
  | tail _ hstep ih => exact Nat.le_trans ih (Nat.le_of_lt hstep.2)

/-- Control moves along edges.  At most one forward edge leads to a block, and all other edges to it
are its own. -/
structure Treelike (f : Function) : Prop where
  edge : ∀ {p q}, f.Flows p q → f.Edge p q
  forward : ∀ {p q}, f.Edge p q → p ≤ q
  unique : ∀ {p p' q}, f.Edge p q → f.Edge p' q → p < q → p' < q → p = p'

/-- **A block above another dominates it.** -/
theorem dominates_of_above (hf : f.Treelike) (h : f.Above a b) : f.Dominates a b := by
  induction h with
  | refl =>
    intro path hpath
    cases hpath <;> simp
  | @tail p q _ hstep ih =>
    -- A path that ends in `q` comes from its parent `p`, after some rounds from `q` to itself.
    intro path hpath
    generalize hq : q = r at hpath
    induction hpath with
    | entry => exact absurd (hq ▸ hstep.2) (Nat.not_lt_zero p)
    | @step p' _ path hpath hflow ihpath =>
      subst hq
      have hedge := hf.edge hflow
      rcases Nat.lt_or_eq_of_le (hf.forward hedge) with hlt | heq
      · rw [hf.unique hedge hstep.1 hlt hstep.2] at hpath
        exact List.mem_cons_of_mem _ (ih path hpath)
      · exact List.mem_cons_of_mem _ (ihpath heq.symm)

/-! ### Values -/

/-- A value that is known in block `b`, in a module with so many strings. -/
def Available (f : Function) (strings : Nat) (b : BlockId) : Value → Prop
  | .const _ => True
  | .inst j => ∃ i : Inst, f.insts[j]? = some i ∧ f.Above i.block b
  | .param i => i < f.sig.params.length
  | .global id => id < strings

theorem Available.knows {strings : Nat} {v : Value} (hv : f.Available strings b v) : f.Knows v := by
  cases v with
  | inst j =>
    obtain ⟨i, hi, -⟩ := hv
    exact (List.getElem?_eq_some_iff.mp hi).1
  | const c => trivial
  | param i => trivial
  | global id => trivial

theorem Available.below {strings : Nat} {v : Value} (hv : f.Available strings a v)
    (hab : f.Above a b) : f.Available strings b v := by
  cases v with
  | inst j =>
    obtain ⟨i, hi, habove⟩ := hv
    exact ⟨i, hi, habove.trans hab⟩
  | const c => trivial
  | param i => exact hv
  | global id => exact hv

/-! ### Changes that keep edges and values -/

/-- `g` has every instruction of `f`, up to names and the inputs of phis. -/
structure Keeps (f g : Function) : Prop where
  sig : g.sig = f.sig
  insts : ∀ {k : InstId} {i : Inst}, f.insts[k]? = some i → ∃ i' : Inst, g.insts[k]? = some i' ∧
    i'.ty = i.ty ∧
    i'.block = i.block ∧ (i'.op = i.op ∨ i.op.isPhi = true ∧ i'.op.isPhi = true)

namespace Keeps

theorem refl (f : Function) : Keeps f f :=
  ⟨rfl, fun {_ i} hi => ⟨i, hi, rfl, rfl, .inl rfl⟩⟩

theorem trans (hfg : Keeps f g) (hgh : Keeps g h) : Keeps f h := by
  refine ⟨hgh.sig.trans hfg.sig, fun {k i} hi => ?_⟩
  obtain ⟨i', hi', hty, hblock, hop⟩ := hfg.insts hi
  obtain ⟨i'', hi'', hty', hblock', hop'⟩ := hgh.insts hi'
  refine ⟨i'', hi'', hty'.trans hty, hblock'.trans hblock, ?_⟩
  rcases hop with heq | ⟨hphi, hphi'⟩
  · rw [heq] at hop'
    exact hop'
  · rcases hop' with heq' | ⟨-, hphi''⟩
    · exact .inr ⟨hphi, heq' ▸ hphi'⟩
    · exact .inr ⟨hphi, hphi''⟩

theorem ofGrows (hg : GrowsAt b f g) : Keeps f g :=
  ⟨hg.sig, fun {_ i} hi => ⟨i, hg.some_of_some hi, rfl, rfl, .inl rfl⟩⟩

theorem setValueName (f : Function) (v : Value) (name : String) :
    Keeps f (f.setValueName v name) := by
  refine ⟨setValueName_sig v name, fun {k i} hi => ?_⟩
  cases v with
  | inst j =>
    by_cases hkj : k = j
    · subst hkj
      exact ⟨{ i with name := some name }, by simp [Function.setValueName, hi], rfl, rfl, .inl rfl⟩
    · exact ⟨i, by rw [setValueName_getElem?_ne hkj, hi], rfl, rfl, .inl rfl⟩
  | const c => exact ⟨i, hi, rfl, rfl, .inl rfl⟩
  | param n => exact ⟨i, hi, rfl, rfl, .inl rfl⟩
  | global id => exact ⟨i, hi, rfl, rfl, .inl rfl⟩

/-- A phi in the place of another one. -/
theorem replacePhi {k : InstId} {i i' : Inst} (hi : f.insts[k]? = some i) (hty : i'.ty = i.ty)
    (hblock : i'.block = i.block) (hphi : i.op.isPhi = true) (hphi' : i'.op.isPhi = true) :
    Keeps f { f with insts := f.insts.set k i' } := by
  refine ⟨rfl, fun {j i₀} hj => ?_⟩
  have hlt : k < f.insts.length := (List.getElem?_eq_some_iff.mp hi).1
  by_cases hkj : k = j
  · subst hkj
    rw [hi] at hj
    cases hj
    exact ⟨i', by simp [hlt], hty, hblock, .inr ⟨hphi, hphi'⟩⟩
  · exact ⟨i₀, by simp [List.getElem?_set_ne hkj, hj], rfl, rfl, .inl rfl⟩

theorem edge (hk : Keeps f g) (he : f.Edge p q) : g.Edge p q := by
  obtain ⟨k, i, hi, rfl, hsucc⟩ := he
  obtain ⟨i', hi', -, hblock, hop⟩ := hk.insts hi
  refine ⟨k, i', hi', hblock, ?_⟩
  rcases hop with heq | ⟨hphi, -⟩
  · rwa [heq]
  · -- A phi is no branch.
    cases hop : i.op <;> simp [hop, Op.isPhi, Op.successors] at hphi hsucc

theorem above (hk : Keeps f g) (ha : f.Above a b) : g.Above a b :=
  Relation.ReflTransGen.mono (fun _ _ hstep => ⟨hk.edge hstep.1, hstep.2⟩) a b ha

theorem available (hk : Keeps f g) {m n : Nat} (hmn : m ≤ n) {v : Value}
    (hv : f.Available m b v) : g.Available n b v := by
  cases v with
  | inst j =>
    obtain ⟨i, hi, ha⟩ := hv
    obtain ⟨i', hi', -, hblock, -⟩ := hk.insts hi
    exact ⟨i', hi', hblock ▸ hk.above ha⟩
  | const c => trivial
  | param i =>
    show i < g.sig.params.length
    rw [hk.sig]
    exact hv
  | global id => exact Nat.lt_of_lt_of_le hv hmn

theorem valueType (hk : Keeps f g) {v : Value} (hv : f.Knows v) :
    g.valueType v = f.valueType v := by
  cases v with
  | inst j =>
    obtain ⟨i, hi⟩ : ∃ i, f.insts[j]? = some i := ⟨_, List.getElem?_eq_getElem hv⟩
    obtain ⟨i', hi', hty, -, -⟩ := hk.insts hi
    simp only [Function.valueType, hi, hi', Option.map_some, hty]
  | const c => rfl
  | param i => simp only [Function.valueType, hk.sig]
  | global id => rfl

theorem slotType (hk : Keeps f g) {v : Value} {ty : Ty} (hv : f.slotType v = some ty) :
    g.slotType v = some ty := by
  obtain ⟨k, i, rfl, hi, hop⟩ := slotType_eq_some_iff.mp hv
  obtain ⟨i', hi', -, -, heq | ⟨hphi, -⟩⟩ := hk.insts hi
  · exact slotType_eq_some_iff.mpr ⟨k, i', rfl, hi', heq.trans hop⟩
  · simp [hop, Op.isPhi] at hphi

end Keeps

end TreeCompiler.IR.Function
