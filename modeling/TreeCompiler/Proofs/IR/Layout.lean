/-
Functions that are laid out well.

This is what holds of every function that lowering builds, finished or not.  Each instruction stands
in exactly one block, in order (`Placement`).  Branches lead to blocks with larger numbers or back
to the block they stand in, and each block has one branch that leads to it from outside
(`Branching`).  A phi is the first instruction of its block and has one input for each block that
branches there (`Phis`).  Every operand is known where it is used, and every result has the type its
operation gives it (`Rules`).

A function is only changed in four ways: an instruction or a block is added, an instruction is
named, a phi gets another input.  For each of them there is one lemma per part, which says under
which condition the part survives.
-/
import Mathlib.Data.List.Basic
import Mathlib.Data.List.Nodup
import TreeCompiler.Proofs.IR.ControlFlow

namespace TreeCompiler.IR

/-- `m'` has the strings and functions of `m`, the functions with the same signatures. -/
structure Module.Extends (m m' : Module) : Prop where
  globals : m.globals.length ≤ m'.globals.length
  functions : m.functions.length ≤ m'.functions.length
  sig : ∀ {f}, f < m.functions.length → (m'.function f).sig = (m.function f).sig

theorem Module.Extends.refl (m : Module) : m.Extends m :=
  ⟨Nat.le_refl _, Nat.le_refl _, fun _ => rfl⟩

namespace Function

variable {m m' : Module} {f g : Function} {a b p q : BlockId} {k : InstId}

/-! ### What the four changes do to the instructions -/

section Changes

variable {i : Inst} {op : Op} {ty : Ty} {name : Option String}

theorem getElem?_push : (f.push b op ty name).2.insts[k]? = some i ↔
    f.insts[k]? = some i ∨ k = f.insts.length ∧ i = { op, ty, name, block := b } := by
  rw [push_insts]
  rcases Nat.lt_trichotomy k f.insts.length with hlt | heq | hgt
  · rw [List.getElem?_append_left hlt]
    simp [Nat.ne_of_lt hlt]
  · subst heq
    simp [eq_comm]
  · rw [List.getElem?_eq_none (by simp; omega), List.getElem?_eq_none (by omega)]
    simp [Nat.ne_of_gt hgt]

theorem edge_push : (f.push b op ty name).2.Edge p q ↔ f.Edge p q ∨ p = b ∧ q ∈ op.successors := by
  constructor
  · rintro ⟨k, i, hi, rfl, hq⟩
    rcases getElem?_push.mp hi with hold | ⟨-, rfl⟩
    · exact .inl ⟨k, i, hold, rfl, hq⟩
    · exact .inr ⟨rfl, hq⟩
  · rintro (⟨k, i, hi, rfl, hq⟩ | ⟨rfl, hq⟩)
    · exact ⟨k, i, getElem?_push.mpr (.inl hi), rfl, hq⟩
    · exact ⟨_, _, getElem?_push.mpr (.inr ⟨rfl, rfl⟩), rfl, hq⟩

theorem edge_createBlock {base : String} : (f.createBlock base).2.Edge p q ↔ f.Edge p q := Iff.rfl

/-- A name is all that changes. -/
theorem getElem?_setValueName {v : Value} {text : String}
    (hi : (f.setValueName v text).insts[k]? = some i) :
    ∃ i₀, f.insts[k]? = some i₀ ∧ i.op = i₀.op ∧ i.ty = i₀.ty ∧ i.block = i₀.block := by
  cases v with
  | inst j =>
    by_cases hkj : k = j
    · subst hkj
      rcases hk : f.insts[k]? with _ | i₀
      · simp [setValueName, hk] at hi
      · simp only [setValueName, List.getElem?_modify_eq, hk, Option.map_eq_map, Option.map_some,
          Option.some.injEq] at hi
        subst hi
        exact ⟨i₀, rfl, rfl, rfl, rfl⟩
    · rw [setValueName_getElem?_ne hkj] at hi
      exact ⟨i, hi, rfl, rfl, rfl⟩
  | const c => exact ⟨i, hi, rfl, rfl, rfl⟩
  | param n => exact ⟨i, hi, rfl, rfl, rfl⟩
  | global id => exact ⟨i, hi, rfl, rfl, rfl⟩

theorem edge_setValueName {v : Value} {text : String} :
    (f.setValueName v text).Edge p q ↔ f.Edge p q := by
  constructor
  · rintro ⟨k, i, hi, rfl, hq⟩
    obtain ⟨i₀, hi₀, hop, -, hblock⟩ := getElem?_setValueName hi
    exact ⟨k, i₀, hi₀, hblock.symm, hop ▸ hq⟩
  · exact (Keeps.setValueName f v text).edge

/-- Put another phi in the place of one. -/
def setPhi (f : Function) (k : InstId) (phi : Inst) : Function :=
  { f with insts := f.insts.set k phi }

theorem successors_of_isPhi (h : op.isPhi = true) : op.successors = [] := by
  cases op <;> simp [Op.isPhi, Op.successors] at h ⊢

theorem getElem?_setPhi {phi : Inst} {j : InstId} (hk : k < f.insts.length) :
    (f.setPhi k phi).insts[j]? = some i ↔ j = k ∧ i = phi ∨ j ≠ k ∧ f.insts[j]? = some i := by
  by_cases hjk : j = k
  · subst hjk
    simp [setPhi, hk, eq_comm]
  · simp [setPhi, List.getElem?_set_ne (Ne.symm hjk), hjk]

theorem edge_setPhi {phi : Inst} (hi : f.insts[k]? = some i) (hold : i.op.isPhi = true)
    (hnew : phi.op.isPhi = true) : (f.setPhi k phi).Edge p q ↔ f.Edge p q := by
  have hk : k < f.insts.length := (List.getElem?_eq_some_iff.mp hi).1
  constructor
  · rintro ⟨j, i', hj, rfl, hq⟩
    rcases (getElem?_setPhi hk).mp hj with ⟨rfl, rfl⟩ | ⟨-, hj'⟩
    · rw [successors_of_isPhi hnew] at hq
      cases hq
    · exact ⟨j, i', hj', rfl, hq⟩
  · rintro ⟨j, i', hj, rfl, hq⟩
    by_cases hjk : j = k
    · subst hjk
      rw [hi] at hj
      cases hj
      rw [successors_of_isPhi hold] at hq
      cases hq
    · exact ⟨j, i', (getElem?_setPhi hk).mpr (.inr ⟨hjk, hj⟩), rfl, hq⟩

end Changes

/-! ### Placement -/

/-- The blocks share the instructions out among them: each instruction is listed by the block that
it names and by no other, and every list is in increasing order. -/
structure Placement (f : Function) : Prop where
  placed : ∀ {k : InstId} {i : Inst}, f.insts[k]? = some i → k ∈ f.ids i.block
  listed : ∀ {b : BlockId} {k : InstId}, k ∈ f.ids b →
    ∃ i : Inst, f.insts[k]? = some i ∧ i.block = b
  increasing : ∀ b, (f.ids b).Pairwise (· < ·)

namespace Placement

theorem lt (hf : f.Placement) (hk : k ∈ f.ids b) : k < f.insts.length := by
  obtain ⟨i, hi, -⟩ := hf.listed hk
  exact (List.getElem?_eq_some_iff.mp hi).1

theorem block_lt (hf : f.Placement) {i : Inst} (hi : f.insts[k]? = some i) :
    i.block < f.blocks.length := by
  rcases Nat.lt_or_ge i.block f.blocks.length with hlt | hge
  · exact hlt
  · have hmem := hf.placed hi
    rw [ids_of_length_le hge] at hmem
    cases hmem

/-- The instructions of a block are those that name it. -/
theorem mem_blockInsts (hf : f.Placement) {e : InstId × Inst} :
    e ∈ f.blockInsts b ↔ f.insts[e.1]? = some e.2 ∧ e.2.block = b := by
  rw [blockInsts_eq, List.mem_filterMap]
  constructor
  · rintro ⟨k, hk, hentry⟩
    obtain ⟨i, hi, hblock⟩ := hf.listed hk
    rw [hi, Option.map_some] at hentry
    cases hentry
    exact ⟨hi, hblock⟩
  · rintro ⟨hi, rfl⟩
    exact ⟨e.1, hf.placed hi, by rw [hi]; rfl⟩

theorem map_blockInsts (hf : f.Placement) (b : BlockId) : (f.blockInsts b).map (·.1) = f.ids b := by
  rw [blockInsts_eq, List.map_filterMap]
  have hall : ∀ k ∈ f.ids b, (f.insts[k]?.map (k, ·)).map (·.1) = some k := by
    intro k hk
    obtain ⟨i, hi, -⟩ := hf.listed hk
    rw [hi]
    rfl
  rw [List.filterMap_congr hall]
  exact List.filterMap_some

/-- The blocks of a function share out its instructions: together their lists have each number
once. -/
theorem perm_ids (hf : f.Placement) :
    ((List.range f.blocks.length).flatMap f.ids).Perm (List.range f.insts.length) := by
  have hnodup : ((List.range f.blocks.length).flatMap f.ids).Nodup := by
    rw [List.nodup_flatMap]
    refine ⟨fun b _ => (hf.increasing b).imp Nat.ne_of_lt, List.nodup_range.imp fun {a b} hne => ?_⟩
    intro k hk hk'
    obtain ⟨i, hi, rfl⟩ := hf.listed hk
    obtain ⟨i', hi', rfl⟩ := hf.listed hk'
    rw [hi] at hi'
    cases hi'
    exact hne rfl
  refine (List.perm_ext_iff_of_nodup hnodup List.nodup_range).mpr fun k => ?_
  rw [List.mem_flatMap, List.mem_range]
  constructor
  · rintro ⟨b, -, hk⟩
    exact hf.lt hk
  · intro hk
    have hi : f.insts[k]? = some f.insts[k] := List.getElem?_eq_getElem hk
    exact ⟨_, List.mem_range.mpr (hf.block_lt hi), hf.placed hi⟩

/-- Of two instructions of a block the one with the smaller number comes first. -/
theorem mem_before (hf : f.Placement) {before after : List (InstId × Inst)}
    {j : InstId} {i : Inst} (hsplit : f.blockInsts b = before ++ (k, i) :: after)
    (hj : j ∈ f.ids b) (hlt : j < k) : j ∈ before.map (·.1) := by
  have hids : f.ids b = before.map (·.1) ++ k :: after.map (·.1) := by
    rw [← hf.map_blockInsts, hsplit]
    simp
  have hsorted := hf.increasing b
  rw [hids] at hsorted hj
  obtain ⟨-, htail, -⟩ := List.pairwise_append.mp hsorted
  rcases List.mem_append.mp hj with hmem | hmem
  · exact hmem
  · rcases List.mem_cons.mp hmem with rfl | hlater
    · exact absurd hlt (Nat.lt_irrefl _)
    · exact absurd ((List.pairwise_cons.mp htail).1 j hlater) (Nat.lt_asymm hlt)

theorem push (hf : f.Placement) (hb : b < f.blocks.length) (op : Op) (ty : Ty)
    (name : Option String) : (f.push b op ty name).2.Placement := by
  refine ⟨fun {k i} hi => ?_, fun {a k} hk => ?_, fun a => ?_⟩
  · rcases getElem?_push.mp hi with hold | ⟨rfl, rfl⟩
    · exact (ids_prefix_push f b op ty name _).subset (hf.placed hold)
    · rw [ids_push_self f b op ty name hb]
      simp
  · by_cases hab : a = b
    · subst hab
      rw [ids_push_self f a op ty name hb] at hk
      rcases List.mem_append.mp hk with hold | hnew
      · obtain ⟨i, hi, hblock⟩ := hf.listed hold
        exact ⟨i, getElem?_push.mpr (.inl hi), hblock⟩
      · exact ⟨_, getElem?_push.mpr (.inr ⟨List.mem_singleton.mp hnew, rfl⟩), rfl⟩
    · rw [ids_push_ne f b op ty name hab] at hk
      obtain ⟨i, hi, hblock⟩ := hf.listed hk
      exact ⟨i, getElem?_push.mpr (.inl hi), hblock⟩
  · by_cases hab : a = b
    · subst hab
      rw [ids_push_self f a op ty name hb]
      refine List.pairwise_append.mpr ⟨hf.increasing a, List.pairwise_singleton _ _, ?_⟩
      intro j hj n hn
      rw [List.mem_singleton.mp hn]
      exact hf.lt hj
    · rw [ids_push_ne f b op ty name hab]
      exact hf.increasing a

theorem createBlock (hf : f.Placement) (base : String) : (f.createBlock base).2.Placement := by
  refine ⟨fun hi => ?_, fun hk => ?_, fun b => ?_⟩
  · rw [ids_createBlock]
    exact hf.placed hi
  · rw [ids_createBlock] at hk
    exact hf.listed hk
  · rw [ids_createBlock]
    exact hf.increasing b

theorem setValueName (hf : f.Placement) (v : Value) (name : String) :
    (f.setValueName v name).Placement := by
  refine ⟨fun hi => ?_, fun hk => ?_, fun b => ?_⟩
  · obtain ⟨i₀, hi₀, -, -, hblock⟩ := getElem?_setValueName hi
    rw [ids_setValueName, hblock]
    exact hf.placed hi₀
  · rw [ids_setValueName] at hk
    obtain ⟨i, hi, hblock⟩ := hf.listed hk
    obtain ⟨i', hi', -, hblock', -⟩ := (Keeps.setValueName f v name).insts hi
    exact ⟨i', hi', hblock'.trans hblock⟩
  · rw [ids_setValueName]
    exact hf.increasing b

theorem setPhi (hf : f.Placement) {i phi : Inst} (hi : f.insts[k]? = some i)
    (hblock : phi.block = i.block) : (f.setPhi k phi).Placement := by
  have hk : k < f.insts.length := (List.getElem?_eq_some_iff.mp hi).1
  refine ⟨fun {j i'} hj => ?_, fun {b j} hj => ?_, hf.increasing⟩
  · rcases (getElem?_setPhi hk).mp hj with ⟨rfl, rfl⟩ | ⟨-, hold⟩
    · rw [hblock]
      exact hf.placed hi
    · exact hf.placed hold
  · obtain ⟨i', hi', hb⟩ := hf.listed hj
    by_cases hjk : j = k
    · subst hjk
      rw [hi] at hi'
      cases hi'
      exact ⟨phi, (getElem?_setPhi hk).mpr (.inl ⟨rfl, rfl⟩), hblock.trans hb⟩
    · exact ⟨i', (getElem?_setPhi hk).mpr (.inr ⟨hjk, hi'⟩), hb⟩

end Placement

/-! ### Branches -/

/-- Branches lead forward or from a block to itself, never to the first block, and one branch at
most leads to a block from outside. -/
structure Branching (f : Function) : Prop where
  target : ∀ {p q : BlockId}, f.Edge p q → q < f.blocks.length ∧ p ≤ q ∧ 0 < q
  unique : ∀ {k k' : InstId} {i i' : Inst} {q : BlockId}, f.insts[k]? = some i →
    f.insts[k']? = some i' → q ∈ i.op.successors → q ∈ i'.op.successors → i.block ≠ q →
    i'.block ≠ q → k = k'

namespace Branching

theorem treelike (hf : f.Branching) (hp : f.Placement) : f.Treelike where
  edge := by
    rintro p q ⟨⟨k, i⟩, hmem, hq⟩
    obtain ⟨hi, hblock⟩ := hp.mem_blockInsts.mp hmem
    exact ⟨k, i, hi, hblock, hq⟩
  forward he := (hf.target he).2.1
  unique := by
    rintro p p' q ⟨k, i, hi, rfl, hq⟩ ⟨k', i', hi', rfl, hq'⟩ hlt hlt'
    obtain rfl := hf.unique hi hi' hq hq' (Nat.ne_of_lt hlt) (Nat.ne_of_lt hlt')
    rw [hi] at hi'
    cases hi'
    rfl

/-- A branch may be added if nothing leads to its targets yet, but for the block itself. -/
theorem push (hf : f.Branching) {op : Op} (ty : Ty) (name : Option String)
    (hop : ∀ q ∈ op.successors, q < f.blocks.length ∧ b ≤ q ∧ 0 < q ∧
      (b ≠ q → ∀ p, f.Edge p q → p = q)) : (f.push b op ty name).2.Branching := by
  refine ⟨fun {p q} he => ?_, fun {k k' i i' q} hi hi' hq hq' hne hne' => ?_⟩
  · rw [push_blocks_length]
    rcases edge_push.mp he with hold | ⟨rfl, hq⟩
    · exact hf.target hold
    · exact ⟨(hop q hq).1, (hop q hq).2.1, (hop q hq).2.2.1⟩
  · rcases getElem?_push.mp hi with hold | ⟨rfl, rfl⟩
    · rcases getElem?_push.mp hi' with hold' | ⟨rfl, rfl⟩
      · exact hf.unique hold hold' hq hq' hne hne'
      · exact absurd ((hop q hq').2.2.2 hne' _ ⟨k, i, hold, rfl, hq⟩) hne
    · rcases getElem?_push.mp hi' with hold' | ⟨rfl, rfl⟩
      · exact absurd ((hop q hq).2.2.2 hne _ ⟨k', i', hold', rfl, hq'⟩) hne'
      · rfl

theorem createBlock (hf : f.Branching) (base : String) : (f.createBlock base).2.Branching := by
  refine ⟨fun he => ?_, hf.unique⟩
  obtain ⟨hq, hrest⟩ := hf.target he
  exact ⟨by rw [createBlock_blocks_length]; exact Nat.lt_succ_of_lt hq, hrest⟩

theorem setValueName (hf : f.Branching) (v : Value) (name : String) :
    (f.setValueName v name).Branching := by
  refine ⟨fun he => ?_, fun hi hi' hq hq' hne hne' => ?_⟩
  · rw [setValueName_blocks]
    exact hf.target (edge_setValueName.mp he)
  · obtain ⟨i₀, hi₀, hop, -, hblock⟩ := getElem?_setValueName hi
    obtain ⟨i₁, hi₁, hop', -, hblock'⟩ := getElem?_setValueName hi'
    exact hf.unique hi₀ hi₁ (hop ▸ hq) (hop' ▸ hq') (hblock ▸ hne) (hblock' ▸ hne')

theorem setPhi (hf : f.Branching) {i phi : Inst} (hi : f.insts[k]? = some i)
    (hold : i.op.isPhi = true) (hnew : phi.op.isPhi = true) : (f.setPhi k phi).Branching := by
  have hk : k < f.insts.length := (List.getElem?_eq_some_iff.mp hi).1
  -- Neither phi is a branch, so a branch of the new function is one of the old.
  have key : ∀ {j : InstId} {i' : Inst} {q : BlockId}, (f.setPhi k phi).insts[j]? = some i' →
      q ∈ i'.op.successors → f.insts[j]? = some i' := by
    intro j i' q hj hq
    rcases (getElem?_setPhi hk).mp hj with ⟨rfl, rfl⟩ | ⟨-, hj'⟩
    · rw [successors_of_isPhi hnew] at hq
      cases hq
    · exact hj'
  exact ⟨fun he => hf.target ((edge_setPhi hi hold hnew).mp he),
    fun hi hi' hq hq' => hf.unique (key hi hq) (key hi' hq') hq hq'⟩

end Branching

/-! ### Phis -/

/-- A phi is the first instruction of its block and has an input for exactly the blocks that branch
there. -/
structure Phis (f : Function) : Prop where
  first : ∀ {k : InstId} {i : Inst}, f.insts[k]? = some i → i.op.isPhi = true →
    (f.ids i.block).head? = some k
  inputs : ∀ {k : InstId} {i : Inst} {incoming : List (Value × BlockId)}, f.insts[k]? = some i →
    i.op = .phi incoming → ∀ p, p ∈ incoming.map (·.2) ↔ f.Edge p i.block

namespace Phis

theorem head?_ids_push (hf : f.Phis) {op : Op} {ty : Ty} {name : Option String} {i : Inst}
    (hb : b < f.blocks.length) (hi : f.insts[k]? = some i) (hphi : i.op.isPhi = true) :
    ((f.push b op ty name).2.ids i.block).head? = some k := by
  by_cases hib : i.block = b
  · have hfirst := hf.first hi hphi
    rw [hib] at hfirst ⊢
    rw [ids_push_self f b op ty name hb, List.head?_append, hfirst]
    rfl
  · rw [ids_push_ne f b op ty name hib]
    exact hf.first hi hphi

/-- An instruction that is no phi may be added if no phi is affected by it. -/
theorem push (hf : f.Phis) (hb : b < f.blocks.length) {op : Op} (ty : Ty) (name : Option String)
    (hop : op.isPhi = false)
    (hsucc : ∀ q ∈ op.successors, ∀ (k : InstId) (i : Inst), f.insts[k]? = some i →
      i.op.isPhi = true → i.block ≠ q) : (f.push b op ty name).2.Phis := by
  refine ⟨fun {k i} hi hphi => ?_, fun {k i incoming} hi hphi p => ?_⟩
  · rcases getElem?_push.mp hi with hold | ⟨rfl, rfl⟩
    · exact hf.head?_ids_push hb hold hphi
    · rw [hop] at hphi
      cases hphi
  · rcases getElem?_push.mp hi with hold | ⟨rfl, rfl⟩
    · rw [hf.inputs hold hphi p, edge_push]
      constructor
      · exact .inl
      · rintro (he | ⟨-, hq⟩)
        · exact he
        · exact absurd rfl (hsucc _ hq k i hold (by rw [hphi]; rfl))
    · obtain rfl : op = .phi incoming := hphi
      cases hop

/-- A phi may be added to an empty block, with the inputs for its edges. -/
theorem pushPhi (hf : f.Phis) (hb : b < f.blocks.length) (hempty : f.ids b = [])
    {incoming : List (Value × BlockId)} (ty : Ty) (name : Option String)
    (hin : ∀ p, p ∈ incoming.map (·.2) ↔ f.Edge p b) :
    (f.push b (.phi incoming) ty name).2.Phis := by
  have hedge : ∀ {p q : BlockId}, (f.push b (.phi incoming) ty name).2.Edge p q ↔ f.Edge p q := by
    intro p q
    rw [edge_push]
    simp [Op.successors]
  refine ⟨fun {k i} hi hphi => ?_, fun {k i incoming'} hi hphi p => ?_⟩
  · rcases getElem?_push.mp hi with hold | ⟨rfl, rfl⟩
    · exact hf.head?_ids_push hb hold hphi
    · rw [ids_push_self f b _ ty name hb, hempty]
      rfl
  · rw [hedge]
    rcases getElem?_push.mp hi with hold | ⟨rfl, rfl⟩
    · exact hf.inputs hold hphi p
    · cases hphi
      exact hin p

theorem createBlock (hf : f.Phis) (base : String) : (f.createBlock base).2.Phis := by
  refine ⟨fun hi hphi => ?_, fun hi hphi p => ?_⟩
  · rw [ids_createBlock]
    exact hf.first hi hphi
  · rw [edge_createBlock]
    exact hf.inputs hi hphi p

theorem setValueName (hf : f.Phis) (v : Value) (name : String) : (f.setValueName v name).Phis := by
  refine ⟨fun hi hphi => ?_, fun hi hphi p => ?_⟩
  · obtain ⟨i₀, hi₀, hop, -, hblock⟩ := getElem?_setValueName hi
    rw [ids_setValueName, hblock]
    exact hf.first hi₀ (hop ▸ hphi)
  · obtain ⟨i₀, hi₀, hop, -, hblock⟩ := getElem?_setValueName hi
    rw [edge_setValueName, hblock]
    exact hf.inputs hi₀ (hop ▸ hphi) p

/-- **Closing a loop**: a branch back to a block whose phi gets an input for it. -/
theorem close (hf : f.Phis) (hb : b < f.blocks.length) {i : Inst}
    {incoming : List (Value × BlockId)} (hi : f.insts[k]? = some i) (hop : i.op = .phi incoming)
    (hblock : i.block = b) {after : BlockId}
    (hafter : ∀ (j : InstId) (i' : Inst), f.insts[j]? = some i' → i'.block ≠ after)
    (cond v : Value) :
    ((f.push b (.condBr cond b after) .void none).2.setPhi k
      { i with op := .phi (incoming ++ [(v, b)]) }).Phis := by
  have hi' : (f.push b (.condBr cond b after) .void none).2.insts[k]? = some i :=
    getElem?_push.mpr (.inl hi)
  have hlt' := (List.getElem?_eq_some_iff.mp hi').1
  have hphi : i.op.isPhi = true := by rw [hop]; rfl
  have hedge : ∀ {p q : BlockId}, ((f.push b (.condBr cond b after) .void none).2.setPhi k
      { i with op := .phi (incoming ++ [(v, b)]) }).Edge p q
        ↔ f.Edge p q ∨ p = b ∧ (q = b ∨ q = after) := by
    intro p q
    rw [edge_setPhi hi' hphi rfl, edge_push]
    simp [Op.successors]
  have hhead : ∀ {j : InstId} {i₁ : Inst}, f.insts[j]? = some i₁ → i₁.op.isPhi = true →
      ((f.push b (.condBr cond b after) .void none).2.ids i₁.block).head? = some j :=
    fun hj hphi₁ => hf.head?_ids_push hb hj hphi₁
  refine ⟨fun {j i₁} hj hphi₁ => ?_, fun {j i₁ incoming₁} hj hop₁ p => ?_⟩
  · rcases (getElem?_setPhi hlt').mp hj with ⟨rfl, rfl⟩ | ⟨-, hj'⟩
    · have hfirst := hhead hi hphi
      exact hfirst
    · rcases getElem?_push.mp hj' with hold | ⟨rfl, rfl⟩
      · exact hhead hold hphi₁
      · cases hphi₁
  · rw [hedge]
    rcases (getElem?_setPhi hlt').mp hj with ⟨rfl, rfl⟩ | ⟨hne, hj'⟩
    · cases hop₁
      rw [List.map_append, List.mem_append, hf.inputs hi hop p, hblock]
      simp
    · rcases getElem?_push.mp hj' with hold | ⟨rfl, rfl⟩
      · -- Another phi stands in another block, since a block has one phi at most.
        have hphi₁ : i₁.op.isPhi = true := by rw [hop₁]; rfl
        have hb₁ : i₁.block ≠ b := by
          intro heq
          have hfirst := hf.first hold hphi₁
          rw [heq, ← hblock, hf.first hi hphi] at hfirst
          exact hne (Option.some.inj hfirst).symm
        rw [hf.inputs hold hop₁ p]
        simp [hb₁, hafter j i₁ hold]
      · cases hop₁

end Phis

/-! ### Operands and types -/

/-- The instructions that neither make a slot nor a branch nor join values, each with the type of
its result.  Loads and stores go to slots, and a call has the arguments that its callee takes. -/
inductive Plain (m : Module) (f : Function) : Op → Ty → Prop
  | load {ty : Ty} {ptr : Value} (hp : f.slotType ptr = some ty) : Plain m f (.load ty ptr) ty
  | store {ty : Ty} {value ptr : Value} (hp : f.slotType ptr = some ty) :
      Plain m f (.store value ptr true) .void
  | arith {op : Arith} {lhs rhs : Value} : Plain m f (.arith op lhs rhs) (f.valueType lhs)
  | fcmp {pred : Compare} {lhs rhs : Value} : Plain m f (.fcmp pred lhs rhs) .i1
  | call {callee : FuncId} {args : List Value} (hf : callee < m.functions.length)
      (ha : (m.function callee).sig.accepts args.length = true) :
      Plain m f (.call callee args) (m.function callee).sig.ret
  | ret {value : Option Value} : Plain m f (.ret value) .void

/-- The type that the result of an operation has. -/
inductive Typed (m : Module) (f : Function) : Op → Ty → Prop
  | plain {op : Op} {ty : Ty} (h : f.Plain m op ty) : Typed m f op ty
  | alloca (ty : Ty) : Typed m f (.alloca ty) .ptr
  | phi (incoming : List (Value × BlockId)) : Typed m f (.phi incoming) .f64
  | br (target : BlockId) : Typed m f (.br target) .void
  | condBr (cond : Value) (thenBlock elseBlock : BlockId) :
      Typed m f (.condBr cond thenBlock elseBlock) .void

/-- Where the operands of an instruction come from: they are known in its block and computed before
it, and the inputs of a phi are known in the blocks that they come from. -/
structure Sourced (strings : Nat) (f : Function) (k : InstId) (i : Inst) : Prop where
  operands : i.op.isPhi = false → ∀ v ∈ i.op.operands, f.Available strings i.block v ∧
    ∀ j, v = .inst j → j < k
  inputs : ∀ incoming, i.op = .phi incoming → ∀ x ∈ incoming, f.Available strings x.2 x.1

/-- Every instruction of a function has its operands and its type. -/
structure Rules (m : Module) (f : Function) : Prop where
  sourced : ∀ {k : InstId} {i : Inst}, f.insts[k]? = some i → f.Sourced m.globals.length k i
  typed : ∀ {k : InstId} {i : Inst}, f.insts[k]? = some i → f.Typed m i.op i.ty

/-- A phi joins floating-point numbers. -/
theorem Typed.ty_of_phi {incoming : List (Value × BlockId)} {ty : Ty}
    (h : f.Typed m (.phi incoming) ty) : ty = .f64 := by
  cases h with
  | plain h => cases h
  | phi => rfl

theorem Typed.mono {op : Op} {ty : Ty} (h : f.Typed m op ty) (hk : Keeps f g) (hm : m.Extends m')
    (hop : op.isPhi = false → ∀ v ∈ op.operands, f.Knows v) : g.Typed m' op ty := by
  cases h with
  | plain h =>
    refine .plain ?_
    cases h with
    | load hp => exact .load (hk.slotType hp)
    | store hp => exact .store (hk.slotType hp)
    | @arith _ lhs _ =>
      rw [← hk.valueType (hop rfl lhs (by simp [Op.operands]))]
      exact .arith
    | fcmp => exact .fcmp
    | call hf ha =>
      rw [← hm.sig hf] at ha ⊢
      exact .call (Nat.lt_of_lt_of_le hf hm.functions) ha
    | ret => exact .ret
  | alloca ty => exact .alloca ty
  | phi incoming => exact .phi incoming
  | br target => exact .br target
  | condBr cond thenBlock elseBlock => exact .condBr cond thenBlock elseBlock

theorem Sourced.mono {m n : Nat} {i i' : Inst} (h : f.Sourced m k i) (hk : Keeps f g) (hmn : m ≤ n)
    (hop : i'.op = i.op) (hblock : i'.block = i.block) : g.Sourced n k i' where
  operands hphi v hv := by
    rw [hop] at hphi hv
    rw [hblock]
    exact ⟨hk.available hmn (h.operands hphi v hv).1, (h.operands hphi v hv).2⟩
  inputs incoming hphi x hx := by
    rw [hop] at hphi
    exact hk.available hmn (h.inputs incoming hphi x hx)

namespace Rules

/-- The rules need to be looked at for new and changed instructions only. -/
theorem keep (hf : f.Rules m) (hk : Keeps f g) (hm : m.Extends m')
    (hnew : ∀ {k : InstId} {i' : Inst}, g.insts[k]? = some i' →
      (∃ i, f.insts[k]? = some i ∧ i'.op = i.op ∧ i'.ty = i.ty ∧ i'.block = i.block) ∨
        g.Sourced m'.globals.length k i' ∧ g.Typed m' i'.op i'.ty) : g.Rules m' := by
  refine ⟨fun {k i'} hi' => ?_, fun {k i'} hi' => ?_⟩
  · rcases hnew hi' with ⟨i, hi, hop, -, hblock⟩ | hrule
    · exact (hf.sourced hi).mono hk hm.globals hop hblock
    · exact hrule.1
  · rcases hnew hi' with ⟨i, hi, hop, hty, -⟩ | hrule
    · rw [hop, hty]
      exact (hf.typed hi).mono hk hm fun hphi v hv => ((hf.sourced hi).operands hphi v hv).1.knows
    · exact hrule.2

end Rules

/-- **A function that is laid out well**, apart from its phis, whose inputs are given one at a
time. -/
structure Laid (m : Module) (f : Function) : Prop where
  placement : f.Placement
  branching : f.Branching
  rules : f.Rules m

namespace Laid

/-- What an instruction must satisfy to be added to block `b`. -/
structure Fits (m : Module) (f : Function) (b : BlockId) (op : Op) (ty : Ty) : Prop where
  operands : op.isPhi = false → ∀ v ∈ op.operands, f.Available m.globals.length b v
  inputs : ∀ incoming, op = .phi incoming → ∀ x ∈ incoming, f.Available m.globals.length x.2 x.1
  typed : f.Typed m op ty
  successors : ∀ q ∈ op.successors, q < f.blocks.length ∧ b ≤ q ∧ 0 < q ∧
    (b ≠ q → ∀ p, f.Edge p q → p = q)

theorem Fits.of_not_isPhi {op : Op} {ty : Ty} (hop : op.isPhi = false)
    (operands : ∀ v ∈ op.operands, f.Available m.globals.length b v) (typed : f.Typed m op ty)
    (successors : ∀ q ∈ op.successors, q < f.blocks.length ∧ b ≤ q ∧ 0 < q ∧
      (b ≠ q → ∀ p, f.Edge p q → p = q)) : Fits m f b op ty where
  operands _ := operands
  inputs incoming hphi := by
    rw [hphi] at hop
    cases hop
  typed := typed
  successors := successors

theorem push (hf : f.Laid m) (hb : b < f.blocks.length) {op : Op} {ty : Ty} (name : Option String)
    (h : Fits m f b op ty) : (f.push b op ty name).2.Laid m where
  placement := hf.placement.push hb op ty name
  branching := hf.branching.push ty name h.successors
  rules := by
    have hk : Keeps f (f.push b op ty name).2 := .ofGrows (.push f b op ty name)
    refine hf.rules.keep hk (.refl m) fun {k i'} hi' => ?_
    rcases getElem?_push.mp hi' with hold | ⟨rfl, rfl⟩
    · exact .inl ⟨i', hold, rfl, rfl, rfl⟩
    · refine .inr ⟨⟨fun hphi v hv => ⟨?_, fun j hj => ?_⟩, fun incoming hphi x hx => ?_⟩, ?_⟩
      · exact hk.available (Nat.le_refl _) (h.operands hphi v hv)
      · have hknown := (h.operands hphi v hv).knows
        rw [hj] at hknown
        exact hknown
      · exact hk.available (Nat.le_refl _) (h.inputs incoming hphi x hx)
      · exact h.typed.mono hk (.refl m) fun hphi v hv => (h.operands hphi v hv).knows

theorem createBlock (hf : f.Laid m) (base : String) : (f.createBlock base).2.Laid m where
  placement := hf.placement.createBlock base
  branching := hf.branching.createBlock base
  rules := hf.rules.keep (.ofGrows (.createBlock 0 f base)) (.refl m)
    fun {_ i'} hi' => .inl ⟨i', hi', rfl, rfl, rfl⟩

theorem setValueName (hf : f.Laid m) (v : Value) (name : String) :
    (f.setValueName v name).Laid m where
  placement := hf.placement.setValueName v name
  branching := hf.branching.setValueName v name
  rules := hf.rules.keep (.setValueName f v name) (.refl m) fun hi' =>
    .inl (getElem?_setValueName hi')

/-- A phi gets another input, one that is known where it comes from. -/
theorem addInput (hf : f.Laid m) {i : Inst} {incoming : List (Value × BlockId)}
    (hi : f.insts[k]? = some i) (hop : i.op = .phi incoming) {v : Value}
    (hv : f.Available m.globals.length p v) :
    (f.setPhi k { i with op := .phi (incoming ++ [(v, p)]) }).Laid m := by
  have hphi : i.op.isPhi = true := by rw [hop]; rfl
  have hk : Keeps f (f.setPhi k { i with op := .phi (incoming ++ [(v, p)]) }) :=
    .replacePhi hi rfl rfl hphi rfl
  refine ⟨hf.placement.setPhi hi rfl, hf.branching.setPhi hi hphi rfl, ?_⟩
  refine hf.rules.keep hk (.refl m) fun {j i'} hj => ?_
  rcases (getElem?_setPhi (List.getElem?_eq_some_iff.mp hi).1).mp hj with ⟨rfl, rfl⟩ | ⟨-, hold⟩
  · refine .inr ⟨⟨fun hno => ?_, fun incoming' hop' x hx => ?_⟩, ?_⟩
    · cases hno
    · cases hop'
      refine hk.available (Nat.le_refl _) ?_
      rcases List.mem_append.mp hx with hold | hnew
      · exact (hf.rules.sourced hi).inputs incoming hop x hold
      · rw [List.mem_singleton.mp hnew]
        exact hv
    · have hty := hf.rules.typed hi
      rw [hop] at hty
      show Typed m _ _ i.ty
      generalize i.ty = ty at hty
      cases hty with
      | plain h => cases h
      | phi => exact .phi _
  · exact .inl ⟨i', hold, rfl, rfl, rfl⟩

theorem mono (hf : f.Laid m) (hm : m.Extends m') : f.Laid m' :=
  ⟨hf.placement, hf.branching,
    hf.rules.keep (.refl f) hm fun {_ i'} hi' => .inl ⟨i', hi', rfl, rfl, rfl⟩⟩

/-- A block that has just been added is the target of no branch. -/
theorem not_edge_of_length_le (hf : f.Laid m) (hq : f.blocks.length ≤ q) : ¬ f.Edge p q :=
  fun he => Nat.not_lt.mpr hq (hf.branching.target he).1

end Laid

end Function

end TreeCompiler.IR
