/-
How the blocks of a function are linked.

That a function is laid out well (`Function.Laid`) bounds its branches from above: they lead forward
or from a block to itself, and no block is entered from outside twice.  Here is the other half.
Every block but the first is entered from outside once, a block branches back to itself only at the
end of a loop and only once, and no block is named twice by a branch or by a phi.

While a construct is opened its blocks exist before the branch to them does, so `Linked f n` speaks
of the blocks below `n` only.  A branch to the blocks from `n` on raises the bound.
-/
import TreeCompiler.Proofs.IR.Layout

namespace TreeCompiler.IR.Function

variable {m : Module} {f g : Function} {b p q : BlockId} {k : InstId} {i : Inst} {n n' : Nat}

/-- The blocks below `n` are entered, and every branch and every phi names each block once. -/
structure Linked (f : Function) (n : Nat) : Prop where
  entered : ∀ {q : BlockId}, 0 < q → q < n →
    ∃ (k : InstId) (i : Inst), f.insts[k]? = some i ∧ i.block ≠ q ∧ q ∈ i.op.successors
  /-- What branches to its own block is the conditional branch of a block with a phi, -/
  closing : ∀ {k : InstId} {i : Inst}, f.insts[k]? = some i → i.block ∈ i.op.successors →
    (∃ cond after, i.op = .condBr cond i.block after) ∧
      ∃ (j : InstId) (phi : Inst), f.insts[j]? = some phi ∧ phi.block = i.block ∧
        phi.op.isPhi = true
  /-- and there is one of them in a block at most. -/
  once : ∀ {k k' : InstId} {i i' : Inst}, f.insts[k]? = some i → f.insts[k']? = some i' →
    i'.block = i.block → i.block ∈ i.op.successors → i'.block ∈ i'.op.successors → k' = k
  targets : ∀ {k : InstId} {i : Inst}, f.insts[k]? = some i → i.op.successors.Nodup
  sources : ∀ {k : InstId} {i : Inst} {incoming : List (Value × BlockId)}, f.insts[k]? = some i →
    i.op = .phi incoming → (incoming.map (·.2)).Nodup

namespace Linked

theorem of_insts_nil (h : f.insts = []) (hn : n ≤ 1) : f.Linked n := by
  have hno : ∀ {k : InstId} {i : Inst}, f.insts[k]? ≠ some i := by simp [h]
  refine ⟨fun hpos hlt => ?_, fun hi => absurd hi hno, fun hi => absurd hi hno,
    fun hi => absurd hi hno, fun hi => absurd hi hno⟩
  exact absurd hpos (Nat.not_lt.mpr (Nat.le_of_lt_succ (Nat.lt_of_lt_of_le hlt hn)))

/-- A branch enters the blocks that wait for it.  It may lead back to its own block if that has a
phi and no such branch yet. -/
theorem push (hf : f.Linked n) {op : Op} (ty : Ty) (name : Option String)
    (hnew : ∀ q, n ≤ q → q < n' → b ≠ q ∧ q ∈ op.successors) (htargets : op.successors.Nodup)
    (hback : b ∈ op.successors → (∃ cond after, op = .condBr cond b after) ∧
      (∃ (j : InstId) (phi : Inst), f.insts[j]? = some phi ∧ phi.block = b ∧ phi.op.isPhi = true) ∧
        ¬ f.Edge b b)
    (hsources : ∀ incoming, op = .phi incoming → (incoming.map (·.2)).Nodup) :
    (f.push b op ty name).2.Linked n' := by
  have hold : ∀ {k : InstId} {i : Inst}, f.insts[k]? = some i →
      (f.push b op ty name).2.insts[k]? = some i := fun hi => getElem?_push.mpr (.inl hi)
  refine ⟨fun {q} hpos hlt => ?_, fun {k i} hi hself => ?_,
    fun {k k' i i'} hi hi' hblock hself hself' => ?_,
    fun {k i} hi => ?_, fun {k i incoming} hi hop => ?_⟩
  · rcases Nat.lt_or_ge q n with hqn | hnq
    · obtain ⟨k, i, hi, hne, hq⟩ := hf.entered hpos hqn
      exact ⟨k, i, hold hi, hne, hq⟩
    · obtain ⟨hne, hq⟩ := hnew q hnq hlt
      exact ⟨_, _, getElem?_push.mpr (.inr ⟨rfl, rfl⟩), hne, hq⟩
  · rcases getElem?_push.mp hi with hi | ⟨rfl, rfl⟩
    · obtain ⟨hbranch, j, phi, hj, hphi⟩ := hf.closing hi hself
      exact ⟨hbranch, j, phi, hold hj, hphi⟩
    · obtain ⟨hbranch, ⟨j, phi, hj, hphi⟩, -⟩ := hback hself
      exact ⟨hbranch, j, phi, hold hj, hphi⟩
  · rcases getElem?_push.mp hi with hi | ⟨rfl, rfl⟩
    · rcases getElem?_push.mp hi' with hi' | ⟨rfl, rfl⟩
      · exact hf.once hi hi' hblock hself hself'
      · have hb : i.block = b := hblock.symm
        exact absurd ⟨k, i, hi, hb, hb ▸ hself⟩ (hback hself').2.2
    · rcases getElem?_push.mp hi' with hi' | ⟨rfl, rfl⟩
      · have hb : i'.block = b := hblock
        exact absurd ⟨k', i', hi', hb, hb ▸ hself'⟩ (hback hself).2.2
      · rfl
  · rcases getElem?_push.mp hi with hi | ⟨rfl, rfl⟩
    · exact hf.targets hi
    · exact htargets
  · rcases getElem?_push.mp hi with hi | ⟨rfl, rfl⟩
    · exact hf.sources hi hop
    · exact hsources incoming hop

/-- An instruction that neither branches nor joins. -/
theorem pushPlain (hf : f.Linked n) {op : Op} (ty : Ty) (name : Option String)
    (hsucc : op.successors = []) (hop : op.isPhi = false) : (f.push b op ty name).2.Linked n := by
  refine hf.push ty name (fun q hge hlt => absurd hlt (Nat.not_lt.mpr hge)) (by simp [hsucc])
    (by simp [hsucc]) fun incoming hphi => ?_
  rw [hphi] at hop
  cases hop

theorem createBlock (hf : f.Linked n) (base : String) : (f.createBlock base).2.Linked n :=
  ⟨hf.entered, hf.closing, hf.once, hf.targets, hf.sources⟩

theorem setValueName (hf : f.Linked n) (v : Value) (name : String) :
    (f.setValueName v name).Linked n := by
  have hback : ∀ {k : InstId} {i : Inst}, f.insts[k]? = some i →
      ∃ i', (f.setValueName v name).insts[k]? = some i' ∧ i'.op = i.op ∧ i'.block = i.block := by
    intro k i hi
    obtain ⟨i', hi', -, hblock, -⟩ := (Keeps.setValueName f v name).insts hi
    obtain ⟨i₀, hi₀, hop, -, -⟩ := getElem?_setValueName hi'
    rw [hi] at hi₀
    cases hi₀
    exact ⟨i', hi', hop, hblock⟩
  refine ⟨fun {q} hpos hlt => ?_, fun {k i} hi hself => ?_,
    fun {k k' i i'} hi hi' hblock hself hself' => ?_,
    fun {k i} hi => ?_, fun {k i incoming} hi hphi => ?_⟩
  · obtain ⟨k, i, hi, hne, hq⟩ := hf.entered hpos hlt
    obtain ⟨i', hi', hop, hblock⟩ := hback hi
    exact ⟨k, i', hi', hblock ▸ hne, hop ▸ hq⟩
  · obtain ⟨i₀, hi₀, hop, -, hblock⟩ := getElem?_setValueName hi
    rw [hop, hblock] at hself ⊢
    obtain ⟨hbranch, j, phi, hj, hjb, hphi⟩ := hf.closing hi₀ hself
    obtain ⟨phi', hj', hop', hblock'⟩ := hback hj
    exact ⟨hbranch, j, phi', hj', hblock'.trans hjb, hop' ▸ hphi⟩
  · obtain ⟨i₀, hi₀, hop, -, hb⟩ := getElem?_setValueName hi
    obtain ⟨i₁, hi₁, hop', -, hb'⟩ := getElem?_setValueName hi'
    rw [hb, hb'] at hblock
    rw [hop, hb] at hself
    rw [hop', hb'] at hself'
    exact hf.once hi₀ hi₁ hblock hself hself'
  · obtain ⟨i₀, hi₀, hop, -, -⟩ := getElem?_setValueName hi
    exact hop ▸ hf.targets hi₀
  · obtain ⟨i₀, hi₀, hop, -, -⟩ := getElem?_setValueName hi
    exact hf.sources hi₀ (hop ▸ hphi)

/-- A phi gets an input from a block that it had none from. -/
theorem addInput (hf : f.Linked n) {incoming : List (Value × BlockId)} (hi : f.insts[k]? = some i)
    (hop : i.op = .phi incoming) (hp : p ∉ incoming.map (·.2)) (v : Value) :
    (f.setPhi k { i with op := .phi (incoming ++ [(v, p)]) }).Linked n := by
  have hk : k < f.insts.length := (List.getElem?_eq_some_iff.mp hi).1
  -- Branches are no phis, so they are all still there and no other ones are.
  have hold : ∀ {j : InstId} {i' : Inst} {q : BlockId}, f.insts[j]? = some i' →
      q ∈ i'.op.successors →
      (f.setPhi k { i with op := .phi (incoming ++ [(v, p)]) }).insts[j]? = some i' := by
    intro j i' q hj hq
    refine (getElem?_setPhi hk).mpr (.inr ⟨?_, hj⟩)
    rintro rfl
    rw [hi] at hj
    cases hj
    rw [hop] at hq
    cases hq
  have hnew : ∀ {j : InstId} {i' : Inst} {q : BlockId},
      (f.setPhi k { i with op := .phi (incoming ++ [(v, p)]) }).insts[j]? = some i' →
      q ∈ i'.op.successors → f.insts[j]? = some i' := by
    intro j i' q hj hq
    rcases (getElem?_setPhi hk).mp hj with ⟨rfl, rfl⟩ | ⟨-, hj⟩
    · cases hq
    · exact hj
  refine ⟨fun {q} hpos hlt => ?_, fun {j i'} hj hself => ?_,
    fun {j j' i₁ i₂} hj hj' hblock hself hself' => ?_,
    fun {j i'} hj => ?_, fun {j i' incoming'} hj hphi => ?_⟩
  · obtain ⟨j, i', hj, hne, hq⟩ := hf.entered hpos hlt
    exact ⟨j, i', hold hj hq, hne, hq⟩
  · obtain ⟨hbranch, j', phi, hj', hjb, hphi⟩ := hf.closing (hnew hj hself) hself
    refine ⟨hbranch, j', ?_⟩
    by_cases hjk : j' = k
    · subst hjk
      rw [hi] at hj'
      cases hj'
      exact ⟨_, (getElem?_setPhi hk).mpr (.inl ⟨rfl, rfl⟩), hjb, rfl⟩
    · exact ⟨phi, (getElem?_setPhi hk).mpr (.inr ⟨hjk, hj'⟩), hjb, hphi⟩
  · exact hf.once (hnew hj hself) (hnew hj' hself') hblock hself hself'
  · rcases (getElem?_setPhi hk).mp hj with ⟨rfl, rfl⟩ | ⟨-, hj⟩
    · exact List.nodup_nil
    · exact hf.targets hj
  · rcases (getElem?_setPhi hk).mp hj with ⟨rfl, rfl⟩ | ⟨-, hj⟩
    · cases hphi
      have hsources := hf.sources hi hop
      rw [List.map_append]
      refine List.nodup_append.mpr ⟨hsources, by simp, fun a ha c hc hac => hp ?_⟩
      rwa [← show c = p from List.mem_singleton.mp hc, ← hac]
    · exact hf.sources hj hphi

/-! ### The branches of the constructs -/

/-- Two new blocks and the branch to them. -/
theorem fork (hf : f.Linked f.blocks.length) (hb : b < f.blocks.length) (cond : Value)
    (thenName elseName : String) :
    (((f.createBlock thenName).2.createBlock elseName).2.push b
      (.condBr cond f.blocks.length (f.blocks.length + 1)) .void
        none).2.Linked (f.blocks.length + 2) := by
  refine ((hf.createBlock thenName).createBlock elseName).push _ _ (fun q hge hlt => ?_) ?_
    (fun hback => ?_)
    fun _ h => by cases h
  · rw [Op.successors]
    grind
  · simp [Op.successors]
  · rw [Op.successors] at hback
    grind

/-- A new block and the jump to it. -/
theorem jump (hf : f.Linked f.blocks.length) (hb : b < f.blocks.length) (blockName : String) :
    ((f.createBlock blockName).2.push b (.br f.blocks.length) .void none).2.Linked
      (f.blocks.length + 1) := by
  refine (hf.createBlock blockName).push _ _ (fun q hge hlt => ?_) ?_ (fun hback => ?_)
    fun _ h => by cases h
  · rw [Op.successors]
    grind
  · simp [Op.successors]
  · rw [Op.successors] at hback
    grind

/-- A phi with one input. -/
theorem pushPhi (hf : f.Linked n) (input : Value × BlockId) (ty : Ty) (name : Option String) :
    (f.push b (.phi [input]) ty name).2.Linked n := by
  refine hf.push ty name (fun q hge hlt => absurd hlt (Nat.not_lt.mpr hge))
    (by simp [Op.successors])
    (by simp [Op.successors]) fun incoming hop => ?_
  cases hop
  simp

/-- **Closing a loop**: the branch back to the block of a phi, which has had one input so far, and
on to a block that waits for it. -/
theorem close (hf : f.Linked n) (hphis : f.Phis) (hb : b < n) (hi : f.insts[k]? = some i)
    (hblock : i.block = b) {start : Value} (hop : i.op = .phi [(start, p)]) (hp : p ≠ b)
    (cond v : Value) :
    ((f.push b (.condBr cond b n) .void none).2.setPhi k
      { i with op := .phi ([(start, p)] ++ [(v, b)]) }).Linked (n + 1) := by
  have hnone : ¬ f.Edge b b := by
    intro he
    have hmem := (hphis.inputs hi hop b).mpr (hblock ▸ he)
    exact hp (List.mem_singleton.mp hmem).symm
  have hbranch : (f.push b (.condBr cond b n) .void none).2.Linked (n + 1) := by
    refine hf.push _ _ (fun q hge hlt => ?_) ?_ (fun _ => ?_) fun _ h => by cases h
    · rw [Op.successors]
      grind
    · simpa [Op.successors] using Nat.ne_of_lt hb
    · exact ⟨⟨cond, n, rfl⟩, ⟨k, i, hi, hblock, by rw [hop]; rfl⟩, hnone⟩
  exact hbranch.addInput (getElem?_push.mpr (.inl hi)) hop (by simpa using Ne.symm hp) v

end Linked

end TreeCompiler.IR.Function
