/-
What a block does.

What an instruction is called and what type it has matters to nobody who runs it.  The operations of
a block are its instructions without that: each with the number that its result is known by.  They
are given once an instruction is added, and only the inputs of a phi change later.
-/
import TreeCompiler.Proofs.IR.Layout

namespace TreeCompiler.IR.Function

variable {f g : Function} {a b : BlockId}

/-- The operations of a block, in order. -/
def ops (f : Function) (b : BlockId) : List (InstId × Op) :=
  (f.blockInsts b).map fun entry => (entry.1, entry.2.op)

theorem ops_eq (f : Function) (b : BlockId) :
    f.ops b = (f.ids b).filterMap fun k => f.insts[k]?.map fun i => (k, i.op) := by
  rw [ops, blockInsts_eq, List.map_filterMap]
  simp only [Option.map_map]
  rfl

theorem ops_of_length_le (hb : f.blocks.length ≤ b) : f.ops b = [] := by
  rw [ops_eq, ids_of_length_le hb, List.filterMap_nil]

theorem Placement.map_ops (hf : f.Placement) (b : BlockId) : (f.ops b).map (·.1) = f.ids b := by
  rw [ops, List.map_map, ← hf.map_blockInsts b]
  rfl

/-- An operation of a block is that of an instruction at the same place. -/
theorem getElem?_blockInsts {j : Nat} {k : InstId} {op : Op} (h : (f.ops b)[j]? = some (k, op)) :
    ∃ i : Inst, (f.blockInsts b)[j]? = some (k, i) ∧ i.op = op := by
  rw [ops, List.getElem?_map, Option.map_eq_some_iff] at h
  obtain ⟨⟨k', i⟩, hentry, heq⟩ := h
  cases heq
  exact ⟨i, hentry, rfl⟩

/-- The same list of instructions, all with the same operations. -/
theorem ops_congr (hids : g.ids a = f.ids a)
    (hinsts : ∀ k ∈ f.ids a, g.insts[k]?.map (·.op) = f.insts[k]?.map (·.op)) :
    g.ops a = f.ops a := by
  rw [ops_eq, ops_eq, hids]
  refine List.filterMap_congr ?_
  intro k hk
  have hop := congrArg (Option.map (Prod.mk k)) (hinsts k hk)
  simpa only [Option.map_map, Function.comp_def] using hop

theorem GrowsAt.ops_eq (h : f.GrowsAt b g) (hf : f.Placement) (ha : a < f.blocks.length)
    (hab : a ≠ b) :
    g.ops a = f.ops a := by
  refine ops_congr (h.others a ha hab) ?_
  intro k hk
  rw [h.getElem? (hf.lt hk)]

theorem GrowsAt.ops_prefix (h : f.GrowsAt b g) (hf : f.Placement) (a : BlockId) :
    f.ops a <+: g.ops a := by
  obtain ⟨more, hmore⟩ := h.ids a
  have hold : ∀ k ∈ f.ids a, g.insts[k]?.map (fun i => (k, i.op)) = f.insts[k]?.map fun i =>
      (k, i.op) := by
    intro k hk
    rw [h.getElem? (hf.lt hk)]
  rw [Function.ops_eq, Function.ops_eq, ← hmore, List.filterMap_append, List.filterMap_congr hold]
  exact List.prefix_append _ _

theorem ops_push_self (hf : f.Placement) (hb : b < f.blocks.length) (op : Op) (ty : Ty)
    (name : Option String) :
    (f.push b op ty name).2.ops b = f.ops b ++ [(f.insts.length, op)] := by
  have hold : ∀ k ∈ f.ids b, (f.push b op ty name).2.insts[k]?.map (fun i => (k, i.op))
      = f.insts[k]?.map fun i => (k, i.op) := by
    intro k hk
    rw [(GrowsAt.push f b op ty name).getElem? (hf.lt hk)]
  rw [Function.ops_eq, Function.ops_eq, ids_push_self f b op ty name hb, List.filterMap_append,
    List.filterMap_congr hold]
  simp

@[simp] theorem ops_createBlock (f : Function) (base : String) (a : BlockId) :
    (f.createBlock base).2.ops a = f.ops a :=
  ops_congr (ids_createBlock f base a) fun _ _ => rfl

@[simp] theorem ops_setValueName (f : Function) (v : Value) (name : String) (a : BlockId) :
    (f.setValueName v name).ops a = f.ops a := by
  refine ops_congr (ids_setValueName v name a) ?_
  intro k _
  cases v with
  | inst j =>
    by_cases hkj : k = j
    · subst hkj
      simp [setValueName, Function.comp_def]
    · rw [setValueName_getElem?_ne hkj]
  | const c => rfl
  | param i => rfl
  | global id => rfl

theorem ops_setPhi {k : InstId} {phi : Inst} (hk : k < f.insts.length) (a : BlockId) :
    (f.setPhi k phi).ops a = (f.ops a).map fun e => if e.1 = k then (k, phi.op) else e := by
  rw [Function.ops_eq, Function.ops_eq, List.map_filterMap]
  refine List.filterMap_congr ?_
  intro j _
  by_cases hjk : j = k
  · subst hjk
    simp [setPhi, hk]
  · simp [setPhi, List.getElem?_set_ne (Ne.symm hjk), hjk, Function.comp_def]

/-- A new phi takes the place of the old one, -/
theorem ops_setPhi_self (hf : f.Placement) {k : InstId} {op : Op} {rest : List (InstId × Op)}
    (phi : Inst) (hops : f.ops b = (k, op) :: rest) :
    (f.setPhi k phi).ops b = (k, phi.op) :: rest := by
  have hids : f.ids b = k :: rest.map (·.1) := by
    rw [← hf.map_ops, hops, List.map_cons]
  have hk : k < f.insts.length := hf.lt (show k ∈ f.ids b by rw [hids]; exact List.mem_cons_self)
  have hsame : rest.map (fun e => if e.1 = k then (k, phi.op) else e) = rest := by
    refine (List.map_congr_left ?_).trans (List.map_id rest)
    intro e he
    have hsorted := hf.increasing b
    rw [hids] at hsorted
    have hlt := (List.pairwise_cons.mp hsorted).1 e.1 (List.mem_map_of_mem he)
    exact if_neg (Nat.ne_of_gt hlt)
  rw [ops_setPhi hk, hops, List.map_cons, hsame, if_pos rfl]

/-- and other blocks do not notice. -/
theorem ops_setPhi_ne (hf : f.Placement) {k : InstId} {i : Inst} (hk : f.insts[k]? = some i)
    (phi : Inst) (ha : a ≠ i.block) : (f.setPhi k phi).ops a = f.ops a := by
  refine ops_congr rfl ?_
  intro j hj
  have hjk : j ≠ k := by
    rintro rfl
    obtain ⟨i', hi', hblock⟩ := hf.listed hj
    rw [hk] at hi'
    cases hi'
    exact ha hblock.symm
  rw [setPhi, List.getElem?_set_ne hjk.symm]

end TreeCompiler.IR.Function
