/-
What a change to a function or a module leaves alone.

Functions are built by adding: an instruction goes to the end of the list of instructions and to the
end of one block, a block goes to the end of the list of blocks.  So a position, once given out,
keeps its meaning, and that is what everything later rests on.  `GrowsAt b f g` says it of two
functions: `g` has all that `f` has, in the same places, and of the blocks of `f` only `b` is
longer.

A module is a list of such functions.  Changing one leaves the others as they were.
-/
import TreeCompiler.IR.Module

namespace TreeCompiler.IR

namespace Function

variable {f g h : Function} {b : BlockId}

/-- The positions of the instructions of a block. -/
def ids (f : Function) (b : BlockId) : List InstId :=
  match f.blocks[b]? with
  | some block => block.insts
  | none => []

theorem ids_of_length_le (hb : f.blocks.length ≤ b) : f.ids b = [] := by
  unfold ids
  rw [List.getElem?_eq_none hb]

theorem blockInsts_eq (f : Function) (b : BlockId) :
    f.blockInsts b = (f.ids b).filterMap fun id => f.insts[id]?.map (id, ·) := by
  unfold blockInsts ids
  cases f.blocks[b]? <;> rfl

/-! ### Adding an instruction -/

section Push

variable (f) (b) (op : Op) (ty : Ty) (name : Option String)

@[simp] theorem push_fst : (f.push b op ty name).1 = .inst f.insts.length := rfl

@[simp] theorem push_insts :
    (f.push b op ty name).2.insts = f.insts ++ [{ op, ty, name, block := b }] := rfl

@[simp] theorem push_sig : (f.push b op ty name).2.sig = f.sig := rfl

@[simp] theorem push_blocks_length :
    (f.push b op ty name).2.blocks.length = f.blocks.length := by
  simp [push]

theorem ids_push_self (hb : b < f.blocks.length) :
    (f.push b op ty name).2.ids b = f.ids b ++ [f.insts.length] := by
  simp [push, ids, List.getElem?_eq_getElem hb]

theorem ids_push_ne {a : BlockId} (ha : a ≠ b) : (f.push b op ty name).2.ids a = f.ids a := by
  unfold ids push
  simp only [List.getElem?_modify, if_neg (Ne.symm ha)]
  cases f.blocks[a]? <;> rfl

theorem label_push (a : BlockId) : (f.push b op ty name).2.label a = f.label a := by
  unfold label push
  simp only [List.getElem?_modify]
  cases f.blocks[a]? with
  | none => rfl
  | some block => by_cases hab : b = a <;> simp [hab]

theorem ids_prefix_push (a : BlockId) : f.ids a <+: (f.push b op ty name).2.ids a := by
  by_cases ha : a = b
  · subst ha
    rcases Nat.lt_or_ge a f.blocks.length with hlt | hge
    · rw [ids_push_self f a op ty name hlt]
      exact List.prefix_append _ _
    · rw [ids_of_length_le hge]
      exact List.nil_prefix
  · simp only [ids_push_ne f b op ty name ha, List.prefix_refl]

end Push

/-! ### Adding a block -/

section CreateBlock

variable (f) (base : String)

@[simp] theorem createBlock_fst : (f.createBlock base).1 = f.blocks.length := rfl

@[simp] theorem createBlock_insts : (f.createBlock base).2.insts = f.insts := rfl

@[simp] theorem createBlock_sig : (f.createBlock base).2.sig = f.sig := rfl

@[simp] theorem createBlock_blocks_length :
    (f.createBlock base).2.blocks.length = f.blocks.length + 1 := by
  simp [createBlock]

/-- A new block is empty, and so is one that does not exist. -/
@[simp] theorem ids_createBlock (a : BlockId) : (f.createBlock base).2.ids a = f.ids a := by
  simp only [createBlock, ids]
  rcases Nat.lt_trichotomy a f.blocks.length with hlt | heq | hgt
  · rw [List.getElem?_append_left hlt]
  · rw [heq]
    simp
  · rw [List.getElem?_eq_none (by simp; omega), List.getElem?_eq_none (by omega)]

theorem label_createBlock {a : BlockId} (ha : a < f.blocks.length) :
    (f.createBlock base).2.label a = f.label a := by
  simp only [createBlock, label]
  rw [List.getElem?_append_left ha]

end CreateBlock

/-! ### Changes to an instruction that is there -/

@[simp] theorem ids_setValueName (v : Value) (name : String) (a : BlockId) :
    (f.setValueName v name).ids a = f.ids a := by
  cases v <;> rfl

@[simp] theorem setValueName_sig (v : Value) (name : String) :
    (f.setValueName v name).sig = f.sig := by
  cases v <;> rfl

@[simp] theorem setValueName_blocks (v : Value) (name : String) :
    (f.setValueName v name).blocks = f.blocks := by
  cases v <;> rfl

@[simp] theorem setValueName_insts_length (v : Value) (name : String) :
    (f.setValueName v name).insts.length = f.insts.length := by
  cases v <;> simp [setValueName]

theorem setValueName_getElem?_ne {j k : InstId} (hjk : k ≠ j) (name : String) :
    (f.setValueName (.inst j) name).insts[k]? = f.insts[k]? := by
  simp only [setValueName]
  exact List.getElem?_modify_ne _ _ (Ne.symm hjk)

/-- A phi is given an input, and nothing else about the function changes. -/
theorem addIncoming_phi {k : InstId} {incoming : List (Value × BlockId)} {ty : Ty}
    {name : Option String} {a : BlockId}
    (hk : f.insts[k]? = some { op := .phi incoming, ty, name, block := a })
    (value : Value) (source : BlockId) :
    f.addIncoming (.inst k) value source
      = .ok { f with
          insts := f.insts.set k
            { op := .phi (incoming ++ [(value, source)]), ty, name, block := a } } := by
  simp only [addIncoming, hk]

/-- Whatever value is given an input, at most one instruction changes. -/
theorem addIncoming_eq_ok {phi value : Value} {source : BlockId}
    (h : f.addIncoming phi value source = .ok g) :
    ∃ k i, phi = .inst k ∧ g = { f with insts := f.insts.set k i } := by
  unfold addIncoming at h
  split at h
  · split at h
    · cases h
      exact ⟨_, _, rfl, rfl⟩
    · cases h
  · cases h

/-! ### Growing -/

/-- `g` is `f` with instructions and blocks added at the end; of the blocks of `f` only `b` got
instructions. -/
structure GrowsAt (b : BlockId) (f g : Function) : Prop where
  name : g.name = f.name
  sig : g.sig = f.sig
  linkage : g.linkage = f.linkage
  paramNames : g.paramNames = f.paramNames
  insts : f.insts <+: g.insts
  blocks : f.blocks.length ≤ g.blocks.length
  labels : ∀ a, a < f.blocks.length → g.label a = f.label a
  ids : ∀ a, f.ids a <+: g.ids a
  others : ∀ a, a < f.blocks.length → a ≠ b → g.ids a = f.ids a

namespace GrowsAt

theorem refl (b : BlockId) (f : Function) : GrowsAt b f f :=
  ⟨rfl, rfl, rfl, rfl, List.prefix_refl _, Nat.le_refl _, fun _ _ => rfl,
    fun _ => List.prefix_refl _, fun _ _ _ => rfl⟩

theorem trans (hfg : GrowsAt b f g) (hgh : GrowsAt b g h) : GrowsAt b f h where
  name := hgh.name.trans hfg.name
  sig := hgh.sig.trans hfg.sig
  linkage := hgh.linkage.trans hfg.linkage
  paramNames := hgh.paramNames.trans hfg.paramNames
  insts := hfg.insts.trans hgh.insts
  blocks := Nat.le_trans hfg.blocks hgh.blocks
  labels a ha := (hgh.labels a (Nat.lt_of_lt_of_le ha hfg.blocks)).trans (hfg.labels a ha)
  ids a := (hfg.ids a).trans (hgh.ids a)
  others a ha hab := (hgh.others a (Nat.lt_of_lt_of_le ha hfg.blocks) hab).trans
    (hfg.others a ha hab)

/-- What is added to a block that `f` does not have is no change to the blocks of `f`. -/
theorem transInner {c : BlockId} (hfg : GrowsAt b f g) (hgh : GrowsAt c g h)
    (hc : f.blocks.length ≤ c) : GrowsAt b f h where
  name := hgh.name.trans hfg.name
  sig := hgh.sig.trans hfg.sig
  linkage := hgh.linkage.trans hfg.linkage
  paramNames := hgh.paramNames.trans hfg.paramNames
  insts := hfg.insts.trans hgh.insts
  blocks := Nat.le_trans hfg.blocks hgh.blocks
  labels a ha := (hgh.labels a (Nat.lt_of_lt_of_le ha hfg.blocks)).trans (hfg.labels a ha)
  ids a := (hfg.ids a).trans (hgh.ids a)
  others a ha hab := by
    have hac : a ≠ c := by omega
    exact (hgh.others a (Nat.lt_of_lt_of_le ha hfg.blocks) hac).trans (hfg.others a ha hab)

theorem push (f : Function) (b : BlockId) (op : Op) (ty : Ty) (name : Option String) :
    GrowsAt b f (f.push b op ty name).2 where
  name := rfl
  sig := rfl
  linkage := rfl
  paramNames := rfl
  insts := List.prefix_append _ _
  blocks := by simp
  labels a _ := label_push f b op ty name a
  ids := ids_prefix_push f b op ty name
  others a _ hab := ids_push_ne f b op ty name hab

theorem createBlock (b : BlockId) (f : Function) (base : String) :
    GrowsAt b f (f.createBlock base).2 where
  name := rfl
  sig := rfl
  linkage := rfl
  paramNames := rfl
  insts := List.prefix_refl _
  blocks := by simp
  labels a ha := label_createBlock f base ha
  ids a := by simp only [ids_createBlock, List.prefix_refl]
  others a _ _ := ids_createBlock f base a

/-- What is written over an instruction that `f` does not have is no change to `f`. -/
theorem replace (hg : GrowsAt b f g) {k : InstId} (hk : f.insts.length ≤ k) (i : Inst) :
    GrowsAt b f { g with insts := g.insts.set k i } := by
  refine ⟨hg.name, hg.sig, hg.linkage, hg.paramNames, ?_, hg.blocks, hg.labels, hg.ids, hg.others⟩
  obtain ⟨rest, hrest⟩ := hg.insts
  rw [← hrest, List.set_append_right _ _ hk]
  exact List.prefix_append _ _

theorem setValueName (hg : GrowsAt b f g) {k : InstId} (hk : f.insts.length ≤ k) (name : String) :
    GrowsAt b f (g.setValueName (.inst k) name) := by
  refine ⟨hg.name, hg.sig, hg.linkage, hg.paramNames, ?_, hg.blocks, hg.labels, hg.ids, hg.others⟩
  refine List.prefix_iff_getElem?.mpr fun i hi => ?_
  have hne : k ≠ i := Nat.ne_of_gt (Nat.lt_of_lt_of_le hi hk)
  rw [setValueName_getElem?_ne (Ne.symm hne)]
  exact List.prefix_iff_getElem?.mp hg.insts i hi

/-- An instruction keeps its position. -/
theorem getElem? (hg : GrowsAt b f g) {k : InstId} (hk : k < f.insts.length) :
    g.insts[k]? = f.insts[k]? :=
  (List.prefix_iff_getElem?.mp hg.insts k hk).trans (List.getElem?_eq_getElem hk).symm

theorem some_of_some (hg : GrowsAt b f g) {k : InstId} {i : Inst} (hk : f.insts[k]? = some i) :
    g.insts[k]? = some i := by
  have hlt : k < f.insts.length := by
    rcases Nat.lt_or_ge k f.insts.length with h | h
    · exact h
    · rw [List.getElem?_eq_none h] at hk
      cases hk
  rw [hg.getElem? hlt, hk]

end GrowsAt

/-- Values that already mean something in a function: everything but the results of instructions
that it does not have. -/
def Knows (f : Function) : Value → Prop
  | .inst k => k < f.insts.length
  | _ => True

theorem GrowsAt.slotType (hg : GrowsAt b f g) {v : Value} (hv : f.Knows v) :
    g.slotType v = f.slotType v := by
  cases v with
  | inst k => simp only [Function.slotType, hg.getElem? hv]
  | const c => rfl
  | param i => rfl
  | global id => rfl

/-- A stack slot is the result of an `alloca`. -/
theorem slotType_eq_some_iff {v : Value} {ty : Ty} :
    f.slotType v = some ty ↔ ∃ k i, v = .inst k ∧ f.insts[k]? = some i ∧ i.op = .alloca ty := by
  cases v with
  | inst k =>
    simp only [Function.slotType]
    split
    · rename_i hk
      simp only [Option.some.injEq, Value.inst.injEq]
      constructor
      · rintro rfl
        exact ⟨k, _, rfl, hk, rfl⟩
      · rintro ⟨_, i, rfl, hi, hop⟩
        rw [hk] at hi
        cases hi
        simpa using hop
    · rename_i hno
      simp only [reduceCtorEq, Value.inst.injEq, false_iff]
      rintro ⟨_, ⟨op, t, n, a⟩, rfl, hi, rfl⟩
      exact hno _ _ _ _ hi
  | const c => simp [Function.slotType]
  | param i => simp [Function.slotType]
  | global id => simp [Function.slotType]

theorem knows_of_slotType {v : Value} {ty : Ty} (h : f.slotType v = some ty) : f.Knows v := by
  obtain ⟨k, i, rfl, hk, -⟩ := slotType_eq_some_iff.mp h
  exact (List.getElem?_eq_some_iff.mp hk).1

end Function

namespace Module

variable {m : Module} {id other : FuncId}

/-! ### The functions of a module -/

theorem getElem?_functions (h : id < m.functions.length) :
    m.functions[id]? = some (m.function id) := by
  simp [function, h]

theorem exists_function_of_mem {f : Function} (hf : f ∈ m.functions) :
    ∃ id, id < m.functions.length ∧ m.function id = f := by
  obtain ⟨id, hid, rfl⟩ := List.mem_iff_getElem.mp hf
  exact ⟨id, hid, by simp [function, hid]⟩

/-! ### Changing a module -/

section UpdateFunction

variable {α : Type} (change : Function → α × Function)

@[simp] theorem updateFunction_fst : (m.updateFunction id change).1 = (change (m.function id)).1 :=
  rfl

@[simp] theorem updateFunction_functions_length :
    (m.updateFunction id change).2.functions.length = m.functions.length := by
  simp [updateFunction, setFunction]

@[simp] theorem updateFunction_globals : (m.updateFunction id change).2.globals = m.globals := rfl

theorem function_updateFunction_self (h : id < m.functions.length) :
    (m.updateFunction id change).2.function id = (change (m.function id)).2 := by
  simp [updateFunction, setFunction, function, h]

theorem function_updateFunction_ne (h : other ≠ id) :
    (m.updateFunction id change).2.function other = m.function other := by
  simp only [updateFunction, setFunction, function]
  rw [List.getElem?_set_ne (Ne.symm h)]

end UpdateFunction

section AddFunction

variable (name : String) (sig : Signature) (linkage : Linkage)

@[simp] theorem addFunction_fst : (m.addFunction name sig linkage).1 = m.functions.length := rfl

@[simp] theorem addFunction_functions_length :
    (m.addFunction name sig linkage).2.functions.length = m.functions.length + 1 := by
  simp [addFunction]

@[simp] theorem addFunction_globals : (m.addFunction name sig linkage).2.globals = m.globals := rfl

theorem function_addFunction_of_lt (h : id < m.functions.length) :
    (m.addFunction name sig linkage).2.function id = m.function id := by
  simp only [addFunction, function]
  rw [List.getElem?_append_left h]

theorem function_addFunction_self :
    (m.addFunction name sig linkage).2.function m.functions.length
      = .new (m.names.next "." name) sig linkage := by
  simp [addFunction, function]

end AddFunction

@[simp] theorem function_addGlobalString (name text : String) (id : FuncId) :
    (m.addGlobalString name text).2.function id = m.function id := rfl

@[simp] theorem addGlobalString_fst (name text : String) :
    (m.addGlobalString name text).1 = .global m.globals.length := rfl

theorem globals_prefix_addGlobalString (name text : String) :
    m.globals <+: (m.addGlobalString name text).2.globals :=
  List.prefix_append _ _

end Module

end TreeCompiler.IR
