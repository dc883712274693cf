/-
The shape of blocks.

A block is in shape if its last instruction ends it and no other one does.  For that it only matters
which of its instructions are terminators, so a block is reduced to a list of marks, one for each
instruction.  The verifier complains about the shape of a block exactly if its marks are not those
of a closed block (`verify_shape_iff`).

The other lemmas say what a change to a function does to the marks of its blocks.  Adding an
instruction adds a mark to its block; adding blocks, naming instructions and giving inputs to phis
do nothing.
-/
import TreeCompiler.Proofs.IR.Layout
import TreeCompiler.Proofs.IR.Verified

namespace TreeCompiler.IR

/-! ### Marks -/

namespace Marks

/-- Nothing ends the block. -/
def isOpen (marks : List Bool) : Bool := !marks.contains true

/-- The last instruction ends the block, and none does before it. -/
def isClosed (marks : List Bool) : Bool := marks.getLast? == some true && isOpen marks.dropLast

variable {marks marks' : List Bool} {b : Bool}

@[simp] theorem isOpen_nil : isOpen [] = true := rfl

@[simp] theorem isOpen_singleton : isOpen [b] = !b := by
  cases b <;> rfl

@[simp] theorem isOpen_append : isOpen (marks ++ marks') = (isOpen marks && isOpen marks') := by
  simp [isOpen, List.contains_eq_mem]

@[simp] theorem isClosed_nil : isClosed [] = false := rfl

@[simp] theorem isClosed_concat : isClosed (marks ++ [b]) = (b && isOpen marks) := by
  cases b <;> simp [isClosed]

/-- A block that is ended unless its last instruction does that is closed if it was open or closed
before. -/
theorem isClosed_ended (marks : List Bool) :
    isClosed (marks ++ if marks.getLast? == some true then [] else [true])
      = (isOpen marks || isClosed marks) := by
  rcases List.eq_nil_or_concat marks with rfl | ⟨before, b, rfl⟩
  · rfl
  · rw [List.concat_eq_append, List.getLast?_concat]
    cases b with
    | false =>
      rw [if_neg (by decide), isClosed_concat, isClosed_concat, Bool.true_and, Bool.false_and,
        Bool.or_false]
    | true =>
      rw [if_pos (by decide), List.append_nil, isOpen_append, isOpen_singleton]
      simp

end Marks

/-- The marks of a block: for each of its instructions whether it is a terminator. -/
def Function.marks (f : Function) (b : BlockId) : List Bool :=
  (f.blockInsts b).map (·.2.op.isTerminator)

/-! ### The verifier -/

theorem isOpen_map_isTerminator {ops : List Op} :
    Marks.isOpen (ops.map Op.isTerminator) = true ↔ ∀ op ∈ ops, op.isTerminator = false := by
  simp [Marks.isOpen, List.contains_eq_mem]

theorem checkTerminator_eq_nil_iff {ops : List Op} :
    checkTerminator ops = [] ↔ Marks.isClosed (ops.map Op.isTerminator) = true := by
  rcases List.eq_nil_or_concat ops with rfl | ⟨before, op, rfl⟩
  · simp [checkTerminator]
  · rw [List.concat_eq_append, List.map_append, List.map_singleton, Marks.isClosed_concat,
      Bool.and_eq_true, isOpen_map_isTerminator]
    unfold checkTerminator
    rw [List.findIdx?_append]
    cases hpos : before.findIdx? Op.isTerminator with
    | none =>
      have hopen := List.findIdx?_eq_none_iff.mp hpos
      cases hop : op.isTerminator
      · simp [hop]
      · simpa [hop] using hopen
    | some pos =>
      obtain ⟨hlt, hterm, -⟩ := List.findIdx?_eq_some_iff_getElem.mp hpos
      have hnot : ¬ ∀ op ∈ before, op.isTerminator = false := fun hopen => by
        simp [hopen _ (List.getElem_mem hlt)] at hterm
      have hne : pos ≠ before.length := Nat.ne_of_lt hlt
      simp [hne, hnot]

/-- What only the check of a block as a whole can find. -/
def Violation.isShape : Violation → Bool
  | .missingTerminator | .instructionAfterTerminator => true
  | _ => false

theorem Violation.isShape_eq_false_iff {v : Violation} :
    v.isShape = false ↔ v ≠ .missingTerminator ∧ v ≠ .instructionAfterTerminator := by
  cases v <;> simp [isShape]

/-- A list of complaints, none of which is about the shape of a block. -/
def NoShape (violations : List Violation) : Prop := ∀ v ∈ violations, v.isShape = false

theorem noShape_nil : NoShape [] := by
  simp [NoShape]

theorem noShape_singleton {v : Violation} (hv : v.isShape = false) : NoShape [v] := by
  simpa [NoShape] using hv

theorem noShape_ite {p : Prop} [Decidable p] {a b : List Violation} (ha : NoShape a)
    (hb : NoShape b) :
    NoShape (if p then a else b) := by
  split
  · exact ha
  · exact hb

theorem noShape_filterMap {α : Type} {check : α → Option Violation} (l : List α)
    (hcheck : ∀ {a v}, check a = some v → v.isShape = false) : NoShape (l.filterMap check) := by
  intro v hv
  obtain ⟨a, -, ha⟩ := List.mem_filterMap.mp hv
  exact hcheck ha

theorem noShape_checkPhis (ops : List Op) : NoShape (checkPhis ops) :=
  noShape_ite (noShape_singleton rfl) noShape_nil

/-- The check of an instruction says nothing about the shape of its block. -/
theorem noShape_checkInst (m : Module) (f : Function) (i : Inst) : NoShape (f.checkInst m i) := by
  unfold Function.checkInst
  split
  · exact noShape_ite (noShape_singleton rfl) noShape_nil
  · exact noShape_ite noShape_nil (noShape_singleton rfl)
  · unfold Function.checkStore
    refine noShape_ite (noShape_singleton rfl) ?_
    split
    · exact noShape_ite noShape_nil (noShape_singleton rfl)
    · exact noShape_nil
  · unfold Function.checkArith
    exact noShape_ite (noShape_ite (noShape_singleton rfl)
      (noShape_ite (noShape_singleton rfl) noShape_nil))
      (noShape_ite noShape_nil (noShape_singleton rfl))
  · unfold Function.checkCompare
    split
    · exact noShape_singleton rfl
    · exact noShape_nil
  · unfold Function.checkCall
    refine noShape_ite (noShape_filterMap _ fun {a v} h => ?_) (noShape_singleton rfl)
    dsimp only at h
    split at h <;> cases h
    rfl
  · refine noShape_filterMap _ fun {a v} h => ?_
    dsimp only at h
    split at h <;> cases h
    rfl
  · exact noShape_ite noShape_nil (noShape_singleton rfl)
  · exact noShape_nil
  · exact noShape_ite noShape_nil (noShape_singleton rfl)

theorem isShape_of_mem_checkTerminator {ops : List Op} {v : Violation}
    (h : v ∈ checkTerminator ops) :
    v.isShape = true := by
  unfold checkTerminator at h
  split at h
  · rw [List.mem_singleton.mp h]
    rfl
  · split at h
    · cases h
    · rw [List.mem_singleton.mp h]
      rfl

/-- One block: of what is checked there, only its terminators make up its shape. -/
theorem checkBlock_shape_iff {m : Module} {f : Function} {b : BlockId} :
    (∀ e ∈ f.checkBlock m b, e.violation.isShape = false) ↔ Marks.isClosed (f.marks b) = true := by
  have hmarks : ((f.blockInsts b).map (·.2.op)).map Op.isTerminator = f.marks b := by
    rw [Function.marks, List.map_map]
    rfl
  rw [← hmarks, ← checkTerminator_eq_nil_iff, List.eq_nil_iff_forall_not_mem]
  unfold Function.checkBlock checkShape
  simp only [List.forall_mem_map, List.map_map, List.mem_append]
  constructor
  · intro h v hv
    simpa [isShape_of_mem_checkTerminator hv] using h v (.inl (.inl hv))
  · rintro h v ((hv | hv) | hv)
    · exact absurd hv (h v)
    · exact noShape_checkPhis _ v hv
    · obtain ⟨i, -, hi⟩ := List.mem_flatMap.mp hv
      exact noShape_checkInst m f i v hi

/-- The verifier complains about the shape of no block exactly if every block is closed. -/
theorem Module.verify_shape_iff {m : Module} :
    (∀ e ∈ m.verify, e.violation.isShape = false) ↔
      ∀ f ∈ m.functions, ∀ b, b < f.blocks.length → Marks.isClosed (f.marks b) = true := by
  simp only [← checkBlock_shape_iff (m := m), Module.verify, Function.verify, List.mem_flatMap,
    List.mem_range]
  constructor
  · exact fun h f hf b hb e he => h e ⟨f, hf, b, hb, he⟩
  · rintro h e ⟨f, hf, b, hb, he⟩
    exact h f hf b hb e he

/-! ### Changes to a function -/

namespace Function

variable {f g : Function} {a b : BlockId}

theorem marks_eq (f : Function) (b : BlockId) :
    f.marks b = (f.ids b).filterMap fun k => f.insts[k]?.map (·.op.isTerminator) := by
  rw [marks, blockInsts_eq, List.map_filterMap]
  simp only [Option.map_map]
  rfl

theorem marks_of_length_le (hb : f.blocks.length ≤ b) : f.marks b = [] := by
  rw [marks_eq, ids_of_length_le hb, List.filterMap_nil]

/-- A block is terminated if its last mark says so. -/
theorem isTerminated_eq (f : Function) (b : BlockId) :
    f.isTerminated b = ((f.marks b).getLast? == some true) := by
  rw [isTerminated, terminator, marks, List.getLast?_map]
  cases hlast : (f.blockInsts b).getLast? with
  | none => rfl
  | some entry => cases hop : entry.2.op.isTerminator <;> simp [hop]

/-- The same list of instructions, the same of them terminators. -/
theorem marks_congr (hids : g.ids a = f.ids a)
    (hinsts : ∀ k ∈ f.ids a, g.insts[k]?.map (·.op.isTerminator) = f.insts[k]?.map
      (·.op.isTerminator)) :
    g.marks a = f.marks a := by
  rw [marks_eq, marks_eq, hids]
  exact List.filterMap_congr hinsts

theorem marks_push_self (hf : f.Placement) (hb : b < f.blocks.length) (op : Op) (ty : Ty)
    (name : Option String) : (f.push b op ty name).2.marks b = f.marks b ++ [op.isTerminator] := by
  have hold : ∀ k ∈ f.ids b, (f.push b op ty name).2.insts[k]?.map (·.op.isTerminator)
      = f.insts[k]?.map (·.op.isTerminator) := fun k hk => by
    rw [(GrowsAt.push f b op ty name).getElem? (hf.lt hk)]
  rw [marks_eq, marks_eq, ids_push_self f b op ty name hb, List.filterMap_append,
    List.filterMap_congr hold]
  simp

theorem marks_push_ne (hf : f.Placement) (hab : a ≠ b) (op : Op) (ty : Ty) (name : Option String) :
    (f.push b op ty name).2.marks a = f.marks a :=
  marks_congr (ids_push_ne f b op ty name hab) fun k hk => by
    rw [(GrowsAt.push f b op ty name).getElem? (hf.lt hk)]

@[simp] theorem marks_createBlock (f : Function) (base : String) (a : BlockId) :
    (f.createBlock base).2.marks a = f.marks a :=
  marks_congr (ids_createBlock f base a) fun _ _ => rfl

@[simp] theorem marks_setValueName (f : Function) (v : Value) (name : String) (a : BlockId) :
    (f.setValueName v name).marks a = f.marks a := by
  refine marks_congr (ids_setValueName v name a) fun k _ => ?_
  cases v with
  | inst j =>
    by_cases hkj : k = j
    · subst hkj
      simp [setValueName, Function.comp_def]
    · rw [setValueName_getElem?_ne hkj]
  | const c => rfl
  | param i => rfl
  | global id => rfl

theorem marks_setPhi {k : InstId} {i phi : Inst} (hi : f.insts[k]? = some i)
    (hphi : phi.op.isTerminator = i.op.isTerminator) (a : BlockId) :
    (f.setPhi k phi).marks a = f.marks a := by
  refine marks_congr rfl fun j _ => ?_
  by_cases hjk : j = k
  · subst hjk
    have hlt : j < f.insts.length := (List.getElem?_eq_some_iff.mp hi).1
    rw [hi]
    simp [setPhi, hlt, hphi]
  · simp [setPhi, List.getElem?_set_ne (Ne.symm hjk)]

end Function

end TreeCompiler.IR
