/-
Blocks that are being filled.

While a program is lowered, some blocks are being filled and all others are finished.  `Done m X`
says that in module `m` every block outside of `X` is closed.  `Fills c N m m' marks shaped` says
what a piece of lowering at cursor `c` does to a module: the block there gets `marks`, other blocks
stay as they are, the blocks of `N` are new and still to be filled, and all other new blocks are
closed exactly if `shaped` is true.

Pieces at one cursor compose (`Fills.trans`).  A piece at one of the new blocks, after which that
block is finished, becomes part of the piece that made the block, with one more condition: that the
block is closed (`Fills.close`).
-/
import TreeCompiler.Proofs.IR.Shape
import TreeCompiler.Proofs.Lowering.Runs

namespace TreeCompiler.Lowering

open IR (InstId Ty Op)
open IR.Marks

/-! ### Finished blocks -/

/-- A block that a module has. -/
def Has (m : IR.Module) (c : Cursor) : Prop :=
  c.func < m.functions.length ∧ c.block < (m.function c.func).blocks.length

/-- The marks of a block. -/
def marksAt (m : IR.Module) (c : Cursor) : List Bool := (m.function c.func).marks c.block

/-- Every block but these is closed. -/
def Done (m : IR.Module) (X : List Cursor) : Prop :=
  ∀ c, Has m c → c ∉ X → isClosed (marksAt m c) = true

theorem Cursor.eq_of_func_block {c d : Cursor} (hfunc : d.func = c.func)
    (hblock : d.block = c.block) :
    d = c := by
  cases c
  cases d
  simp_all

section Done

variable {m m' : IR.Module} {X Y : List Cursor} {c d : Cursor}

theorem done_congr_mem (h : ∀ c, c ∈ X ↔ c ∈ Y) : Done m X ↔ Done m Y := by
  unfold Done
  simp only [h]

/-- When a block is finished, one more has to be closed. -/
theorem done_iff_cons (hc : Has m c) (hX : c ∉ X) :
    Done m X ↔ Done m (c :: X) ∧ isClosed (marksAt m c) = true := by
  constructor
  · exact fun h => ⟨fun d hd hmem => h d hd fun hX => hmem (List.mem_cons_of_mem _ hX), h c hc hX⟩
  · rintro ⟨h, hclosed⟩ d hd hdX
    by_cases hdc : d = c
    · rw [hdc]
      exact hclosed
    · exact h d hd fun hmem => (List.mem_cons.mp hmem).elim hdc hdX

/-- A module in which nothing is being filled. -/
theorem done_nil_iff : Done m [] ↔
    ∀ f ∈ m.functions, ∀ b, b < f.blocks.length → isClosed (f.marks b) = true := by
  constructor
  · intro h f hf b hb
    obtain ⟨id, hid, rfl⟩ := List.getElem_of_mem hf
    have hfun : m.function id = m.functions[id] := by
      simp [IR.Module.function, List.getElem?_eq_getElem hid]
    have hclosed := h ⟨id, b⟩ ⟨hid, by rw [hfun]; exact hb⟩ (by simp)
    rwa [marksAt, hfun] at hclosed
  · exact fun h c hc _ => h _ (IR.Module.function_mem hc.1) _ hc.2

end Done

/-! ### Filling blocks -/

/-- From `m` to `m'` the block at `c` gets these marks and no other block is changed.  The blocks of
`N` are new and empty, and the other new ones are closed exactly if `shaped` is true. -/
structure Fills (c : Cursor) (N : List Cursor) (m m' : IR.Module) (marks : List Bool)
    (shaped : Bool) : Prop where
  cursor : Has m c
  has : ∀ {d}, Has m d → Has m' d
  fresh : ∀ {d}, d ∈ N → Has m' d ∧ ¬ Has m d ∧ marksAt m' d = []
  marks : marksAt m' c = marksAt m c ++ marks
  others : ∀ {d}, Has m d → d ≠ c → marksAt m' d = marksAt m d
  done : ∀ {X}, c ∈ X → (∀ d ∈ X, Has m d) → (Done m' (N ++ X) ↔ Done m X ∧ shaped = true)

namespace Fills

variable {m m' m'' : IR.Module} {s : Lowerer} {c d : Cursor} {N N' : List Cursor}
  {marks marks' : List Bool} {shaped shaped' : Bool}

/-- Blocks are added, all of them empty, and one gets marks. -/
theorem intro (hc : Has m c) (hhas : ∀ d, Has m' d ↔ Has m d ∨ d ∈ N)
    (hnew : ∀ d ∈ N, ¬ Has m d ∧ marksAt m' d = []) (hmarks : marksAt m' c = marksAt m c ++ marks)
    (hothers : ∀ {d}, Has m d → d ≠ c → marksAt m' d = marksAt m d) :
    Fills c N m m' marks true where
  cursor := hc
  has hd := (hhas _).mpr (.inl hd)
  fresh hd := ⟨(hhas _).mpr (.inr hd), hnew _ hd⟩
  marks := hmarks
  others := hothers
  done {X} hX _ := by
    rw [and_iff_left rfl]
    refine forall_congr' fun d => ?_
    rw [hhas, List.mem_append, not_or]
    constructor
    · intro h hd hdX
      rw [← hothers hd fun heq => hdX (heq ▸ hX)]
      exact h (.inl hd) ⟨fun hmem => (hnew d hmem).1 hd, hdX⟩
    · rintro h hd ⟨hdN, hdX⟩
      have hold := hd.resolve_right hdN
      rw [hothers hold fun heq => hdX (heq ▸ hX)]
      exact h hold hdX

/-- What changes no function. -/
theorem ofFunctions (hc : Has m c) (hfunctions : m'.functions = m.functions) :
    Fills c [] m m' [] true := by
  have hfunction : ∀ f, m'.function f = m.function f := fun f => by
    rw [IR.Module.function, hfunctions, IR.Module.function]
  have hhas : ∀ d, Has m' d ↔ Has m d := fun d => by rw [Has, hfunctions, hfunction, Has]
  have hmarks : ∀ d, marksAt m' d = marksAt m d := fun d => by rw [marksAt, hfunction, marksAt]
  refine .intro hc (fun d => ?_) (fun d hd => absurd hd List.not_mem_nil) ?_ fun _ _ => hmarks _
  · rw [hhas, or_iff_left List.not_mem_nil]
  · rw [hmarks, List.append_nil]

theorem refl (hc : Has m c) : Fills c [] m m [] true := .ofFunctions hc rfl

/-- A block that is not there yet is not the one that is filled. -/
theorem ne_of_not_has (h : Fills c N m m' marks shaped) (hd : ¬ Has m d) : d ≠ c :=
  fun heq => hd (heq ▸ h.cursor)

/-- The blocks that are there, among them the new ones. -/
theorem has_append (h : Fills c N m m' marks shaped) {X : List Cursor} (hX : ∀ d ∈ X, Has m d) :
    ∀ d ∈ N ++ X, Has m' d := fun d hd => by
  rcases List.mem_append.mp hd with hnew | hold
  · exact (h.fresh hnew).1
  · exact h.has (hX d hold)

theorem trans (h : Fills c N m m' marks shaped) (h' : Fills c N' m' m'' marks' shaped') :
    Fills c (N' ++ N) m m'' (marks ++ marks') (shaped && shaped') where
  cursor := h.cursor
  has hd := h'.has (h.has hd)
  fresh hd := by
    rcases List.mem_append.mp hd with hnew | hold
    · obtain ⟨hhas, hno, hempty⟩ := h'.fresh hnew
      exact ⟨hhas, fun hm => hno (h.has hm), hempty⟩
    · obtain ⟨hhas, hno, hempty⟩ := h.fresh hold
      exact ⟨h'.has hhas, hno, (h'.others hhas (h.ne_of_not_has hno)).trans hempty⟩
  marks := by rw [h'.marks, h.marks, List.append_assoc]
  others hd hne := (h'.others (h.has hd) hne).trans (h.others hd hne)
  done {X} hc hX := by
    rw [List.append_assoc, h'.done (List.mem_append_right N hc) (h.has_append hX), h.done hc hX,
      Bool.and_eq_true, and_assoc]

/-- The order of the new blocks does not matter. -/
theorem reorder (h : Fills c N m m' marks shaped) (hN : ∀ d, d ∈ N' ↔ d ∈ N) :
    Fills c N' m m' marks shaped where
  cursor := h.cursor
  has := h.has
  fresh hd := h.fresh ((hN _).mp hd)
  marks := h.marks
  others := h.others
  done hc hX := by
    rw [← h.done hc hX]
    exact done_congr_mem fun d => by simp only [List.mem_append, hN]

/-- A region that is over.  Its block was new, and is now to be closed like any other. -/
theorem close (h : Fills c (d :: N) m m' marks shaped) (hin : Fills d [] m' m'' marks' shaped')
    (hd : d ∉ N) : Fills c N m m'' marks (shaped && (isClosed marks' && shaped')) := by
  obtain ⟨hdhas, hdnew, hdempty⟩ := h.fresh (List.mem_cons_self (a := d) (l := N))
  have hne : ∀ {e}, Has m e → e ≠ d := fun he heq => hdnew (heq ▸ he)
  refine ⟨h.cursor, fun he => hin.has (h.has he), fun {e} he => ?_, ?_, fun he hec => ?_,
    fun {X} hX hold => ?_⟩
  · obtain ⟨hhas, hnew, hempty⟩ := h.fresh (List.mem_cons_of_mem d he)
    exact ⟨hin.has hhas, hnew, (hin.others hhas fun heq => hd (heq ▸ he)).trans hempty⟩
  · rw [hin.others (h.has h.cursor) (hne h.cursor), h.marks]
  · rw [hin.others (h.has he) (hne he), h.others he hec]
  · have hdX : d ∉ N ++ X := fun hmem => by
      rcases List.mem_append.mp hmem with hmem | hmem
      · exact hd hmem
      · exact hne (hold d hmem) rfl
    have hregion : Done m'' (d :: (N ++ X)) ↔ Done m' (d :: N ++ X) ∧ shaped' = true :=
      hin.done List.mem_cons_self (h.has_append hold)
    rw [done_iff_cons (hin.has hdhas) hdX, hregion, h.done hX hold, hin.marks, hdempty,
      List.nil_append,
      Bool.and_eq_true, Bool.and_eq_true, and_comm (a := isClosed marks' = true),
      and_assoc, and_assoc]

/-- A change to the function at the cursor.  The blocks that it adds are new and empty. -/
theorem update {change : IR.Function → IR.Function} (hc : Has s.code c)
    (hmarks : (change (s.body c)).marks c.block = (s.body c).marks c.block ++ marks)
    (hothers : ∀ b, b ≠ c.block → (change (s.body c)).marks b = (s.body c).marks b)
    (hblocks : (s.body c).blocks.length ≤ (change (s.body c)).blocks.length)
    (hN : ∀ d : Cursor, d ∈ N ↔ d.func = c.func ∧ (s.body c).blocks.length ≤ d.block ∧
      d.block < (change (s.body c)).blocks.length) :
    Fills c N s.code (s.update c.func change).code marks true := by
  have hsame : ∀ d : Cursor, d ≠ c →
      marksAt (s.update c.func change).code d = marksAt s.code d := by
    intro d hne
    unfold marksAt
    by_cases hfunc : d.func = c.func
    · rw [hfunc, Lowerer.function_update_self change hc.1]
      exact hothers d.block fun hblock => hne (Cursor.eq_of_func_block hfunc hblock)
    · rw [Lowerer.function_update_ne change hfunc]
  refine .intro hc (fun d => ?_) (fun d hd => ?_) ?_ fun _ hne => hsame _ hne
  · rw [hN]
    unfold Has
    rw [Lowerer.update_functions_length]
    by_cases hfunc : d.func = c.func
    · rw [hfunc, Lowerer.function_update_self change hc.1]
      constructor
      · rintro ⟨-, hlt⟩
        rcases Nat.lt_or_ge d.block (s.body c).blocks.length with hold | hnew
        · exact .inl ⟨hc.1, hold⟩
        · exact .inr ⟨rfl, hnew, hlt⟩
      · rintro (⟨-, hlt⟩ | ⟨-, -, hlt⟩)
        · exact ⟨hc.1, Nat.lt_of_lt_of_le hlt hblocks⟩
        · exact ⟨hc.1, hlt⟩
    · rw [Lowerer.function_update_ne change hfunc]
      exact ⟨.inl, fun h => h.elim id fun h => absurd h.1 hfunc⟩
  · obtain ⟨hfunc, hle, -⟩ := (hN d).mp hd
    have hnew : ¬ Has s.code d := by
      rintro ⟨-, hlt⟩
      rw [hfunc] at hlt
      exact Nat.not_lt.mpr hle hlt
    refine ⟨hnew, ?_⟩
    rw [hsame d fun heq => hnew (heq ▸ hc), marksAt, hfunc]
    exact IR.Function.marks_of_length_le hle
  · show (Lowerer.body _ c).marks c.block = (s.body c).marks c.block ++ marks
    rw [Lowerer.body_update change hc.1, hmarks]

/-- A change that adds no block. -/
theorem amend {change : IR.Function → IR.Function} (hc : Has s.code c)
    (hmarks : (change (s.body c)).marks c.block = (s.body c).marks c.block ++ marks)
    (hothers : ∀ b, b ≠ c.block → (change (s.body c)).marks b = (s.body c).marks b)
    (hblocks : (change (s.body c)).blocks.length = (s.body c).blocks.length) :
    Fills c [] s.code (s.update c.func change).code marks true := by
  refine .update hc hmarks hothers (Nat.le_of_eq hblocks.symm) fun d => ?_
  simp only [List.not_mem_nil, hblocks, false_iff]
  exact fun h => Nat.not_lt.mpr h.2.1 h.2.2

/-- An instruction. -/
theorem emit (hc : Has s.code c) (hplaced : (s.body c).Placement) (op : Op) (ty : Ty)
    (name : Option String) : Fills c [] s.code (s.emit c op ty name).code [op.isTerminator] true :=
  .amend hc (IR.Function.marks_push_self hplaced hc.2 op ty name)
    (fun _ hne => IR.Function.marks_push_ne hplaced hne op ty name) (by simp)

/-- An instruction in the place of one that is like it a terminator or not. -/
theorem replace (hc : Has s.code c) {k : InstId} {i : IR.Inst} (hi : (s.body c).insts[k]? = some i)
    (phi : IR.Inst) (hphi : phi.op.isTerminator = i.op.isTerminator) :
    Fills c [] s.code (s.replace c.func k phi).code [] true := by
  have hmarks := IR.Function.marks_setPhi hi hphi
  exact .amend hc ((hmarks c.block).trans (List.append_nil _).symm) (fun b _ => hmarks b) rfl

/-- A change that adds one block. -/
theorem extend {change : IR.Function → IR.Function} (hc : Has s.code c)
    (hmarks : (change (s.body c)).marks c.block = (s.body c).marks c.block ++ marks)
    (hothers : ∀ b, b ≠ c.block → (change (s.body c)).marks b = (s.body c).marks b)
    (hblocks : (change (s.body c)).blocks.length = (s.body c).blocks.length + 1) :
    Fills c [s.nextCursor c] s.code (s.update c.func change).code marks true := by
  refine .update hc hmarks hothers (hblocks ▸ Nat.le_succ _) fun d => ?_
  rw [List.mem_singleton, hblocks]
  constructor
  · rintro rfl
    exact ⟨rfl, Nat.le_refl _, Nat.lt_succ_self _⟩
  · rintro ⟨hfunc, hle, hlt⟩
    exact Cursor.eq_of_func_block hfunc (Nat.le_antisymm (Nat.le_of_lt_succ hlt) hle)

theorem addBlock (hc : Has s.code c) (base : String) :
    Fills c [s.nextCursor c] s.code (s.addBlock c.func base).code [] true :=
  .extend hc (by simp) (fun b _ => by simp) (by simp)

end Fills

end TreeCompiler.Lowering
