/-
Where the lowering of a program starts and what it leaves.

Before the first statement the module has three functions: the printing function of the system, the
helper that prints a line, and the entry function with one empty block.  The statements are lowered
with that block as the only region.  What is left is to end the entry function, unless the program
did.

`lowerProgram_eq` says this in terms of the walk over the root block, and `lowerProgram_ok` turns it
into the form that all properties of finished modules start from: a run from the first state.
-/
import TreeCompiler.Proofs.Lowering.Walk

namespace TreeCompiler.Lowering

open IR (FuncId BlockId InstId Ty Value Op)

/-! ### The first state -/

/-- The region of the statements of a program. -/
def entryCursor : Cursor := ⟨2, 0⟩

/-- The state in which the statements of a program are lowered. -/
def start (options : Options) : Lowerer :=
  { code := (openModule options).2, options, scopes := ⟨[{ cursor := entryCursor }]⟩ }

/-- The printing function of the system. -/
def printfFunction : IR.Function :=
  .new "printf" { params := [.str], ret := .i32, variadic := true } .external

theorem openModule_functions (options : Options) : ∃ helperName entryName,
    (openModule options).2.functions = [printfFunction,
      (helperBody 0 (.global 0) (.new helperName { params := [.str], ret := .void } .concealed)).2,
      ((IR.Function.new entryName { params := [], ret := .void } .external).createBlock
        "entry").2] :=
  ⟨_, _, rfl⟩

@[simp] theorem start_functions_length (options : Options) :
    (start options).code.functions.length = 3 := rfl

theorem start_at (options : Options) : (start options).At entryCursor := rfl

theorem start_valid (options : Options) : (start options).Valid := by
  intro scope hmem
  obtain rfl : scope = { cursor := entryCursor } := by simpa [start] using hmem
  exact ⟨Nat.lt_succ_self 2, Nat.zero_lt_one⟩

/-! ### The whole program -/

/-- A program is lowered by walking its root block from the first state. -/
theorem lowerProgram_eq (root : Program.Block) (options : Options) :
    lowerProgram root options =
      match outcome (lowerBlock root) (start options) with
      | (.ok _, t) => .ok { code := closeModule entryCursor t.code, errors := t.errors }
      | (.error e, _) => .error e := by
  have hwalk := lowerBlock_yields root (start options) (start_valid options)
  have hpush : outcome (pushScope (openModule options).1)
      { code := (openModule options).2, options }
      = (.ok (), start options) := rfl
  have hbody : outcome (do
      pushScope (openModule options).1
      let _ ← lowerBlock root
      popScope) { code := (openModule options).2, options }
      = match outcome (lowerBlock root) (start options) with
        | (.ok _, t) => (.ok (), t.leave)
        | (.error e, t) => (.error e, t) := by
    rw [outcome_bind_ok _ _ hpush, outcome_bind]
    obtain ⟨v, t, hok, hrun, -⟩ | ⟨e, t, herr, -, -⟩ := hwalk.cases
    · have ht := ((hrun.advances (start_valid options)).at_iff.mpr (start_at options)).ne_nil
      simp only [hok]
      rw [outcome_popScope, if_neg ht]
    · simp only [herr]
  show (match outcome (do
      pushScope (openModule options).1
      let _ ← lowerBlock root
      popScope) { code := (openModule options).2, options } with
    | (.ok (), s) => (.ok { code := closeModule entryCursor s.code, errors := s.errors } :
        Except LowerError Lowered)
    | (.error e, _) => .error e) = _
  rw [hbody]
  rcases outcome (lowerBlock root) (start options) with ⟨_ | _, t⟩ <;> rfl

/-- What ends the entry function is one more instruction, if anything. -/
theorem runs_closeModule {t : Lowerer} (ht : t.At entryCursor) :
    ∃ u, Runs t u ∧ u.code = closeModule entryCursor t.code ∧ u.errors = t.errors := by
  unfold closeModule
  split
  · exact ⟨t, .refl t, rfl, rfl⟩
  · exact ⟨t.emit entryCursor (.ret none) .void none,
      .plain ht .ret (by simp [Op.operands]), rfl, rfl⟩

/-- **The result of a program is what a run from the first state leaves.** -/
theorem lowerProgram_ok {root : Program.Block} {options : Options} {l : Lowered}
    (h : lowerProgram root options = .ok l) :
    ∃ t, Runs (start options) t ∧ t.code = l.code ∧ t.errors = l.errors := by
  rw [lowerProgram_eq] at h
  obtain ⟨v, t, hok, hrun, -⟩ | ⟨e, t, herr, -, -⟩ :=
    (lowerBlock_yields root (start options) (start_valid options)).cases
  · simp only [hok] at h
    cases h
    obtain ⟨u, hrun', hcode, herrors⟩ :=
      runs_closeModule ((hrun.advances (start_valid options)).at_iff.mpr (start_at options))
    exact ⟨u, hrun.trans hrun', hcode, herrors⟩
  · simp only [herr] at h
    cases h

end TreeCompiler.Lowering
