/-
What a check that stops at the first error reports.

A check that may go on after an error reports every error of the program and then what is wrong with
the module.  A check that stops reports one error, the first of them.  But it reports it in its own
way: always for the terminal, even where a report in JSON was asked for, and without a look at the
module, so that no function is suggested in the place of one that does not exist.

`check_failFast_report` says what each of the two checks leaves behind, and that the second says
what the first one says about the first error exactly if no JSON was asked for and there is nothing
to suggest.
-/
import TreeCompiler.Proofs.Command.Verdicts

namespace TreeCompiler.Command

open Lowering
open Program (Block)
open Diagnostic (Formatter)

/-! ### Lowering that stops -/

/-- Lowering that stops ends with the first error that lowering as far as possible records. -/
theorem lowerProgram_failFast {root : Block} {options : Lowering.Options} {l : Lowered}
    {e : LowerError} {rest : List LowerError}
    (h : lowerProgram root { options with policy := .bestEffort } = .ok l)
    (herrors : l.errors = e :: rest) :
    lowerProgram root { options with policy := .failFast } = .error e := by
  have hpar := (lowerBlock_agrees root).parallel (start { options with policy := .bestEffort }) rfl
  have hstrict : start { options with policy := .failFast }
      = (start { options with policy := .bestEffort }).strict := rfl
  rw [lowerProgram_eq] at h ⊢
  rw [hstrict]
  rcases hout : outcome (lowerBlock root) (start { options with policy := .bestEffort })
    with ⟨e' | r, t⟩
  · simp [hout] at h
  · obtain rfl : { code := closeModule entryCursor t.code, errors := t.errors } = l := by
      simpa [hout] using h
    rw [hout] at hpar
    generalize outcome (lowerBlock root) (start { options with policy := .bestEffort }).strict
      = q at hpar
    cases hpar with
    | same hnone =>
      rw [show t.errors = e :: rest from herrors] at hnone
      cases hnone
    | stopped hstopped =>
      rw [show t.errors = e :: rest from herrors] at hstopped
      cases hstopped
      rfl

theorem lowerProgram_failFast_flags {root : Block} {flags : Flags} {l : Lowered} {e : LowerError}
    {rest : List LowerError} (hpolicy : flags.failFast = false)
    (h : lowerProgram root flags.lowerOptions = .ok l) (herrors : l.errors = e :: rest) :
    lowerProgram root { flags with failFast := true }.lowerOptions = .error e := by
  have hgoing : flags.lowerOptions = { flags.lowerOptions with policy := .bestEffort } := by
    simp [Flags.lowerOptions, hpolicy]
  have hstopping : { flags with failFast := true }.lowerOptions
      = { flags.lowerOptions with policy := .failFast } := by
    simp [Flags.lowerOptions]
  generalize flags.lowerOptions = options at h hgoing hstopping
  rw [hgoing] at h
  rw [hstopping]
  exact lowerProgram_failFast h herrors

/-! ### Reports -/

/-- Where a check prints its report on some diagnostics, and what: JSON among its results, or text
for the terminal among its messages. -/
def reportOn (coloured json : Bool) (path : String) (ds : List Diagnostic) : String × String :=
  if json then (Diagnostic.reportText ds path "check" ++ "\n", "")
  else ("", ({ coloured, fileName := some path } : Formatter).formatAll ds)

/-- A help is one more line below a diagnostic. -/
theorem format_help (f : Formatter) (d : Diagnostic) (text : String) :
    f.format { d with help := some text }
      = f.format { d with help := none } ++ f.footerLine (.heavy .green) "help" text := by
  simp [Formatter.format, Formatter.header, Formatter.locationLine, Formatter.place,
    Formatter.footer, String.append_assoc]

/-- So a report tells a diagnostic with a help from the same one without it. -/
theorem formatAll_help_ne (f : Formatter) (d : Diagnostic) (text : String) :
    f.formatAll [{ d with help := none }] ≠ f.formatAll [{ d with help := some text }] := by
  have hone : ∀ d, f.formatAll [d] = f.format d ++ "\n" ++ f.tally (Diagnostic.errorCount [d]) := by
    intro d
    simp [Formatter.formatAll]
  have hcount : Diagnostic.errorCount [{ d with help := some text }]
      = Diagnostic.errorCount [{ d with help := none }] :=
    rfl
  have hline : 0 < (f.footerLine (.heavy .green) "help" text).length := by
    rw [Formatter.footerLine, String.length_append]
    exact Nat.lt_add_left _ Nat.zero_lt_one
  intro h
  have hlen := congrArg String.length h
  simp only [hone, format_help, hcount, String.length_append] at hlen
  omega

/-- The help is all in which the two diagnostics of an error may differ. -/
theorem toDiagnostic_eq (e : LowerError) (m : IR.Module) :
    e.toDiagnostic = { e.toDiagnosticIn m with help := e.help } := by
  cases e <;> rfl

/-- They do differ if a function does not exist and another one can be suggested. -/
theorem help_toDiagnosticIn_ne_iff (e : LowerError) (m : IR.Module) :
    (e.toDiagnosticIn m).help ≠ e.help ↔
      ∃ name found, e = .unknownCallee name ∧
        Diagnostic.closest? name m.functionNames = some found := by
  cases e with
  | unknownCallee name =>
    show Diagnostic.didYouMean name m.functionNames ≠ none ↔ _
    unfold Diagnostic.didYouMean
    rcases hfound : Diagnostic.closest? name m.functionNames with _ | found <;> simp [hfound]
  | _ => simp [LowerError.toDiagnosticIn, LowerError.toDiagnostic]

/-- A report says the same with and without the help only if both helps are the same. -/
theorem formatAll_toDiagnostic_iff (f : Formatter) (e : LowerError) (m : IR.Module) :
    f.formatAll [e.toDiagnostic] = f.formatAll [e.toDiagnosticIn m] ↔
      (e.toDiagnosticIn m).help = e.help := by
  constructor
  · intro h
    by_contra hne
    obtain ⟨name, found, rfl, hfound⟩ := (help_toDiagnosticIn_ne_iff e m).mp hne
    have hhelp : (LowerError.unknownCallee name).toDiagnosticIn m =
        { (LowerError.unknownCallee name).toDiagnostic with
          help := some ("did you mean `" ++ found ++ "`?") } := by
      simp [LowerError.toDiagnosticIn, Diagnostic.didYouMean, hfound]
    rw [hhelp] at h
    exact formatAll_help_ne f _ _ h
  · intro h
    rw [toDiagnostic_eq e m, ← h]

/-! ### The two checks -/

section Checks

variable {folder : Folder} {flags : Flags} {root : Block} {path source : String} {l : Lowered}
  {e : LowerError}

/-- A check that goes on after errors reports all of them, and then what is wrong with the
module. -/
theorem runIn_runCheck (setting : Setting) (hinput : flags.input = some path)
    (hread : folder.read path = .ok source)
    (hroot : Block.ofString? setting.number source = some root)
    (h : lowerProgram root flags.lowerOptions = .ok l) (hne : l.errors ≠ []) :
    (runCheck setting flags).runIn "" "" folder =
      let found := lowerDiagnostics l ++ verifyDiagnostics l
      let report := reportOn setting.coloured flags.json path found
      let line := bannerFail setting.coloured "Check" found.length ++ "\n"
      { status := 1, out := if flags.json then report.1 else line,
        err := setting.loweringLog path root flags.lowerOptions ++ report.2, folder } := by
  have hcount : Diagnostic.errorCount (lowerDiagnostics l ++ verifyDiagnostics l)
      = (lowerDiagnostics l ++ verifyDiagnostics l).length := by
    rw [errorCount_append_verify]
    simp [lowerDiagnostics, verifyDiagnostics]
  have hfound : lowerDiagnostics l ++ verifyDiagnostics l ≠ [] := by
    simp [lowerDiagnostics, hne]
  simp only [runCheck, withInput, hinput, withLowered, withProgram, Session.runIn, hread, hroot, h,
    hcount, reportOn]
  obtain ⟨d, ds, hds⟩ := List.exists_cons_of_ne_nil hfound
  rw [hds]
  cases flags.json <;> simp [Session.runIn, showDiagnostics, statusOf]

/-- A check that stops shows its error on the terminal. -/
theorem runIn_runCheck_error (setting : Setting) (hinput : flags.input = some path)
    (hread : folder.read path = .ok source)
    (hroot : Block.ofString? setting.number source = some root)
    (h : lowerProgram root flags.lowerOptions = .error e) :
    (runCheck setting flags).runIn "" "" folder =
      let report := reportOn setting.coloured false path [e.toDiagnostic]
      { status := 1, out := report.1,
        err := setting.loweringLog path root flags.lowerOptions ++ report.2, folder } := by
  simp [runCheck, withInput, hinput, withLowered, withProgram, Session.runIn, hread, hroot, h,
    showDiagnostics, reportOn]

end Checks

/-- A report for the terminal on an error is what was asked for exactly if no JSON was and nothing
can be suggested. -/
theorem reportOn_eq_iff (coloured json : Bool) (path : String) (e : LowerError) (m : IR.Module) :
    reportOn coloured false path [e.toDiagnostic] = reportOn coloured json path [e.toDiagnosticIn m]
      ↔ json = false ∧ (e.toDiagnosticIn m).help = e.help := by
  cases json with
  | false =>
    rw [← formatAll_toDiagnostic_iff { coloured, fileName := some path }]
    simp [reportOn]
  | true =>
    refine iff_of_false (fun h => ?_) (by simp)
    have hlen := congrArg (fun report => report.1.length) h
    simp only [reportOn, Bool.false_eq_true, if_false, if_true, String.length_append] at hlen
    exact absurd hlen (Nat.ne_of_lt (Nat.lt_add_left _ Nat.zero_lt_one))

/-- What a check leaves on both channels whose messages begin with a log. -/
def afterLog (log : String) (report : String × String) : String × String :=
  (report.1, log ++ report.2)

/-- The log does not matter for what a report says. -/
theorem afterLog_inj {log : String} {a b : String × String} :
    afterLog log a = afterLog log b ↔ a = b := by
  simp [afterLog, Prod.ext_iff]

/-- **Stopping at the first error.**  Let a program that can be read have an error, `e` being the
first that is recorded, and let two checks of it have the same options but for stopping at the first
error.  Both end with status 1, and each shows the log of its own lowering first.  The one that goes
on reports `e` before everything else, as JSON if that was asked for and on the terminal otherwise.
The one that stops reports `e` and nothing else, always on the terminal, with the code, the message
and the notes of the first diagnostic of the other, but with the help that belongs to `e` alone.  So
it says what the other says first, and as it was asked to, exactly if no JSON was asked for and `e`
is not the call of a missing function with a name like that of another. -/
theorem check_failFast_report (setting : Setting) {folder : Folder} {args args' : List String}
    {flags : Flags} {path source : String} {root : Block} {l : Lowered} {e : LowerError}
    {rest : List LowerError}
    (hargs : ({} : Flags).parse args = .ok flags) (hpolicy : flags.failFast = false)
    (hargs' : ({} : Flags).parse args' = .ok { flags with failFast := true })
    (hinput : flags.input = some path) (hread : folder.read path = .ok source)
    (hroot : Block.ofString? setting.number source = some root)
    (h : lowerProgram root flags.lowerOptions = .ok l) (herrors : l.errors = e :: rest) :
    let first := e.toDiagnosticIn l.code
    let found := first :: (rest.map (·.toDiagnosticIn l.code) ++ verifyDiagnostics l)
    let all := (run setting ("check" :: args)).runIn "" "" folder
    let stopped := (run setting ("check" :: args')).runIn "" "" folder
    let log := setting.loweringLog path root flags.lowerOptions
    let log' := setting.loweringLog path root { flags with failFast := true }.lowerOptions
    (all.status = 1 ∧ all.err = log ++ (reportOn setting.coloured flags.json path found).2 ∧
      all.out = if flags.json then (reportOn setting.coloured true path found).1
        else bannerFail setting.coloured "Check" found.length ++ "\n") ∧
    (stopped.status = 1 ∧
      (stopped.out, stopped.err)
        = afterLog log' (reportOn setting.coloured false path [{ first with help := e.help }])) ∧
    ((stopped.out, stopped.err)
        = afterLog log' (reportOn setting.coloured flags.json path [first]) ↔
      flags.json = false ∧
        ¬ ∃ name close, e = .unknownCallee name ∧
          Diagnostic.closest? name l.code.functionNames = some close) := by
  have hfast := lowerProgram_failFast_flags hpolicy h herrors
  have hcheck : run setting ("check" :: args) = runCheck setting flags := by simp [run, hargs]
  have hcheck' : run setting ("check" :: args')
      = runCheck setting { flags with failFast := true } := by
    simp [run, hargs']
  have hfound : lowerDiagnostics l ++ verifyDiagnostics l
      = e.toDiagnosticIn l.code :: (rest.map (·.toDiagnosticIn l.code) ++ verifyDiagnostics l) := by
    simp [lowerDiagnostics, herrors]
  have hall := runIn_runCheck setting hinput hread hroot h (by simp [herrors])
  have hinput' : { flags with failFast := true }.input = some path := hinput
  have hstopped := runIn_runCheck_error setting hinput' hread hroot hfast
  rw [hfound] at hall
  simp only [hcheck, hcheck', hall, hstopped, ← toDiagnostic_eq]
  refine ⟨⟨trivial, trivial, ?_⟩, ⟨trivial, rfl⟩, ?_⟩
  · cases flags.json <;> simp
  · rw [← help_toDiagnosticIn_ne_iff, not_not]
    exact afterLog_inj.trans (reportOn_eq_iff setting.coloured flags.json path e l.code)

/-- The text of a program with a misspelt call. -/
def misspeltText : String := "[0,[[1,\x7b\"Expr\":[2,\x7b\"Call\":[\"prinln\",[]]\x7d]\x7d]]]"

/-- A folder with that program. -/
def misspeltFolder : Folder := { files := [("p.json", .content (.text misspeltText))] }

/-- Of the help that a check offers for the call nothing is left if it stops there, and no JSON. -/
theorem check_failFast_report_misspelt :
    ∃ l, (Block.ofString? Program.nearest misspeltText).map (lowerProgram · {}) = some (.ok l) ∧
      l.errors = [.unknownCallee "prinln"] ∧
      ∀ json : Bool,
        let args := "check" :: "p.json" :: "--fail-fast" :: if json then ["--json"] else []
        let stopped := (run {} args).runIn "" "" misspeltFolder
        stopped.status = 1 ∧ stopped.out = "" ∧
          (stopped.out, stopped.err) ≠
            reportOn false json "p.json"
              [(LowerError.unknownCallee "prinln").toDiagnosticIn l.code] := by
  have hsource : (Block.ofString? Program.nearest misspeltText).any
      (fun root => (lowerProgram root {}).toOption.any fun l =>
      decide (l.errors = [.unknownCallee "prinln"] ∧
        Diagnostic.closest? "prinln" l.code.functionNames = some "println")) = true := by
    decide +kernel
  obtain ⟨root, hroot, hlowered⟩ := (Option.any_eq_true _ _).mp hsource
  rcases h : lowerProgram root {} with e | l
  · simp [h, Except.toOption] at hlowered
  · simp only [h, Except.toOption, Option.any_some, decide_eq_true_eq] at hlowered
    obtain ⟨herrors, hclose⟩ := hlowered
    refine ⟨l, by rw [hroot, Option.map_some, h], herrors, fun json => ?_⟩
    have hargs : ({} : Flags).parse ("p.json" :: if json then ["--json"] else [])
        = .ok { input := some "p.json", json } := by
      cases json <;> rfl
    have hargs' : ({} : Flags).parse ("p.json" :: "--fail-fast" :: if json then ["--json"] else [])
        = .ok { input := some "p.json", failFast := true, json } := by
      cases json <;> rfl
    have hread : misspeltFolder.read "p.json" = .ok misspeltText := rfl
    obtain ⟨-, ⟨hstatus, hreport⟩, hiff⟩ :=
      check_failFast_report {} hargs rfl hargs' rfl hread hroot h herrors
    exact ⟨hstatus, congrArg Prod.fst hreport,
      fun heq => (hiff.mp heq).2 ⟨"prinln", "println", rfl, hclose⟩⟩

end TreeCompiler.Command
