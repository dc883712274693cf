/-
What the commands think of a program.

Three commands judge a program, each on its own way.  Lowering ends early if it may not go on after
an error, a check looks at the module even if statements are missing in it, a build looks at it only
if none is, and generating code looks once more.  That the commands agree comes down to two facts
about a program: whether lowering it as far as possible records an error, and whether the module is
refused when it is checked.  Neither depends on the options of a command, since stopping at the
first error changes only what else is reported, and the name of the module is never looked at.

What a session asks for when it is run is the list of its `requests`.  Code is generated for a
program if that is among the requests of a build, and a file is written only after it.
-/
import TreeCompiler.Command.Folder
import TreeCompiler.Command.Run
import TreeCompiler.Proofs.Lowering.Twins

namespace TreeCompiler.Command

open Lowering
open Program (Block)

/-! ### What a session asks for -/

/-- A request for something else than to print a line. -/
inductive Request where
  | read (path : String)
  | write (path : String) (content : Content)
  | generate (code : IR.Module)

/-- What a session asks for when it is run on a folder, in order. -/
def Session.requests (folder : Folder) : Session → List Request
  | .exit _ => []
  | .print _ rest | .printError _ rest => rest.requests folder
  | .read path rest =>
    .read path ::
      match folder.read path with
      | .ok text => (rest (.ok text)).requests folder
      | .error e => (rest (.error e.text)).requests folder
  | .write path content rest =>
    .write path content ::
      match folder.write path content with
      | .ok folder => (rest (.ok ())).requests folder
      | .error e => (rest (.error e.text)).requests folder
  | .generate code rest => .generate code :: (rest (Target.compile code)).requests folder

/-- A folder that no session was asked to write to is as it was. -/
theorem Session.folder_eq_of_requests (s : Session) {folder : Folder}
    (h : ∀ path content, .write path content ∉ s.requests folder) (out err : String) :
    (s.runIn out err folder).folder = folder := by
  induction s generalizing out err with
  | exit status => rfl
  | print text rest ih => exact ih h _ _
  | printError text rest ih => exact ih h _ _
  | read path rest ih =>
    rcases hread : folder.read path with e | text <;>
      simp only [requests, runIn, hread, List.mem_cons, reduceCtorEq, false_or] at h ⊢
    · exact ih _ h _ _
    · exact ih _ h _ _
  | write path content rest ih => exact absurd (by simp [requests]) (h path content)
  | generate code rest ih =>
    simp only [requests, List.mem_cons, reduceCtorEq, false_or] at h
    exact ih _ h _ _

/-- The status that a session ends with on a folder, whatever was printed before. -/
def Session.EndsWith (folder : Folder) (s : Session) (status : Nat) : Prop :=
  ∀ out err, (s.runIn out err folder).status = status

/-! ### Diagnostics -/

section Diagnostics

variable {folder : Folder} {coloured : Bool} {path : String} {rest : Session} {status : Nat}

theorem endsWith_showDiagnostics (ds : List Diagnostic) (h : rest.EndsWith folder status) :
    (showDiagnostics coloured path ds rest).EndsWith folder status := by
  intro out err
  cases ds with
  | nil => exact h out err
  | cons d ds => exact h out _

theorem requests_showDiagnostics (ds : List Diagnostic) :
    (showDiagnostics coloured path ds rest).requests folder = rest.requests folder := by
  cases ds <;> rfl

theorem requests_failBuild (ds : List Diagnostic) :
    (failBuild coloured path ds).requests folder = [] :=
  requests_showDiagnostics ds

/-- Everything that is found while lowering is an error. -/
theorem errorCount_lowerDiagnostics (l : Lowered) :
    Diagnostic.errorCount (lowerDiagnostics l) = l.errors.length := by
  rw [Diagnostic.errorCount, List.countP_eq_length.mpr, lowerDiagnostics, List.length_map]
  intro d hd
  obtain ⟨e, -, rfl⟩ := List.mem_map.mp hd
  cases e <;> rfl

theorem errorCount_verifyDiagnostics (l : Lowered) :
    Diagnostic.errorCount (verifyDiagnostics l) = l.code.verify.length := by
  rw [Diagnostic.errorCount, List.countP_eq_length.mpr, verifyDiagnostics, List.length_map]
  intro d hd
  obtain ⟨e, -, rfl⟩ := List.mem_map.mp hd
  rfl

theorem errorCount_append_verify (l : Lowered) :
    Diagnostic.errorCount (lowerDiagnostics l ++ verifyDiagnostics l)
      = l.errors.length + l.code.verify.length := by
  rw [← errorCount_lowerDiagnostics, ← errorCount_verifyDiagnostics]
  exact List.countP_append

theorem statusOf_eq_zero_iff {n : Nat} : statusOf n = 0 ↔ n = 0 := by
  unfold statusOf
  split <;> simp_all

end Diagnostics

/-! ### One program under all options -/

/-- Lowering as far as possible always ends with a module.  Stopping at the first error, there is
the same result if no error is recorded, and an error otherwise. -/
theorem lowerProgram_total (root : Block) (options : Lowering.Options) :
    ∃ l, lowerProgram root { options with policy := .bestEffort } = .ok l ∧
      ((l.errors = [] ∧ lowerProgram root { options with policy := .failFast } = .ok l) ∨
        (l.errors ≠ [] ∧ ∃ e, lowerProgram root
          { options with policy := .failFast } = .error e)) := by
  obtain ⟨id, stmts⟩ := root
  let lenient : Lowering.Options := { options with policy := .bestEffort }
  obtain ⟨value, t, hok⟩ : ∃ value t, outcome (lowerBlock (.mk id stmts)) (start lenient)
      = (.ok value, t) :=
    lowerStmts_ok stmts none (start_valid lenient) (start_at lenient) rfl
  have hpar := (lowerBlock_agrees (.mk id stmts)).parallel (start lenient) rfl
  have hstrict : start { options with policy := .failFast } = (start lenient).strict := rfl
  rw [hok] at hpar
  refine ⟨{ code := closeModule entryCursor t.code, errors := t.errors }, by
    rw [lowerProgram_eq, hok], ?_⟩
  rw [lowerProgram_eq, hstrict]
  generalize outcome (lowerBlock (.mk id stmts)) (start lenient).strict = q at hpar
  cases hpar with
  | same herrors => exact .inl ⟨herrors, rfl⟩
  | @stopped _ _ _ e rest herrors =>
    refine .inr ⟨?_, e, rfl⟩
    rw [show t.errors = e :: rest from herrors]
    exact List.cons_ne_nil e rest

/-- A command lowers a program to a module with the same errors and the same violations as without
options, or ends because an error is there. -/
theorem lowerProgram_options (root : Block) :
    ∃ l, lowerProgram root {} = .ok l ∧ ∀ flags : Flags,
      (∃ l', lowerProgram root flags.lowerOptions = .ok l' ∧ l'.errors = l.errors ∧
        l'.code.verify = l.code.verify) ∨
        (l.errors ≠ [] ∧ ∃ e, lowerProgram root flags.lowerOptions = .error e) := by
  obtain ⟨l, hl, hstrict⟩ := lowerProgram_total root {}
  refine ⟨l, hl, fun flags => ?_⟩
  have hverify : ∀ {m n : IR.Module}, m.unheaded = n.unheaded → m.verify = n.verify := by
    intro m n h
    exact (congrArg IR.Module.verify h :)
  have hrename := fun policy =>
    lowerProgram_rename root { policy } (flags.moduleName.getD "main") none
  cases hfast : flags.failFast with
  | false =>
    have hoptions : flags.lowerOptions
        = { moduleName := flags.moduleName.getD "main", policy := .bestEffort } := by
      simp [Flags.lowerOptions, hfast]
    obtain ⟨e, herr, -⟩ | ⟨l₀, l', h, h', herrors, hcode⟩ := hrename .bestEffort
    · cases hl.symm.trans herr
    · cases hl.symm.trans h
      exact .inl ⟨l', hoptions ▸ h', herrors, hverify hcode⟩
  | true =>
    have hoptions : flags.lowerOptions
        = { moduleName := flags.moduleName.getD "main", policy := .failFast } := by
      simp [Flags.lowerOptions, hfast]
    obtain ⟨e, herr, herr'⟩ | ⟨l₀, l', h, h', herrors, hcode⟩ := hrename .failFast
    · obtain ⟨-, hsame⟩ | ⟨hne, -⟩ := hstrict
      · cases hsame.symm.trans herr
      · exact .inr ⟨hne, e, hoptions ▸ herr'⟩
    · obtain ⟨-, hsame⟩ | ⟨-, e, herr⟩ := hstrict
      · cases hsame.symm.trans h
        exact .inl ⟨l', hoptions ▸ h', herrors, hverify hcode⟩
      · cases herr.symm.trans h

/-! ### The commands -/

/-- The input that is named is in the folder and reads as a program, and the output that is named
can be written. -/
structure Supplies (number : Program.NumberReader) (folder : Folder) (flags : Flags)
    (root : Block) :
    Prop where
  input : ∃ path source, flags.input = some path ∧ folder.read path = .ok source ∧
    Block.ofString? number source = some root
  output : ∀ out, flags.output = some out → ∀ content, ∃ after, folder.write out content = .ok after

section Commands

variable {folder : Folder} {flags : Flags} {root : Block} {setting : Setting}
  {path source : String} {l : Lowered} {e : LowerError}

theorem endsWith_withLowered (hread : folder.read path = .ok source)
    (hroot : Block.ofString? setting.number source = some root)
    (h : lowerProgram root flags.lowerOptions = .ok l) {rest : Lowered → Session} {status : Nat}
    (hrest : (rest l).EndsWith folder status) :
    (withLowered setting flags path rest).EndsWith folder status := by
  intro out err
  simp only [withLowered, withProgram, Session.runIn, hread, hroot, h]
  exact hrest out _

/-- A command whose lowering had to stop ends at once. -/
theorem endsWith_withLowered_error (hread : folder.read path = .ok source)
    (hroot : Block.ofString? setting.number source = some root)
    (h : lowerProgram root flags.lowerOptions = .error e) (rest : Lowered → Session) :
    (withLowered setting flags path rest).EndsWith folder 1 := by
  intro out err
  simp only [withLowered, withProgram, Session.runIn, hread, hroot, h]
  exact endsWith_showDiagnostics _ (fun _ _ => rfl) out _

theorem requests_withLowered (hread : folder.read path = .ok source)
    (hroot : Block.ofString? setting.number source = some root)
    (h : lowerProgram root flags.lowerOptions = .ok l) (rest : Lowered → Session) :
    (withLowered setting flags path rest).requests folder
      = .read path :: (rest l).requests folder := by
  simp only [withLowered, withProgram, Session.requests, hread, hroot, h]

theorem requests_withLowered_error (hread : folder.read path = .ok source)
    (hroot : Block.ofString? setting.number source = some root)
    (h : lowerProgram root flags.lowerOptions = .error e) (rest : Lowered → Session) :
    (withLowered setting flags path rest).requests folder = [.read path] := by
  simp only [withLowered, withProgram, Session.requests, hread, hroot, h, requests_showDiagnostics]

theorem runLower_endsWith (hs : Supplies setting.number folder flags root)
    (h : lowerProgram root flags.lowerOptions = .ok l) :
    (runLower setting flags).EndsWith folder (statusOf l.errors.length) := by
  obtain ⟨path, source, hinput, hread, hroot⟩ := hs.input
  have hfinish : ∀ after : Folder, (showDiagnostics setting.coloured path (lowerDiagnostics l)
      (.exit (statusOf (Diagnostic.errorCount (lowerDiagnostics l))))).EndsWith after (statusOf
        l.errors.length) := by
    intro after
    rw [errorCount_lowerDiagnostics]
    exact endsWith_showDiagnostics _ fun _ _ => rfl
  rw [runLower, withInput, hinput]
  refine endsWith_withLowered hread hroot h fun out err => ?_
  cases houtput : flags.output with
  | none => exact hfinish folder _ err
  | some file =>
    obtain ⟨after, hwrite⟩ := hs.output file houtput (.text l.code.text)
    simp only [Session.runIn, hwrite]
    exact hfinish after out err

theorem runCheck_endsWith (hs : Supplies setting.number folder flags root)
    (h : lowerProgram root flags.lowerOptions = .ok l) :
    (runCheck setting flags).EndsWith folder
      (statusOf (l.errors.length + l.code.verify.length)) := by
  obtain ⟨path, source, hinput, hread, hroot⟩ := hs.input
  rw [runCheck, withInput, hinput]
  refine endsWith_withLowered hread hroot h ?_
  simp only [errorCount_append_verify]
  split
  · exact fun _ _ => rfl
  · exact endsWith_showDiagnostics _ fun _ _ => rfl

variable (setting) in
/-- A build generates code exactly if neither lowering nor the check of the module finds an
error. -/
theorem requests_runBuild (hs : Supplies setting.number folder flags root)
    (h : lowerProgram root flags.lowerOptions = .ok l) {out : String}
    (hout : flags.output = some out) :
    ∃ path, (runBuild setting flags).requests folder = .read path ::
      if l.errors = [] ∧ l.code.verify = [] then (writeObject setting path out l.code).requests
        folder else [] := by
  obtain ⟨path, source, hinput, hread, hroot⟩ := hs.input
  refine ⟨path, ?_⟩
  rw [runBuild, withInput, hinput]
  simp only [hout]
  rw [requests_withLowered hread hroot h]
  congr 1
  simp only [errorCount_lowerDiagnostics]
  by_cases herrors : l.errors = []
  · by_cases hverify : l.code.verify = []
    · simp [herrors, hverify, errorCount_append_verify]
    · simp [herrors, hverify, errorCount_append_verify, requests_failBuild]
  · simp [herrors, errorCount_lowerDiagnostics, requests_failBuild]

/-- The one file that a build writes holds what was generated. -/
theorem mem_requests_writeObject {out : String} {code : IR.Module} {r : Request}
    (h : r ∈ (writeObject setting path out code).requests folder) :
    r = .generate code ∨ ∃ object, (Target.compile code).result = .ok object ∧
      r = .write out (.object object (Target.compile code).listings) := by
  rw [writeObject, Session.requests, Session.requests] at h
  refine (List.mem_cons.mp h).imp_right fun hrest => ?_
  split at hrest
  · rw [requests_failBuild] at hrest
    cases hrest
  · rename_i object hobject
    rw [Session.requests] at hrest
    refine ⟨object, hobject, (List.mem_cons.mp hrest).resolve_right fun hlast => ?_⟩
    split at hlast <;> simp [requests_failBuild, Session.requests] at hlast

variable (setting) in
/-- If lowering had to stop, every command fails and a build asks for nothing but its input. -/
theorem stopped_verdicts (hs : Supplies setting.number folder flags root)
    (h : lowerProgram root flags.lowerOptions = .error e) :
    (runLower setting flags).EndsWith folder 1 ∧ (runCheck setting flags).EndsWith folder 1 ∧
      ∀ r ∈ (runBuild setting flags).requests folder, ∃ path, r = .read path := by
  obtain ⟨path, source, hinput, hread, hroot⟩ := hs.input
  refine ⟨?_, ?_, fun r hr => ?_⟩
  · rw [runLower, withInput, hinput]
    exact endsWith_withLowered_error hread hroot h _
  · rw [runCheck, withInput, hinput]
    exact endsWith_withLowered_error hread hroot h _
  · rw [runBuild, withInput, hinput] at hr
    cases hout : flags.output with
    | none =>
      simp only [hout, failWith, Session.requests] at hr
      cases hr
    | some out =>
      simp only [hout, requests_withLowered_error hread hroot h] at hr
      exact ⟨path, List.mem_singleton.mp hr⟩

/-- A build writes what it was given by the code generator, where it was told to. -/
theorem write_mem_requests_runBuild (hs : Supplies setting.number folder flags root)
    (h : lowerProgram root flags.lowerOptions = .ok l) {file : String} {content : Content}
    (hw : .write file content ∈ (runBuild setting flags).requests folder) :
    flags.output = some file ∧
      ∃ object, .generate l.code ∈ (runBuild setting flags).requests folder ∧
      (Target.compile l.code).result = .ok object ∧
        content = .object object (Target.compile l.code).listings := by
  cases hout : flags.output with
  | none =>
    obtain ⟨path, source, hinput, -⟩ := hs.input
    simp [runBuild, withInput, hinput, hout, failWith, Session.requests] at hw
  | some out =>
    obtain ⟨path, hrequests⟩ := requests_runBuild setting hs h hout
    rw [hrequests] at hw ⊢
    split at hw
    · rename_i hclean
      rw [if_pos hclean]
      obtain hread | hobject := List.mem_cons.mp hw
      · cases hread
      · obtain hgenerate | ⟨object, hresult, heq⟩ := mem_requests_writeObject hobject
        · cases hgenerate
        · cases heq
          exact ⟨rfl, object, by simp [writeObject, Session.requests], hresult, rfl⟩
    · simp at hw

end Commands

/-! ### Verdicts -/

/-- The status that a command line ends with on a folder. -/
def exitStatus (setting : Setting) (folder : Folder) (args : List String) : Nat :=
  ((run setting args).runIn "" "" folder).status

/-- **The commands agree.**  For every program there is one module with its errors, and by it alone
every command goes that is given the program and can write its output, whatever its options are:
lowering succeeds if no error is recorded, a check if moreover the module has no violation, a build
generates code if a check succeeds, and a file is written by it only if that has produced an
object. -/
theorem run_verdicts (root : Block) :
    ∃ l, lowerProgram root {} = .ok l ∧
      ∀ (setting : Setting) (folder : Folder) (args : List String) (flags : Flags),
        ({} : Flags).parse args = .ok flags → Supplies setting.number folder flags root →
        (exitStatus setting folder ("lower" :: args) = 0 ↔ l.errors = []) ∧
        (exitStatus setting folder ("check" :: args) = 0 ↔ l.errors = [] ∧ l.code.verify = []) ∧
        (flags.output.isSome →
          ((∃ code, .generate code ∈ (run setting ("build" :: args)).requests folder) ↔
            exitStatus setting folder ("check" :: args) = 0)) ∧
        (∀ file content, .write file content ∈ (run setting ("build" :: args)).requests folder →
          flags.output = some file ∧ ∃ code object,
            .generate code ∈ (run setting ("build" :: args)).requests folder ∧
            (Target.compile code).result = .ok object ∧
            content = .object object (Target.compile code).listings) ∧
        ((∀ file content, .write file content ∉ (run setting ("build" :: args)).requests folder) →
          ((run setting ("build" :: args)).runIn "" "" folder).folder = folder) := by
  obtain ⟨l, hl, hoptions⟩ := lowerProgram_options root
  refine ⟨l, hl, fun setting folder args flags hflags hs => ?_⟩
  have hlower : run setting ("lower" :: args) = runLower setting flags := by simp [run, hflags]
  have hcheck : run setting ("check" :: args) = runCheck setting flags := by simp [run, hflags]
  have hbuild : run setting ("build" :: args) = runBuild setting flags := by simp [run, hflags]
  rw [exitStatus, exitStatus, hlower, hcheck, hbuild]
  refine ⟨?_, ?_, ?_, ?_, fun hnone => Session.folder_eq_of_requests _ hnone "" ""⟩ <;>
    obtain ⟨l', h', herrors, hverify⟩ | ⟨hne, e, herr⟩ := hoptions flags
  · rw [runLower_endsWith hs h', statusOf_eq_zero_iff, List.length_eq_zero_iff, herrors]
  · rw [(stopped_verdicts setting hs herr).1]
    simp [hne]
  · rw [runCheck_endsWith hs h', statusOf_eq_zero_iff, Nat.add_eq_zero_iff, List.length_eq_zero_iff,
      List.length_eq_zero_iff, herrors, hverify]
  · rw [(stopped_verdicts setting hs herr).2.1]
    simp [hne]
  · intro hsome
    obtain ⟨out, hout⟩ := Option.isSome_iff_exists.mp hsome
    obtain ⟨path, hrequests⟩ := requests_runBuild setting hs h' hout
    rw [runCheck_endsWith hs h', statusOf_eq_zero_iff, Nat.add_eq_zero_iff, List.length_eq_zero_iff,
      List.length_eq_zero_iff, hrequests]
    split
    · rename_i hclean
      simp [hclean, writeObject, Session.requests]
    · rename_i hfaulty
      simp [hfaulty]
  · intro _
    obtain ⟨-, hfail, hreads⟩ := stopped_verdicts setting hs herr
    rw [hfail]
    refine iff_of_false (fun ⟨code, hcode⟩ => ?_) (by decide)
    obtain ⟨path, heq⟩ := hreads _ hcode
    cases heq
  · intro file content hw
    obtain ⟨hfile, object, hcode, hresult, hcontent⟩ := write_mem_requests_runBuild hs h' hw
    exact ⟨hfile, l'.code, object, hcode, hresult, hcontent⟩
  · intro file content hw
    obtain ⟨path, heq⟩ := (stopped_verdicts setting hs herr).2.2 _ hw
    cases heq

/-- The text of a program that uses a variable it does not declare. -/
def undeclaredText : String := "[0,[[1,\x7b\"Expr\":[2,\x7b\"Ident\":\"x\"\x7d]\x7d]]]"

/-- A folder with that program. -/
def undeclaredFolder : Folder := { files := [("p.json", .content (.text undeclaredText))] }

theorem run_verdicts_undeclared :
    ∀ options ∈ [[], ["--fail-fast"], ["--json"], ["--fail-fast", "--json"]],
      exitStatus {} undeclaredFolder ("lower" :: "p.json" :: "-o" :: "p.o" :: options) ≠ 0 ∧
      exitStatus {} undeclaredFolder ("check" :: "p.json" :: "-o" :: "p.o" :: options) ≠ 0 ∧
      ∀ code, .generate code ∉
        (run {} ("build" :: "p.json" :: "-o" :: "p.o" :: options)).requests undeclaredFolder := by
  intro options hoptions
  have hsource : (Block.ofString? Program.nearest undeclaredText).any (fun root =>
      decide ((lowerProgram root {}).map Lowered.errors
        = .ok [.unresolvedIdentifier "x"])) = true := by
    decide +kernel
  obtain ⟨root, hroot, herrors⟩ := (Option.any_eq_true _ _).mp hsource
  obtain ⟨flags, hflags, hinput, houtput⟩ : ∃ flags,
      ({} : Flags).parse ("p.json" :: "-o" :: "p.o" :: options) = .ok flags ∧
        flags.input = some "p.json" ∧ flags.output = some "p.o" := by
    simp only [List.mem_cons, List.not_mem_nil, or_false] at hoptions
    rcases hoptions with rfl | rfl | rfl | rfl <;> exact ⟨_, rfl, rfl, rfl⟩
  have hsupplies : Supplies Program.nearest undeclaredFolder flags root := by
    refine ⟨⟨"p.json", undeclaredText, hinput, rfl, hroot⟩, fun out hout content => ?_⟩
    cases houtput.symm.trans hout
    exact ⟨_, rfl⟩
  obtain ⟨l, hl, hverdicts⟩ := run_verdicts root
  obtain ⟨hlower, hcheck, hbuild, -⟩ := hverdicts {} undeclaredFolder _ flags hflags hsupplies
  have hne : l.errors ≠ [] := by
    intro hnil
    rw [hl, decide_eq_true_eq] at herrors
    have heq : l.errors = [.unresolvedIdentifier "x"] := Except.ok.inj herrors
    simp [hnil] at heq
  have hfails :
      exitStatus {} undeclaredFolder ("check" :: "p.json" :: "-o" :: "p.o" :: options) ≠ 0 :=
    fun h => hne (hcheck.mp h).1
  exact ⟨fun h => hne (hlower.mp h), hfails,
    fun code hcode => hfails ((hbuild (by simp [houtput])).mp ⟨code, hcode⟩)⟩

end TreeCompiler.Command
