/-
A report reads back.

The text of a report keeps to the grammar of JSON, and a program that reads it finds there what the
report was made of.  `Shows` says it of one diagnostic: each field stands under its key, and a field
with nothing to say has no member at all, so that no reader has to tell null from absent.  The
counts are about the diagnostics that were read, not about those that were written: the severity of
each is looked up as any reader would do it.
-/
import Mathlib.Data.List.Forall2
import TreeCompiler.Diagnostic.Report
import TreeCompiler.Proofs.Json.RoundTrip

namespace TreeCompiler

namespace Json

/-! ### Looking things up in a value -/

/-- The value of an object under a key. -/
def member? (key : String) : Json → Option Json
  | .obj members => members.lookup (some key)
  | _ => none

/-- The keys of an object, in order. -/
def keys : Json → List (Option String)
  | .obj members => members.map (·.1)
  | _ => []

/-- The text of an object under a key. -/
def textAt? (key : String) (j : Json) : Option String :=
  match j.member? key with
  | some (.str s) => s
  | _ => none

theorem member?_object (members : List (String × Json)) (key : String) :
    (object members).member? key = members.lookup key := by
  unfold object member?
  dsimp only
  induction members with
  | nil => rfl
  | cons m members ih =>
    rw [List.map_cons, List.lookup_cons, List.lookup_cons, ih, Option.some_beq_some]

theorem keys_object (members : List (String × Json)) :
    (object members).keys = members.map fun m => some m.1 := by
  simp [object, keys]

end Json

namespace Diagnostic

/-! ### Members that may be absent -/

/-- The members whose value is there. -/
def present (fields : List (String × Option Json)) : List (String × Json) :=
  fields.filterMap fun f => f.2.map fun value => (f.1, value)

theorem present_cons_none (key : String) (fields : List (String × Option Json)) :
    present ((key, none) :: fields) = present fields := rfl

theorem present_cons_some (key : String) (value : Json) (fields : List (String × Option Json)) :
    present ((key, some value) :: fields) = (key, value) :: present fields := rfl

theorem present_append (fields fields' : List (String × Option Json)) :
    present (fields ++ fields') = present fields ++ present fields' :=
  List.filterMap_append

theorem keys_present (fields : List (String × Option Json)) :
    ((present fields).map (·.1)).Sublist (fields.map (·.1)) := by
  induction fields with
  | nil => exact .slnil
  | cons f fields ih =>
    obtain ⟨key, _ | value⟩ := f
    · rw [present_cons_none, List.map_cons]
      exact ih.cons key
    · rw [present_cons_some, List.map_cons, List.map_cons]
      exact ih.cons_cons key

theorem lookup_present {fields : List (String × Option Json)} (hnodup : (fields.map (·.1)).Nodup)
    (key : String) :
    (present fields).lookup key = (fields.lookup key).join := by
  induction fields with
  | nil => rfl
  | cons f fields ih =>
    obtain ⟨hnew, hrest⟩ := List.nodup_cons.mp hnodup
    obtain ⟨key', value⟩ := f
    by_cases hkey : key = key'
    · subst hkey
      have hnone : fields.lookup key = none := by
        refine List.lookup_eq_none_iff.mpr fun f hf => bne_iff_ne.mpr ?_
        rintro rfl
        exact hnew (List.mem_map.mpr ⟨f, hf, rfl⟩)
      cases value with
      | none => simp [present_cons_none, ih hrest, hnone]
      | some value => simp [present_cons_some]
    · have hbeq : (key == key') = false := beq_false_of_ne hkey
      cases value with
      | none => simp [present_cons_none, ih hrest, List.lookup_cons, hbeq]
      | some value => simp [present_cons_some, ih hrest, List.lookup_cons, hbeq]

/-! ### One diagnostic -/

/-- The fields of a diagnostic with their keys, in order. -/
def fields (d : Diagnostic) : List (String × Option Json) :=
  let info := d.code.bind codeInfo?
  [("severity", some (.text d.severity.text)),
   ("code", d.code.map .text),
   ("category", info.map fun i => .text i.category.text),
   ("title", info.map fun i => .text i.title),
   ("message", some (.text d.message)),
   ("location", d.location.map .text),
   ("notes", if d.notes = [] then none else some (.arr (d.notes.map .text))),
   ("help", d.help.map .text)]

theorem optionalMember_eq (key : String) (text : Option String) :
    optionalMember key text = present [(key, text.map .text)] := by
  cases text <;> rfl

theorem toJson_eq (d : Diagnostic) : toJson d = .object (present (fields d)) := by
  have hnotes : (if d.notes.isEmpty then [] else [("notes", Json.arr (d.notes.map .text))]) =
      present [("notes", if d.notes = [] then none else some (.arr (d.notes.map .text)))] := by
    cases d.notes <;> rfl
  have hplain : ∀ (key : String) (value : Json), [(key, value)] = present [(key, some value)] :=
    fun _ _ => rfl
  simp only [toJson, optionalMember_eq, hnotes, Option.map_map]
  simp only [hplain, ← present_append]
  rfl

theorem nodup_fields (d : Diagnostic) : ((fields d).map (·.1)).Nodup := by
  simp [fields]

theorem member?_toJson (d : Diagnostic) (key : String) :
    (toJson d).member? key = ((fields d).lookup key).join := by
  rw [toJson_eq, Json.member?_object, lookup_present (nodup_fields d)]

/-- What a reader finds in the value of a diagnostic. -/
structure Shows (d : Diagnostic) (j : Json) : Prop where
  /-- Each key occurs once, and there are no others. -/
  keys : j.keys.Sublist (["severity", "code", "category", "title", "message", "location", "notes",
    "help"].map some)
  severity : j.member? "severity" = some (.text d.severity.text)
  code : j.member? "code" = d.code.map .text
  message : j.member? "message" = some (.text d.message)
  location : j.member? "location" = d.location.map .text
  notes : j.member? "notes" = if d.notes = [] then none else some (.arr (d.notes.map .text))
  help : j.member? "help" = d.help.map .text
  registered : ∀ info ∈ registry, d.code = some info.code →
    j.member? "category" = some (.text info.category.text) ∧
      j.member? "title" = some (.text info.title)
  unregistered : (∀ info ∈ registry, d.code ≠ some info.code) →
    j.member? "category" = none ∧ j.member? "title" = none

/-- No two entries of the registry have the same code. -/
theorem codeInfo?_code : ∀ info ∈ registry, codeInfo? info.code = some info := by
  decide

theorem codeInfo?_eq_none {code : String} (h : ∀ info ∈ registry, code ≠ info.code) :
    codeInfo? code = none := by
  refine List.find?_eq_none.mpr fun info hinfo => ?_
  simpa using (h info hinfo).symm

theorem toJson_shows (d : Diagnostic) : Shows d (toJson d) where
  keys := by
    have hkeys := (keys_present (fields d)).map some
    rw [List.map_map] at hkeys
    rw [toJson_eq, Json.keys_object]
    exact hkeys
  severity := member?_toJson d _
  code := member?_toJson d _
  message := member?_toJson d _
  location := member?_toJson d _
  notes := member?_toJson d _
  help := member?_toJson d _
  registered := by
    intro info hinfo hcode
    have hfound : d.code.bind codeInfo? = some info := by
      rw [hcode, Option.bind_some, codeInfo?_code info hinfo]
    simp only [member?_toJson, fields, hfound]
    exact ⟨rfl, rfl⟩
  unregistered := by
    intro hnone
    have hfound : d.code.bind codeInfo? = none := by
      cases hcode : d.code with
      | none => rfl
      | some code =>
        exact codeInfo?_eq_none fun info hinfo heq => hnone info hinfo (by rw [hcode, heq])
    simp only [member?_toJson, fields, hfound]
    exact ⟨rfl, rfl⟩

/-! ### The report -/

/-- Only texts are written for a diagnostic, and lists of texts. -/
theorem reads_fields (d : Diagnostic) : ∀ f ∈ fields d, ∀ value ∈ f.2, Json.Reads value value := by
  have htext : ∀ {α : Type} (text : α → String) (o : Option α),
      ∀ value ∈ o.map fun a => Json.text (text a), Json.Reads value value := by
    intro α text o value hvalue
    obtain ⟨a, -, rfl⟩ := Option.map_eq_some_iff.mp hvalue
    exact Json.reads_text (text a)
  have hnotes : ∀ value ∈ (if d.notes = [] then none else some (Json.arr (d.notes.map .text))),
      Json.Reads value value := by
    intro value hvalue
    split at hvalue
    · cases hvalue
    · cases hvalue
      refine Json.reads_arr fun j hj => ?_
      obtain ⟨note, -, rfl⟩ := List.mem_map.mp hj
      exact Json.reads_text note
  simp only [fields, List.forall_mem_cons]
  exact ⟨htext id (some d.severity.text), htext id d.code,
    htext (fun i => i.category.text) (d.code.bind codeInfo?),
    htext CodeInfo.title (d.code.bind codeInfo?), htext id (some d.message),
      htext id d.location, hnotes,
    htext id d.help, by simp⟩

theorem reads_toJson (d : Diagnostic) : Json.Reads (toJson d) (toJson d) := by
  rw [toJson_eq]
  refine Json.reads_object fun m hm => ?_
  obtain ⟨f, hf, hfield⟩ := List.mem_filterMap.mp hm
  obtain ⟨value, hvalue, rfl⟩ := Option.map_eq_some_iff.mp hfield
  exact reads_fields d f hf value hvalue

theorem reads_report (ds : List Diagnostic) (file phase : String) :
    Json.Reads (report ds file phase) (report ds file phase) := by
  refine Json.reads_object fun m hm => ?_
  simp only [List.mem_cons, List.not_mem_nil, or_false] at hm
  rcases hm with rfl | rfl | rfl | rfl | rfl | rfl | rfl
  · exact Json.reads_nat _
  · exact Json.reads_text file
  · exact .bool _
  · exact Json.reads_text phase
  · refine Json.reads_arr fun j hj => ?_
    obtain ⟨d, -, rfl⟩ := List.mem_map.mp hj
    exact reads_toJson d
  · exact Json.reads_nat _
  · exact Json.reads_nat _

/-- Counting the values that show a severity counts the diagnostics that have it. -/
theorem countP_severity (ds : List Diagnostic) (severity : Severity) :
    (ds.map toJson).countP (fun j => decide (j.textAt? "severity" = some severity.text)) =
      ds.countP fun d => decide (d.severity = severity) := by
  rw [List.countP_map]
  refine List.countP_congr fun d _ => ?_
  have htext : (toJson d).textAt? "severity" = some d.severity.text := by
    rw [Json.textAt?, (toJson_shows d).severity]
    rfl
  simp only [Function.comp_apply, htext, decide_eq_true_eq, Option.some.injEq]
  cases d.severity <;> cases severity <;> decide

/-- The text of a report is JSON, and reading it finds everything that the report was made of: the
file, the phase and each diagnostic in order.  The counts are those of the diagnostics found there,
and success means that there is no error among them. -/
theorem reportText_roundTrip (ds : List Diagnostic) (file phase : String) :
    ∃ (j : Json) (items : List Json),
    Json.Spells (reportText ds file phase).toList j ∧
    Json.ofString? (reportText ds file phase) = some j ∧
    j.keys = ["version", "file", "success", "phase", "diagnostics", "error_count",
      "warning_count"].map some ∧
    j.member? "file" = some (.text file) ∧
    j.member? "phase" = some (.text phase) ∧
    j.member? "diagnostics" = some (.arr items) ∧
    List.Forall₂ Shows ds items ∧
    j.member? "error_count" = some
      (.nat (items.countP fun i => i.textAt? "severity" = some "error")) ∧
    j.member? "warning_count" = some
      (.nat (items.countP fun i => i.textAt? "severity" = some "warning")) ∧
    j.member? "success" = some
      (.bool (items.countP (fun i => i.textAt? "severity" = some "error") = 0)) := by
  have hreads := reads_report ds file phase
  have hspells : Json.Spells (reportText ds file phase).toList (report ds file phase) := by
    rw [reportText, Json.pretty, String.toList_ofList]
    exact hreads.spells_indented 0
  have herrors := countP_severity ds .error
  have hwarnings := countP_severity ds .warning
  refine ⟨report ds file phase, ds.map toJson, hspells, hreads.ofString?_pretty, rfl, rfl, rfl, rfl,
    ?_, ?_, ?_, ?_⟩
  · rw [List.forall₂_map_right_iff, List.forall₂_same]
    exact fun d _ => toJson_shows d
  · exact congrArg (fun n => some (Json.nat n)) herrors.symm
  · exact congrArg (fun n => some (Json.nat n)) hwarnings.symm
  · exact congrArg (fun n : Nat => some (Json.bool (decide (n = 0)))) herrors.symm

end Diagnostic

end TreeCompiler
