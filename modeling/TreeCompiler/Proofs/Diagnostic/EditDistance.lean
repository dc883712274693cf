/-
The edit distance is the length of a shortest edit script.

A script is a list of edits, each of which inserts, deletes or substitutes one character at some
place, and it is run on a text from its first edit to its last.  Two facts make up the result.

  * Each entry of a row is the distance from what was read of the first text to a beginning of the
    second (`row`), and reading one more character keeps that.  The recurrence that fills the rows
    looks at the last characters of two beginnings, so `gap` is told the texts backwards.
  * `gap` is the length of a shortest script.  A script of that length is put together along the
    recurrence, with its edits at the end of what it has to change.  No script is shorter because
    one edit brings a text closer to another by at most one.
-/
import TreeCompiler.Diagnostic.Suggestion

namespace TreeCompiler.Diagnostic

/-! ### Edit scripts -/

/-- The change of one character of a text, at a place counted from its beginning. -/
inductive Edit where
  | insert (place : Nat) (c : Char)
  | delete (place : Nat)
  | substitute (place : Nat) (c : Char)
  deriving DecidableEq, Repr

namespace Edit

/-- The text after an edit.  There has to be a character to delete or to substitute, and a character
is inserted before another or at the end. -/
def perform? : Edit → List Char → Option (List Char)
  | insert place c, text => if place ≤ text.length then some (text.insertIdx place c) else none
  | delete place, text => if place < text.length then some (text.eraseIdx place) else none
  | substitute place c, text => if place < text.length then some (text.set place c) else none

/-- The text after all edits of a script, in order. -/
def run? (script : List Edit) (text : List Char) : Option (List Char) :=
  script.foldlM (fun text e => e.perform? text) text

variable {e : Edit} {script script' : List Edit} {s t u : List Char}

theorem run?_cons_eq_some_iff :
    run? (e :: script) s = some u ↔ ∃ t, e.perform? s = some t ∧ run? script t = some u := by
  rw [run?, List.foldlM_cons]
  exact Option.bind_eq_some_iff

theorem run?_append (h : run? script s = some t) : run? (script ++ script') s = run? script' t := by
  simp only [run?] at h ⊢
  rw [List.foldlM_append, h]
  rfl

/-! What an edit does, said by what stands before and after its place. -/

theorem perform?_insert (before after : List Char) (c : Char) :
    (insert before.length c).perform? (before ++ after) = some (before ++ c :: after) := by
  have hinsert : (before ++ after).insertIdx before.length c = before ++ c :: after := by
    induction before with
    | nil => rfl
    | cons b before ih => simp [ih]
  simp [perform?, hinsert]

theorem perform?_delete (before after : List Char) (c : Char) :
    (delete before.length).perform? (before ++ c :: after) = some (before ++ after) := by
  simp [perform?, List.eraseIdx_append_of_length_le]

theorem perform?_substitute (before after : List Char) (c d : Char) :
    (substitute before.length d).perform? (before ++ c :: after) = some (before ++ d :: after) := by
  simp [perform?]

/-- An edit puts a character in, takes one out, or has one in the place of another. -/
theorem cases_perform? (h : e.perform? s = some t) : ∃ before after : List Char,
    (∃ c, e = insert before.length c ∧ s = before ++ after ∧ t = before ++ c :: after) ∨
    (∃ c, e = delete before.length ∧ s = before ++ c :: after ∧ t = before ++ after) ∨
    ∃ c d, e = substitute before.length d ∧ s = before ++ c :: after ∧
      t = before ++ d :: after := by
  have hplace : ∀ {place}, place < s.length → ∃ before c after, s = before ++ c :: after ∧
      before.length = place :=
    fun {place} hlt => ⟨s.take place, s[place], s.drop (place + 1), by simp, by simp; omega⟩
  cases e with
  | insert place c =>
    by_cases hle : place ≤ s.length
    · obtain ⟨before, after, rfl, rfl⟩ : ∃ before after, s = before ++ after ∧
          before.length = place :=
        ⟨s.take place, s.drop place, by simp, by simp; omega⟩
      rw [perform?_insert, Option.some.injEq] at h
      exact ⟨before, after, .inl ⟨c, rfl, rfl, h.symm⟩⟩
    · simp [perform?, hle] at h
  | delete place =>
    by_cases hlt : place < s.length
    · obtain ⟨before, c, after, rfl, rfl⟩ := hplace hlt
      rw [perform?_delete, Option.some.injEq] at h
      exact ⟨before, after, .inr (.inl ⟨c, rfl, rfl, h.symm⟩)⟩
    · simp [perform?, hlt] at h
  | substitute place d =>
    by_cases hlt : place < s.length
    · obtain ⟨before, c, after, rfl, rfl⟩ := hplace hlt
      rw [perform?_substitute, Option.some.injEq] at h
      exact ⟨before, after, .inr (.inr ⟨c, d, rfl, rfl, h.symm⟩)⟩
    · simp [perform?, hlt] at h

/-- An edit does the same to a text when more stands behind it. -/
theorem perform?_append (h : e.perform? s = some t) (rest : List Char) :
    e.perform? (s ++ rest) = some (t ++ rest) := by
  obtain ⟨before, after, ⟨c, rfl, rfl, rfl⟩ | ⟨c, rfl, rfl, rfl⟩ | ⟨c, d, rfl, rfl, rfl⟩⟩ :=
    cases_perform? h
  · simpa using perform?_insert before (after ++ rest) c
  · simpa using perform?_delete before (after ++ rest) c
  · simpa using perform?_substitute before (after ++ rest) c d

theorem run?_append_text (h : run? script s = some t) (rest : List Char) :
    run? script (s ++ rest) = some (t ++ rest) := by
  induction script generalizing s with
  | nil =>
    cases h
    rfl
  | cons e script ih =>
    obtain ⟨m, hm, hrun⟩ := run?_cons_eq_some_iff.mp h
    exact run?_cons_eq_some_iff.mpr ⟨m ++ rest, perform?_append hm rest, ih hrun⟩

/-- An edit makes a text longer or shorter by at most one. -/
theorem length_perform? (h : e.perform? s = some t) :
    t.length ≤ s.length + 1 ∧ s.length ≤ t.length + 1 := by
  obtain ⟨before, after, ⟨c, -, rfl, rfl⟩ | ⟨c, -, rfl, rfl⟩ | ⟨c, d, -, rfl, rfl⟩⟩ :=
    cases_perform? h <;>
    simp <;> omega

theorem length_run? (h : run? script s = some t) :
    t.length ≤ s.length + script.length ∧ s.length ≤ t.length + script.length := by
  induction script generalizing s with
  | nil =>
    cases h
    simp
  | cons e script ih =>
    obtain ⟨m, hm, hrun⟩ := run?_cons_eq_some_iff.mp h
    have hstep := length_perform? hm
    have hrest := ih hrun
    rw [List.length_cons]
    omega

end Edit

/-! ### The recurrence -/

/-- The distance of two texts, each given from its last character to its first. -/
def gap : List Char → List Char → Nat
  | [], ys => ys.length
  | xs, [] => xs.length
  | x :: xs, y :: ys =>
    min (min (gap xs (y :: ys) + 1) (gap (x :: xs) ys + 1)) (gap xs ys + if x = y then 0 else 1)

theorem gap_nil_left (ys : List Char) : gap [] ys = ys.length := by
  simp [gap]

theorem gap_nil_right (xs : List Char) : gap xs [] = xs.length := by
  cases xs <;> simp [gap]

theorem gap_cons_cons (x y : Char) (xs ys : List Char) : gap (x :: xs) (y :: ys) =
    min (min (gap xs (y :: ys) + 1) (gap (x :: xs) ys + 1)) (gap xs ys + if x
      = y then 0 else 1) := by
  rw [gap]

theorem gap_self (xs : List Char) : gap xs xs = 0 := by
  induction xs with
  | nil => exact gap_nil_left []
  | cons x xs ih => simp [gap_cons_cons, ih]

theorem gap_cons_right_le (xs ys : List Char) (y : Char) : gap xs (y :: ys) ≤ gap xs ys + 1 := by
  cases xs with
  | nil => simp [gap_nil_left]
  | cons x xs =>
    rw [gap_cons_cons]
    omega

theorem gap_cons_left_le (xs ys : List Char) (x : Char) : gap (x :: xs) ys ≤ gap xs ys + 1 := by
  cases ys with
  | nil => simp [gap_nil_right]
  | cons y ys =>
    rw [gap_cons_cons]
    omega

theorem gap_le_cons_left (xs ys : List Char) (x : Char) : gap xs ys ≤ gap (x :: xs) ys + 1 := by
  induction ys with
  | nil =>
    rw [gap_nil_right, gap_nil_right, List.length_cons]
    omega
  | cons y ys ih =>
    have hright := gap_cons_right_le xs ys y
    rw [gap_cons_cons]
    omega

theorem gap_swap_left_le (xs ys : List Char) (c d : Char) :
    gap (c :: xs) ys ≤ gap (d :: xs) ys + 1 := by
  induction ys with
  | nil => simp [gap_nil_right]
  | cons y ys ih =>
    rw [gap_cons_cons, gap_cons_cons]
    split <;> split <;> omega

/-- If one text is further from any third than another by at most one, it is so behind the same
characters too. -/
theorem gap_append_le {xs xs' : List Char} (h : ∀ ys, gap xs ys ≤ gap xs' ys + 1)
    (behind ys : List Char) :
    gap (behind ++ xs) ys ≤ gap (behind ++ xs') ys + 1 := by
  have hlength := h []
  rw [gap_nil_right, gap_nil_right] at hlength
  -- The recurrence steps back in the one text or in the other, so there is an induction on each.
  induction behind generalizing ys with
  | nil => exact h ys
  | cons x behind ihx =>
    induction ys with
    | nil =>
      simp only [gap_nil_right, List.length_append, List.length_cons, List.cons_append]
      omega
    | cons y ys ihy =>
      have hdelete := ihx (y :: ys)
      have hkeep := ihx ys
      rw [List.cons_append, List.cons_append] at ihy ⊢
      rw [gap_cons_cons, gap_cons_cons]
      omega

/-! ### Rows -/

/-- The distances from one text to the beginnings of another that are longer than `ys`, where `rest`
is what that text has behind `ys`. -/
def row (xs ys : List Char) : (rest : List Char) → List Nat
  | [] => []
  | d :: rest => gap xs (d :: ys) :: row xs (d :: ys) rest

theorem row_nil_left (ys rest : List Char) :
    row [] ys rest = List.range' (ys.length + 1) rest.length := by
  induction rest generalizing ys with
  | nil => rfl
  | cons d rest ih =>
    rw [row, ih, gap_nil_left, List.length_cons, List.length_cons, List.range'_succ]

theorem nextEntries_row (c : Char) (xs ys rest : List Char) :
    nextEntries c (gap (c :: xs) ys) (gap xs ys) (row xs ys rest) rest = row (c :: xs) ys rest := by
  induction rest generalizing ys with
  | nil => rfl
  | cons d rest ih =>
    have hentry := gap_cons_cons c d xs ys
    rw [row, row, nextEntries]
    simp only [← hentry, ih]

/-- Reading one more character gives the distances from the longer text. -/
theorem nextRow_row (c : Char) (xs target : List Char) :
    nextRow target (gap xs [] :: row xs [] target) c
      = gap (c :: xs) [] :: row (c :: xs) [] target := by
  have hfirst : gap xs [] + 1 = gap (c :: xs) [] := by
    rw [gap_nil_right, gap_nil_right, List.length_cons]
  rw [nextRow, hfirst, nextEntries_row]

theorem foldl_nextRow (text xs target : List Char) :
    text.foldl (nextRow target) (gap xs [] :: row xs [] target) =
      gap (text.reverse ++ xs) [] :: row (text.reverse ++ xs) [] target := by
  induction text generalizing xs with
  | nil => rfl
  | cons c text ih =>
    rw [List.foldl_cons, nextRow_row, ih, List.reverse_cons, List.append_assoc,
      List.singleton_append]

theorem getLast?_row (xs ys rest : List Char) :
    (gap xs ys :: row xs ys rest).getLast? = some (gap xs (rest.reverse ++ ys)) := by
  induction rest generalizing ys with
  | nil => rfl
  | cons d rest ih =>
    rw [row, List.getLast?_cons_cons, ih, List.reverse_cons, List.append_assoc,
      List.singleton_append]

/-- The rows end with the distance of the two texts. -/
theorem editDistance_eq_gap (a b : String) :
    editDistance a b = gap a.toList.reverse b.toList.reverse := by
  have hstart : List.range (b.toList.length + 1) = gap [] [] :: row [] [] b.toList := by
    rw [gap_nil_left, row_nil_left, List.range_eq_range', List.range'_succ]
    rfl
  rw [editDistance, hstart, foldl_nextRow, getLast?_row, List.append_nil, List.append_nil,
    Option.getD_some]

/-! ### Shortest scripts -/

/-- Some script of `n` edits makes the second text of the first.  Both are given backwards. -/
def Turns (n : Nat) (xs ys : List Char) : Prop :=
  ∃ script, Edit.run? script xs.reverse = some ys.reverse ∧ script.length = n

namespace Turns

variable {n : Nat} {xs ys : List Char}

theorem keep (h : Turns n xs ys) (x : Char) : Turns n (x :: xs) (x :: ys) := by
  obtain ⟨script, hrun, hlength⟩ := h
  refine ⟨script, ?_, hlength⟩
  rw [List.reverse_cons, List.reverse_cons]
  exact Edit.run?_append_text hrun [x]

theorem insert (h : Turns n xs ys) (y : Char) : Turns (n + 1) xs (y :: ys) := by
  obtain ⟨script, hrun, rfl⟩ := h
  refine ⟨script ++ [.insert ys.reverse.length y], ?_, by simp⟩
  have hedit := Edit.perform?_insert ys.reverse [] y
  rw [List.append_nil] at hedit
  rw [Edit.run?_append hrun, List.reverse_cons]
  exact Edit.run?_cons_eq_some_iff.mpr ⟨_, hedit, rfl⟩

theorem delete (h : Turns n xs ys) (x : Char) : Turns (n + 1) (x :: xs) ys := by
  obtain ⟨script, hrun, rfl⟩ := h
  refine ⟨.delete xs.reverse.length :: script, ?_, rfl⟩
  have hedit := Edit.perform?_delete xs.reverse [] x
  rw [List.append_nil] at hedit
  rw [List.reverse_cons]
  exact Edit.run?_cons_eq_some_iff.mpr ⟨_, hedit, hrun⟩

theorem substitute (h : Turns n xs ys) (x y : Char) : Turns (n + 1) (x :: xs) (y :: ys) := by
  obtain ⟨script, hrun, rfl⟩ := h.keep x
  refine ⟨script ++ [.substitute ys.reverse.length y], ?_, by simp⟩
  have hedit := Edit.perform?_substitute ys.reverse [] x y
  rw [Edit.run?_append hrun, List.reverse_cons, List.reverse_cons]
  exact Edit.run?_cons_eq_some_iff.mpr ⟨_, hedit, rfl⟩

theorem min {m : Nat} (hm : Turns m xs ys) (hn : Turns n xs ys) : Turns (min m n) xs ys := by
  rcases Nat.le_total m n with hle | hle
  · rwa [Nat.min_eq_left hle]
  · rwa [Nat.min_eq_right hle]

end Turns

/-- The recurrence chooses what to do with the last characters, and a script follows its choices. -/
theorem turns_gap (xs ys : List Char) : Turns (gap xs ys) xs ys := by
  fun_induction gap xs ys with
  | case1 ys =>
    induction ys with
    | nil => exact ⟨[], rfl, rfl⟩
    | cons y ys ih => exact ih.insert y
  | case2 xs hne =>
    clear hne
    induction xs with
    | nil => exact ⟨[], rfl, rfl⟩
    | cons x xs ih => exact ih.delete x
  | case3 x xs y ys hdelete hinsert hlast =>
    refine .min (.min (hdelete.delete x) (hinsert.insert y)) ?_
    split
    · rename_i heq
      subst heq
      exact hlast.keep x
    · exact hlast.substitute x y

/-- One edit brings a text closer to another by at most one. -/
theorem gap_le_of_perform? {e : Edit} {s t : List Char} (h : e.perform? s = some t)
    (ys : List Char) :
    gap s.reverse ys ≤ gap t.reverse ys + 1 := by
  obtain ⟨before, after, ⟨c, -, rfl, rfl⟩ | ⟨c, -, rfl, rfl⟩ | ⟨c, d, -, rfl, rfl⟩⟩ :=
    Edit.cases_perform? h <;>
    simp only [List.reverse_append, List.reverse_cons, List.append_assoc, List.singleton_append] <;>
    apply gap_append_le <;> intro ys
  · exact gap_le_cons_left before.reverse ys c
  · exact gap_cons_left_le before.reverse ys c
  · exact gap_swap_left_le before.reverse ys c d

theorem gap_le_length {script : List Edit} {s t : List Char} (h : Edit.run? script s = some t) :
    gap s.reverse t.reverse ≤ script.length := by
  induction script generalizing s with
  | nil =>
    cases h
    exact Nat.le_of_eq (gap_self _)
  | cons e script ih =>
    obtain ⟨m, hm, hrun⟩ := Edit.run?_cons_eq_some_iff.mp h
    calc gap s.reverse t.reverse
      _ ≤ gap m.reverse t.reverse + 1 := gap_le_of_perform? hm t.reverse
      _ ≤ script.length + 1 := Nat.add_le_add_right (ih hrun) 1

theorem exists_run?_editDistance (a b : String) :
    ∃ script, Edit.run? script a.toList = some b.toList ∧ script.length = editDistance a b := by
  have hturns := turns_gap a.toList.reverse b.toList.reverse
  rwa [← editDistance_eq_gap, Turns, List.reverse_reverse, List.reverse_reverse] at hturns

/-- The edit distance is the length of a shortest script: there is a script of that length, and none
is shorter. -/
theorem editDistance_shortest (a b : String) :
    (∃ script, Edit.run? script a.toList = some b.toList ∧ script.length = editDistance a b) ∧
    ∀ script, Edit.run? script a.toList = some b.toList → editDistance a b ≤ script.length := by
  refine ⟨exists_run?_editDistance a b, fun script hrun => ?_⟩
  rw [editDistance_eq_gap]
  exact gap_le_length hrun

example : editDistance "kitten" "sitting" = 3 := by decide +kernel

end TreeCompiler.Diagnostic
