/-
The text of a string literal.

A literal is read in two passes: what surrounds it is taken off both ends, and then each backslash
followed by `n` becomes a line break.  The passes do not get in each other's way.  The second one
puts a line break where it removes something, and a line break is no delimiter and no part of an
escape, so it neither uncovers a delimiter at an end nor makes a new escape out of what stood around
the old one.  Hence reading a text again changes nothing (`literalText_normal`).

Nothing else is lost on the way: writing every line break as an escape again gives back what stood
between the delimiters, if there was no line break in it from the start.
-/
import Mathlib.Data.List.TakeWhile
import TreeCompiler.Lowering.Literal

namespace TreeCompiler.Lowering

/-! ### Taking off the delimiters -/

/-- No end of a text is a double quote, a space or a tab. -/
def Bare (text : List Char) : Prop :=
  ∀ c ∈ ['"', ' ', '\t'], text.head? ≠ some c ∧ text.getLast? ≠ some c

/-- What is left of a text without its longest runs of double quotes, spaces and tabs at both
ends. -/
def Stripped (text core : List Char) : Prop :=
  ∃ lead trail, text = lead ++ core ++ trail ∧
    (∀ c ∈ lead ++ trail, c ∈ ['"', ' ', '\t']) ∧ Bare core

theorem isDelimiter_iff {c : Char} : isDelimiter c = true ↔ c ∈ ['"', ' ', '\t'] := by
  simp [isDelimiter, or_assoc]

theorem bare_iff {text : List Char} :
    Bare text ↔ (∀ c, text.head? = some c → isDelimiter c = false) ∧
      ∀ c, text.getLast? = some c → isDelimiter c = false := by
  constructor
  · intro h
    refine ⟨fun c hc => ?_, fun c hc => ?_⟩
    · exact Bool.eq_false_iff.mpr fun hd => (h c (isDelimiter_iff.mp hd)).1 hc
    · exact Bool.eq_false_iff.mpr fun hd => (h c (isDelimiter_iff.mp hd)).2 hc
  · rintro ⟨hhead, hlast⟩ c hc
    have hd := isDelimiter_iff.mpr hc
    exact ⟨fun h => by simp [hhead c h] at hd, fun h => by simp [hlast c h] at hd⟩

theorem dropWhile_of_head? {p : Char → Bool} {cs : List Char}
    (h : ∀ c, cs.head? = some c → p c = false) :
    cs.dropWhile p = cs := by
  cases cs with
  | nil => rfl
  | cons c cs => simp [h c rfl]

theorem stripDelimiters_of_bare {text : List Char} (h : Bare text) :
    stripDelimiters text = text := by
  obtain ⟨hhead, hlast⟩ := bare_iff.mp h
  have hreverse : text.reverse.dropWhile isDelimiter = text.reverse :=
    dropWhile_of_head? fun c hc => hlast c (by simpa using hc)
  rw [stripDelimiters, dropWhile_of_head? hhead, hreverse, List.reverse_reverse]

theorem stripDelimiters_lead {lead : List Char} (h : ∀ c ∈ lead, isDelimiter c = true)
    (cs : List Char) :
    stripDelimiters (lead ++ cs) = stripDelimiters cs := by
  rw [stripDelimiters, stripDelimiters, List.dropWhile_append_of_pos h]

theorem stripDelimiters_trail {trail : List Char} (h : ∀ c ∈ trail, isDelimiter c = true)
    (cs : List Char) :
    stripDelimiters (cs ++ trail) = stripDelimiters cs := by
  have hreverse : ∀ c ∈ trail.reverse, isDelimiter c = true :=
    fun c hc => h c (List.mem_reverse.mp hc)
  rw [stripDelimiters, stripDelimiters, List.dropWhile_append]
  split
  · -- Nothing but delimiters came before.
    rename_i hempty
    have hnil : cs.dropWhile isDelimiter = [] := List.isEmpty_iff.mp hempty
    have htrail : trail.dropWhile isDelimiter = [] := List.dropWhile_eq_nil_iff.mpr h
    rw [hnil, htrail]
  · rw [List.reverse_append, List.dropWhile_append_of_pos hreverse]

/-- What is taken off at the end was at the end of what is left of the beginning. -/
theorem dropWhile_eq_stripDelimiters_append (text : List Char) :
    text.dropWhile isDelimiter =
      stripDelimiters text ++ ((text.dropWhile isDelimiter).reverse.takeWhile
        isDelimiter).reverse := by
  rw [stripDelimiters, ← List.reverse_append, List.takeWhile_append_dropWhile, List.reverse_reverse]

theorem bare_stripDelimiters (text : List Char) : Bare (stripDelimiters text) := by
  refine bare_iff.mpr ⟨fun c hc => ?_, fun c hc => ?_⟩
  · have hhead : (text.dropWhile isDelimiter).head? = some c := by
      rw [dropWhile_eq_stripDelimiters_append, List.head?_append, hc, Option.some_or]
    have hnot := List.head?_dropWhile_not isDelimiter text
    rw [hhead] at hnot
    simpa using hnot
  · have hnot := List.head?_dropWhile_not isDelimiter (text.dropWhile isDelimiter).reverse
    rw [stripDelimiters, List.getLast?_reverse] at hc
    rw [hc] at hnot
    simpa using hnot

/-- **Stripping takes off the longest runs at both ends**, and there is only one way to do so. -/
theorem stripped_iff {text core : List Char} :
    Stripped text core ↔ core = stripDelimiters text := by
  constructor
  · rintro ⟨lead, trail, rfl, hends, hbare⟩
    have hlead : ∀ c ∈ lead, isDelimiter c = true := fun c hc =>
      isDelimiter_iff.mpr (hends c (List.mem_append_left _ hc))
    have htrail : ∀ c ∈ trail, isDelimiter c = true := fun c hc =>
      isDelimiter_iff.mpr (hends c (List.mem_append_right _ hc))
    rw [stripDelimiters_trail htrail, stripDelimiters_lead hlead, stripDelimiters_of_bare hbare]
  · rintro rfl
    refine ⟨text.takeWhile isDelimiter,
      ((text.dropWhile isDelimiter).reverse.takeWhile isDelimiter).reverse,
      ?_, ?_, bare_stripDelimiters text⟩
    · rw [List.append_assoc, ← dropWhile_eq_stripDelimiters_append, List.takeWhile_append_dropWhile]
    · intro c hc
      rcases List.mem_append.mp hc with hlead | htrail
      · exact isDelimiter_iff.mp (List.mem_takeWhile_imp hlead)
      · exact isDelimiter_iff.mp (List.mem_takeWhile_imp (List.mem_reverse.mp htrail))

/-! ### Line breaks -/

/-- A text begins with what it began with before, or with a line break. -/
theorem head?_breakLines {cs : List Char} {c : Char} (h : (breakLines cs).head? = some c) :
    c = '\n' ∨ cs.head? = some c := by
  revert h
  fun_cases breakLines cs with
  | case1 rest =>
    intro h
    exact .inl (Option.some.inj h).symm
  | case2 d rest _ => exact .inr
  | case3 => exact .inr

theorem breakLines_eq_nil {cs : List Char} (h : breakLines cs = []) : cs = [] := by
  revert h
  fun_cases breakLines cs <;> simp

/-- A text ends with what it ended with before, or with a line break. -/
theorem getLast?_breakLines {cs : List Char} {c : Char} (h : (breakLines cs).getLast? = some c) :
    c = '\n' ∨ cs.getLast? = some c := by
  fun_induction breakLines cs with
  | case1 rest ih =>
    -- The line break is the last character unless there is more.
    rw [List.getLast?_cons] at h
    rcases hrest : (breakLines rest).getLast? with _ | d
    · rw [hrest] at h
      exact .inl (Option.some.inj h).symm
    · rw [hrest] at h
      refine (ih (hrest.trans h)).imp_right fun hlast => ?_
      rw [List.getLast?_cons, List.getLast?_cons, hlast]
      rfl
  | case2 d rest _ ih =>
    rw [List.getLast?_cons] at h
    rcases hrest : (breakLines rest).getLast? with _ | e
    · rw [breakLines_eq_nil (List.getLast?_eq_none_iff.mp hrest)]
      rw [hrest] at h
      exact .inr h
    · rw [hrest] at h
      refine (ih (hrest.trans h)).imp_right fun hlast => ?_
      rw [List.getLast?_cons, hlast]
      rfl
  | case3 => exact .inr h

theorem bare_breakLines {cs : List Char} (h : Bare cs) : Bare (breakLines cs) := by
  intro c hc
  have hbreak : c ≠ '\n' := by
    rintro rfl
    simp at hc
  refine ⟨fun hhead => ?_, fun hlast => ?_⟩
  · exact (head?_breakLines hhead).elim hbreak (h c hc).1
  · exact (getLast?_breakLines hlast).elim hbreak (h c hc).2

/-- Where escapes are removed no new ones come up: what follows a backslash that stays is not an
`n`. -/
theorem not_infix_breakLines (cs : List Char) : ¬ ['\\', 'n'] <:+: breakLines cs := by
  fun_induction breakLines cs with
  | case1 rest ih =>
    rw [List.infix_cons_iff]
    rintro (hfront | hinfix)
    · simp at hfront
    · exact ih hinfix
  | case2 c rest hpair ih =>
    rw [List.infix_cons_iff]
    rintro (hfront | hinfix)
    · obtain ⟨rfl, hn⟩ := List.cons_prefix_cons.mp hfront
      obtain ⟨after, hafter⟩ := hn
      rcases head?_breakLines (c := 'n') (by rw [← hafter]; rfl) with hbreak | hhead
      · simp at hbreak
      · obtain ⟨tail, rfl⟩ := List.head?_eq_some_iff.mp hhead
        exact hpair tail rfl rfl
    · exact ih hinfix
  | case3 => simp

/-- A text without escapes stays as it is. -/
theorem breakLines_eq_self {cs : List Char} (h : ¬ ['\\', 'n'] <:+: cs) : breakLines cs = cs := by
  fun_induction breakLines cs with
  | case1 rest _ => exact absurd (List.prefix_append ['\\', 'n'] rest).isInfix h
  | case2 c rest _ ih =>
    rw [ih fun hinfix => h (List.infix_cons hinfix)]
  | case3 => rfl

/-! ### Writing the line breaks again -/

/-- Write each line break as a backslash followed by `n`. -/
def spellBreaks (text : List Char) : List Char :=
  text.flatMap fun c => if c = '\n' then ['\\', 'n'] else [c]

/-- Nothing is lost but the difference between a line break and its escape. -/
theorem spellBreaks_breakLines (cs : List Char) : spellBreaks (breakLines cs) = spellBreaks cs := by
  fun_induction breakLines cs with
  | case1 rest ih =>
    show ['\\', 'n'] ++ spellBreaks (breakLines rest) = ['\\'] ++ (['n'] ++ spellBreaks rest)
    rw [ih]
    rfl
  | case2 c rest _ ih =>
    rw [spellBreaks, spellBreaks, List.flatMap_cons, List.flatMap_cons]
    exact congrArg _ ih
  | case3 => rfl

theorem spellBreaks_eq_self {cs : List Char} (h : '\n' ∉ cs) : spellBreaks cs = cs := by
  induction cs with
  | nil => rfl
  | cons c rest ih =>
    have hc : c ≠ '\n' := fun hc => h (by simp [hc])
    have hrest : '\n' ∉ rest := fun hmem => h (List.mem_cons_of_mem _ hmem)
    rw [spellBreaks, List.flatMap_cons, if_neg hc]
    exact congrArg (c :: ·) (ih hrest)

/-! ### Literals -/

/-- **The text of a literal is in normal form and loses nothing.**  Neither end of it is a double
quote, a space or a tab, no backslash in it is followed by `n`, and reading it as a literal again
changes nothing.  If a literal has no line break, then writing those of its text as escapes gives
the literal without its longest runs of double quotes, spaces and tabs at both ends. -/
theorem literalText_normal (raw : String) :
    Bare (literalText raw).toList ∧ ¬ ['\\', 'n'] <:+: (literalText raw).toList ∧
      literalText (literalText raw) = literalText raw ∧
      ('\n' ∉ raw.toList →
        ∀ core, Stripped raw.toList core ↔ core = spellBreaks (literalText raw).toList) := by
  have htext : (literalText raw).toList = breakLines (stripDelimiters raw.toList) :=
    String.toList_ofList
  have hbare : Bare (literalText raw).toList := htext ▸ bare_breakLines (bare_stripDelimiters _)
  have hescape : ¬ ['\\', 'n'] <:+: (literalText raw).toList := htext ▸ not_infix_breakLines _
  refine ⟨hbare, hescape, ?_, fun hraw core => ?_⟩
  · rw [literalText, stripDelimiters_of_bare hbare, breakLines_eq_self hescape,
      String.ofList_toList]
  · have hcore : '\n' ∉ stripDelimiters raw.toList := by
      obtain ⟨lead, trail, hsplit, -⟩ := stripped_iff.mpr (rfl : stripDelimiters raw.toList = _)
      intro hmem
      rw [hsplit] at hraw
      exact hraw (List.mem_append_left _ (List.mem_append_right _ hmem))
    rw [stripped_iff, htext, spellBreaks_breakLines, spellBreaks_eq_self hcore]

/-- A backslash before an escape stays, and so does one before a `t`. -/
theorem literalText_normal_backslashes :
    let raw := " \"\\\\n\\\\t\\n \"\t"
    '\n' ∉ raw.toList ∧ literalText raw = "\\\n\\\\t\n" ∧
      Stripped raw.toList (spellBreaks (literalText raw).toList) := by
  intro raw
  have hraw : '\n' ∉ raw.toList := by decide
  exact ⟨hraw, by decide, ((literalText_normal raw).2.2.2 hraw _).mpr rfl⟩

end TreeCompiler.Lowering
