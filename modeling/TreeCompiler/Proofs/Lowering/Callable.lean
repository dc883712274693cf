/-
Which declared functions can be called.

Functions and strings get their names from one supply, and a call looks up the name that a function
got.  So a declared function can be called by its name if it was the first to request that name.  If
another function was, a call finds that one.  But strings request names as well: the line break of
the helper requests `new_line` before the program starts, and every string literal requests `str`.
A function that is declared under such a name afterwards gets another one, no function gets the name
as it is, and every call of it is refused as unknown.

These two names are the only ones.  Every other name that was ever requested is the name of a
function (`Accounted`); a name that a string took stays without one (`Lost`); and where the name is
still free the function gets it and is the first to have it from then on.
-/
import TreeCompiler.Proofs.Lowering.Course
import TreeCompiler.Proofs.Lowering.Names

namespace TreeCompiler

namespace IR

/-- Some function has the name. -/
def Directory.Names (d : Directory) (name : String) : Prop := ∃ p ∈ d.functions, p.1 = name

theorem Module.getFunction?_eq_none_iff {m : Module} {name : String} :
    m.getFunction? name = none ↔ ¬ m.directory.Names name := by
  simp [Module.getFunction?, Module.directory, Directory.Names]

/-- The first function that has a name is the one that is found. -/
theorem Module.getFunction?_of_first {m : Module} {name : String} {sig : Signature}
    {before after : List (String × Signature)}
    (h : m.directory.functions = before ++ (name, sig) :: after)
    (hfirst : ∀ p ∈ before, p.1 ≠ name) :
    m.getFunction? name = some before.length ∧ (m.function before.length).sig = sig := by
  constructor
  · have hlookup : m.getFunction? name = m.directory.functions.findIdx? (·.1 = name) := by
      simp [Module.getFunction?, Module.directory, List.findIdx?_map, Function.comp_def]
    have hbefore : before.findIdx? (·.1 = name) = none := by
      simpa using hfirst
    rw [hlookup, h, List.findIdx?_append, hbefore]
    simp [List.findIdx?_cons]
  · have hget : m.functions[before.length]?.map (fun f => (f.name, f.sig)) = some (name, sig) := by
      rw [← List.getElem?_map]
      show m.directory.functions[before.length]? = _
      rw [h]
      simp
    obtain ⟨f, hf, hpair⟩ := Option.map_eq_some_iff.mp hget
    cases hpair
    simp [Module.function, hf]

/-- The first request for a name gets it as it is. -/
theorem NameSupply.next_of_not_mem {names : NameSupply} {base : String} (h : base ∉ names.requested)
    (separator : String) : names.next separator base = base := by
  unfold NameSupply.next
  rw [List.count_eq_zero.mpr h]

end IR

namespace Lowering

open IR (FuncId BlockId InstId Ty Value Op Directory)

variable {d : Directory} {n : String}

/-! ### What events do to names -/

theorem Event.functions_prefix (e : Event) (d : Directory) :
    d.functions <+: (e.apply d).functions := by
  cases e with
  | literal => exact List.prefix_refl _
  | declaration name sig => exact List.prefix_append _ _
  | call callee count => exact List.prefix_refl _

theorem Event.functions_prefix_foldl (events : List Event) (d : Directory) :
    d.functions <+: (events.foldl Event.apply d).functions := by
  induction events generalizing d with
  | nil => exact List.prefix_refl _
  | cons e events ih => exact (e.functions_prefix d).trans (ih _)

theorem Event.requested_suffix (e : Event) (d : Directory) :
    d.names.requested <:+ (e.apply d).names.requested := by
  cases e with
  | literal => exact List.suffix_cons _ _
  | declaration name sig => exact List.suffix_cons _ _
  | call callee count => exact List.suffix_refl _

theorem Event.requested_suffix_foldl (events : List Event) (d : Directory) :
    d.names.requested <:+ (events.foldl Event.apply d).names.requested := by
  induction events generalizing d with
  | nil => exact List.suffix_refl _
  | cons e events ih => exact (e.requested_suffix d).trans (ih _)

theorem Event.requested_of_literal {events : List Event} (h : .literal ∈ events) (d : Directory) :
    "str" ∈ (events.foldl Event.apply d).names.requested := by
  obtain ⟨before, after, rfl⟩ := List.append_of_mem h
  rw [List.foldl_append, List.foldl_cons]
  exact (Event.requested_suffix_foldl after _).subset List.mem_cons_self

/-- A name that was requested and that no function has. -/
structure Lost (d : Directory) (n : String) : Prop where
  requested : n ∈ d.names.requested
  unnamed : ¬ d.Names n

theorem Lost.apply (h : Lost d n) (hdot : '.' ∉ n.toList) (e : Event) : Lost (e.apply d) n := by
  refine ⟨(e.requested_suffix d).subset h.requested, ?_⟩
  cases e with
  | literal => exact h.unnamed
  | declaration name sig =>
    rintro ⟨p, hp, hname⟩
    rcases List.mem_append.mp hp with hold | hnew
    · exact h.unnamed ⟨p, hold, hname⟩
    · obtain rfl := List.mem_singleton.mp hnew
      exact IR.NameSupply.next_ne h.requested hdot name hname
  | call callee count => exact h.unnamed

theorem Lost.foldl (h : Lost d n) (hdot : '.' ∉ n.toList) (events : List Event) :
    Lost (events.foldl Event.apply d) n := by
  induction events generalizing d with
  | nil => exact h
  | cons e events ih => exact ih (h.apply hdot e)

/-- Every name that was requested is that of a function, but for those that strings request. -/
def Accounted (literals : Prop) (d : Directory) : Prop :=
  ∀ n ∈ d.names.requested, d.Names n ∨ n = "new_line" ∨ n = "str" ∧ literals

theorem Accounted.apply {literals : Prop} (h : Accounted literals d) (e : Event) :
    Accounted (literals ∨ e = .literal) (e.apply d) := by
  have hold : ∀ n ∈ d.names.requested,
      (e.apply d).Names n ∨ n = "new_line" ∨ n = "str" ∧ (literals ∨ e = .literal) := by
    intro n hn
    rcases h n hn with ⟨p, hp, hname⟩ | hline | ⟨hstr, hliteral⟩
    · exact .inl ⟨p, (e.functions_prefix d).subset hp, hname⟩
    · exact .inr (.inl hline)
    · exact .inr (.inr ⟨hstr, .inl hliteral⟩)
  cases e with
  | literal =>
    intro n hn
    rcases List.mem_cons.mp hn with rfl | hn
    · exact .inr (.inr ⟨rfl, .inr rfl⟩)
    · exact hold n hn
  | declaration name sig =>
    intro n hn
    rcases List.mem_cons.mp hn with rfl | hn
    · by_cases hrequested : n ∈ d.names.requested
      · exact hold n hrequested
      · exact .inl ⟨(d.names.next "." n, sig), by simp [Event.apply],
          IR.NameSupply.next_of_not_mem hrequested "."⟩
    · exact hold n hn
  | call callee count => exact hold

theorem Accounted.foldl {literals : Prop} (h : Accounted literals d) (events : List Event) :
    Accounted (literals ∨ .literal ∈ events) (events.foldl Event.apply d) := by
  induction events generalizing d literals with
  | nil => simpa using h
  | cons e events ih =>
    have hrest := ih (h.apply e)
    simpa [or_assoc, eq_comm] using hrest

/-! ### From the start of a program -/

/-- What has a name before the helper is added: the printing function of the system and the line
break. -/
def printfDirectory : Directory :=
  { functions := [("printf", { params := [.str], ret := .i32, variadic := true })]
    names := ⟨["new_line", "printf"]⟩ }

/-- The helper and the entry function get their names as if the program had declared them. -/
def openingEvents (options : Options) : List Event :=
  [.declaration options.helperName { params := [.str], ret := .void },
    .declaration options.entryName { params := [], ret := .void }]

theorem start_directory (options : Options) :
    (start options).code.directory
      = (openingEvents options).foldl Event.apply printfDirectory := rfl

theorem start_accounted (options : Options) : Accounted False (start options).code.directory := by
  have hfirst : Accounted False printfDirectory := by
    intro n hn
    simp only [printfDirectory, List.mem_cons, List.not_mem_nil, or_false] at hn
    rcases hn with rfl | rfl
    · exact .inr (.inl rfl)
    · exact .inl ⟨_, List.mem_singleton.mpr rfl, rfl⟩
  have hopening := hfirst.foldl (openingEvents options)
  rw [start_directory]
  simpa [openingEvents] using hopening

theorem start_lost (options : Options) : Lost (start options).code.directory "new_line" := by
  have hfirst : Lost printfDirectory "new_line" :=
    ⟨by simp [printfDirectory], by simp [printfDirectory, IR.Directory.Names]⟩
  rw [start_directory]
  exact hfirst.foldl (by decide) _

theorem moments_chained (root : Program.Block) (options : Options) :
    Chained (start options).code.directory (moments root options)
      (outcome (lowerBlock root) (start options)).2.code.directory :=
  (blockCourse root).chained (start options)

/-- The name of a function that is declared where no function has it was requested before exactly if
the helper or a string literal did. -/
theorem requested_iff {root : Program.Block} {options : Options} {i : Nat} {m : Moment}
    (hm : (moments root options)[i]? = some m) {n : String}
    (hnew : m.state.code.getFunction? n = none) :
    n ∈ m.state.code.names.requested ↔
      n = "new_line" ∨ n = "str" ∧ .literal ∈ ((moments root options).take i).map (·.event) := by
  have hdir := (moments_chained root options).directory_eq hm
  constructor
  · intro hn
    have haccount := (start_accounted options).foldl (((moments root options).take i).map (·.event))
    rw [← hdir, false_or] at haccount
    rcases haccount n hn with hnamed | hstring
    · exact absurd hnamed (IR.Module.getFunction?_eq_none_iff.mp hnew)
    · exact hstring
  · rintro (rfl | ⟨rfl, hliteral⟩)
    · have hlost := (start_lost options).foldl (by decide)
        (((moments root options).take i).map (·.event))
      rw [← hdir] at hlost
      exact hlost.requested
    · have hrequested := Event.requested_of_literal hliteral (start options).code.directory
      rwa [← hdir] at hrequested

/-- What is met after a declaration goes on from the directory that it leaves. -/
theorem directory_after_declaration {root : Program.Block} {options : Options} {i j : Nat}
    (hij : i < j) {m m' : Moment} (hm : (moments root options)[i]? = some m)
    (hm' : (moments root options)[j]? = some m') :
    ∃ between : List Event, m'.state.code.directory
      = between.foldl Event.apply (m.event.apply m.state.code.directory) := by
  have hlater : ((moments root options).drop (i + 1))[j - (i + 1)]? = some m' := by
    rw [List.getElem?_drop, Nat.add_sub_cancel' hij, hm']
  exact ⟨_, ((moments_chained root options).drop hm).directory_eq hlater⟩

/-- A function that is the first to request its name is found by it from then on. -/
theorem getFunction?_after_declaration {s t : Lowerer} {n : String} {sig : IR.Signature}
    (hfree : n ∉ s.code.names.requested) (hnew : s.code.getFunction? n = none)
    {between : List Event} (hbetween : t.code.directory
      = between.foldl Event.apply (Event.apply s.code.directory (.declaration n sig))) :
    t.code.getFunction? n = some s.code.functions.length ∧
      (t.code.function s.code.functions.length).sig = sig := by
  have hunnamed := IR.Module.getFunction?_eq_none_iff.mp hnew
  obtain ⟨later, hlater⟩ := Event.functions_prefix_foldl between
    (Event.apply s.code.directory (.declaration n sig))
  have hfunctions : t.code.directory.functions
      = s.code.directory.functions ++ (n, sig) :: later := by
    have hname : s.code.directory.names.next "." n = n := IR.NameSupply.next_of_not_mem hfree "."
    rw [hbetween, ← hlater]
    simp [Event.apply, hname]
  have hfound := IR.Module.getFunction?_of_first hfunctions fun p hp hname =>
    hunnamed ⟨p, hp, hname⟩
  have hlength : s.code.directory.functions.length = s.code.functions.length := by
    simp [IR.Module.directory]
  rwa [hlength] at hfound

/-! ### What is reported -/

/-- Lowering a program reports that there is no function of the name: among the errors that it
records, or as the error that it ends in. -/
def Reported (root : Program.Block) (options : Options) (n : String) : Prop :=
  (∃ l, lowerProgram root options = .ok l ∧ .unknownCallee n ∈ l.errors) ∨
    lowerProgram root options = .error (.unknownCallee n)

theorem refuses_of_reported {root : Program.Block} {options : Options} {n : String}
    (h : Reported root options n) : Refuses n (outcome (lowerBlock root) (start options)) := by
  unfold Reported at h
  rw [lowerProgram_eq] at h
  rcases hrun : outcome (lowerBlock root) (start options) with ⟨e | v, t⟩
  · simp only [hrun] at h
    rcases h with ⟨l, hl, -⟩ | herror
    · cases hl
    · exact .inl (by rw [Except.error.inj herror])
  · simp only [hrun] at h
    rcases h with ⟨l, hl, hmem⟩ | herror
    · cases hl
      exact .inr hmem
    · cases herror

/-- Only a call that is met where no function has the name is reported. -/
theorem unknown_of_reported {root : Program.Block} {options : Options} {n : String}
    (h : Reported root options n) :
    ∃ (k : Nat) (m : Moment), (moments root options)[k]? = some m ∧ m.Unknown n := by
  rcases (blockCourse root).refused (refuses_of_reported h) with hstart | ⟨m, hm, hunknown⟩
  · cases hstart
  · obtain ⟨k, hk⟩ := List.getElem?_of_mem hm
    exact ⟨k, m, hk, hunknown⟩

/-- **Which declared functions can be called.**  A function is declared where no function has its
name.  If a string requested the name before, every later call of it is refused as unknown; this is
so for `new_line` in every program, and for `str` after a string literal.  In all other cases every
later call with as many arguments as the function takes, be it in its own body or in another scope,
is a call of this function; and if the name is reported as unknown at all, then because of a call
before the declaration. -/
theorem declared_callable (root : Program.Block) (options : Options) {i : Nat} {n : String}
    {sig : IR.Signature} {s : Lowerer}
    (hdecl : (moments root options)[i]? = some ⟨.declaration n sig, s⟩)
    (hnew : s.code.getFunction? n = none) :
    if n = "new_line" ∨ n = "str" ∧ .literal ∈ ((moments root options).take i).map (·.event) then
      ∀ j t count, i < j → (moments root options)[j]? = some ⟨.call n count, t⟩ → ∀ args,
        outcome (lowerCall n count args) t = (.error (.unknownCallee n), t)
    else
      (∀ j t, i < j → (moments root options)[j]? = some ⟨.call n sig.params.length, t⟩ → ∀ args,
        outcome (lowerCall n sig.params.length args) t
          = outcome (do emit (·.call · s.code.functions.length sig.ret (← args))) t) ∧
      (Reported root options n →
        ∃ k < i, ∃ count u, (moments root options)[k]? = some ⟨.call n count, u⟩) := by
  split
  · rename_i hstring
    intro j t count hij hcall args
    obtain ⟨between, hbetween⟩ := directory_after_declaration hij hdecl hcall
    have hdot : '.' ∉ n.toList := by
      rcases hstring with rfl | ⟨rfl, -⟩ <;> decide
    have hlost : Lost s.code.directory n :=
      ⟨(requested_iff hdecl hnew).mpr hstring, IR.Module.getFunction?_eq_none_iff.mp hnew⟩
    have hunnamed := ((hlost.apply hdot (.declaration n sig)).foldl hdot between).unnamed
    rw [← hbetween] at hunnamed
    rw [outcome_lowerCall, IR.Module.getFunction?_eq_none_iff.mpr hunnamed]
  · rename_i hstring
    have hfree : n ∉ s.code.names.requested := fun hn => hstring ((requested_iff hdecl hnew).mp hn)
    have hfound : ∀ {j : Nat} {m : Moment}, i < j → (moments root options)[j]? = some m →
        m.state.code.getFunction? n = some s.code.functions.length ∧
          (m.state.code.function s.code.functions.length).sig = sig := by
      intro j m hij hm
      obtain ⟨between, hbetween⟩ := directory_after_declaration hij hdecl hm
      exact getFunction?_after_declaration hfree hnew hbetween
    constructor
    · intro j t hij hcall args
      obtain ⟨hfunc, hsig⟩ := hfound hij hcall
      have haccepts : sig.accepts sig.params.length = true := by
        simp [IR.Signature.accepts]
      rw [outcome_lowerCall, hfunc]
      simp only [hsig, haccepts, if_true]
    · intro hreported
      obtain ⟨k, ⟨event, u⟩, hk, ⟨count, rfl⟩, hunknown⟩ := unknown_of_reported hreported
      refine ⟨k, ?_, count, u, hk⟩
      rcases Nat.lt_trichotomy k i with hlt | heq | hgt
      · exact hlt
      · rw [heq, hdecl] at hk
        cases hk
      · rw [(hfound hgt hk).1] at hunknown
        cases hunknown

/-- A string literal, a function under the name that the literal took, and one that calls itself. -/
def takenName : Program.Block :=
  .mk 0 [.expr 1 (.string 2 "text"), .fn 3 none "str" [⟨4, "int", "n"⟩] (.mk 5 []),
    .fn 6 none "again" [⟨7, "int", "n"⟩] (.mk 8 [.expr 9 (.call 10 "again" [.ident 11 "n"])]),
    .expr 12 (.call 13 "str" [.int 14 1])]

theorem declared_callable_takenName :
    ∃ s t u v, (moments takenName {})[1]? = some
      ⟨.declaration "str" { params := [.i64], ret := .void }, s⟩ ∧
      s.code.getFunction? "str" = none ∧ (moments takenName {})[4]? = some ⟨.call "str" 1, t⟩ ∧
      outcome (lowerCall "str" 1 (pure [])) t = (.error (.unknownCallee "str"), t) ∧
      (moments takenName {})[2]?
        = some ⟨.declaration "again" { params := [.i64], ret := .void }, u⟩ ∧
      u.code.getFunction? "again" = none ∧ (moments takenName {})[3]? = some ⟨.call "again" 1, v⟩ ∧
      outcome (lowerCall "again" 1 (pure [])) v
        = outcome (do emit (·.call · u.code.functions.length .void (← pure []))) v := by
  have hrun : (moments takenName {}).map (fun m =>
      (m.event, m.state.code.getFunction? "str", m.state.code.getFunction? "again")) =
      [(.literal, none, none), (.declaration "str" { params := [.i64], ret := .void }, none, none),
        (.declaration "again" { params := [.i64], ret := .void }, none, none),
        (.call "again" 1, none, some 4), (.call "str" 1, none, some 4)] := by
    decide +kernel
  have hat : ∀ (i : Nat) (e : Event) (a b : Option FuncId), ((moments takenName {}).map (fun m =>
      (m.event, m.state.code.getFunction? "str",
        m.state.code.getFunction? "again")))[i]? = some (e, a, b) →
      ∃ s : Lowerer, (moments takenName {})[i]? = some ⟨e, s⟩ ∧ s.code.getFunction? "str" = a ∧
        s.code.getFunction? "again" = b := by
    intro i e a b h
    rw [List.getElem?_map] at h
    obtain ⟨⟨_, s⟩, hm, heq⟩ := Option.map_eq_some_iff.mp h
    cases heq
    exact ⟨s, hm, rfl, rfl⟩
  rw [hrun] at hat
  obtain ⟨s, hs, hstr, -⟩ := hat 1 _ _ _ rfl
  obtain ⟨u, hu, -, hagain⟩ := hat 2 _ _ _ rfl
  obtain ⟨v, hv, -, -⟩ := hat 3 _ _ _ rfl
  obtain ⟨t, ht, -, -⟩ := hat 4 _ _ _ rfl
  have hliteral : Event.literal ∈ ((moments takenName {}).take 1).map (·.event) := by
    decide +kernel
  have hrefused := declared_callable takenName {} hs hstr
  have hcalled := declared_callable takenName {} hu hagain
  rw [if_pos (.inr ⟨rfl, hliteral⟩)] at hrefused
  rw [if_neg (by simp)] at hcalled
  exact ⟨s, t, u, v, hs, hstr, ht, hrefused 4 t 1 (by decide) ht _, hu, hagain, hv,
    hcalled.1 3 v (by decide) hv _⟩

end Lowering

end TreeCompiler
