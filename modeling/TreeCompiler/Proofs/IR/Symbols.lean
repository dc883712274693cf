/-
Which symbols of a module share a name.

Functions and strings request their names from one supply.  The supply counts the requests for each
name: the first one is answered with the name itself, the `n`-th further one with the name, a dot
and `n`.  So an answer is known from its ticket, the name that was requested and the number of
earlier requests for it, and no ticket is given out twice (`nodup_tickets`).

Different tickets can still have one answer.  The number after the last dot of a made-up name can be
read off it, so two made-up names are the same only if their tickets are (`answer_succ_inj`).  But
nothing keeps a name that was made up from being requested as it is, before or after.  That is the
only way for two symbols to get one name, and `distinctSymbols_serve_iff` says so for every sequence
of requests.
-/
import Mathlib.Data.List.Nodup
import TreeCompiler.IR.Module

namespace TreeCompiler.IR

/-! ### Tickets -/

namespace NameSupply

/-- The answer to a request, by the number of earlier requests for the same name. -/
def answer (base : String) : Nat → String
  | 0 => base
  | n + 1 => base ++ "." ++ toString (n + 1)

theorem next_eq_answer (s : NameSupply) (base : String) :
    s.next "." base = answer base (s.requested.count base) := by
  unfold next
  cases s.requested.count base <;> rfl

/-- Numbers are written without dots. -/
theorem dot_not_mem_toString (n : Nat) : '.' ∉ (toString n).toList := by
  intro hmem
  rw [Nat.toString_eq_ofList_toDigits, String.toList_ofList] at hmem
  have hdigit := Nat.isDigit_of_mem_toDigits (by decide) (by decide) hmem
  revert hdigit
  decide

theorem toString_inj {m n : Nat} (h : (toString m).toList = (toString n).toList) : m = n := by
  have hvalue := congrArg (fun ds => Nat.ofDigitChars 10 ds 0) h
  simpa [Nat.toString_eq_ofList_toDigits] using hvalue

/-- A text is cut in one way where a character stands for the last time. -/
theorem append_cons_inj_of_last {x : Char} {as bs cs ds : List Char} (hb : x ∉ bs) (hd : x ∉ ds)
    (h : as ++ x :: bs = cs ++ x :: ds) : as = cs ∧ bs = ds := by
  -- Where one of the two cuts comes first, the other one lies in what follows it.
  rcases List.append_eq_append_iff.mp h with ⟨mid, hcs, hsplit⟩ | ⟨mid, has, hsplit⟩
  · rcases List.cons_eq_append_iff.mp hsplit with ⟨rfl, heq⟩ | ⟨mid', rfl, hbs⟩
    · exact ⟨by simpa using hcs.symm, (List.cons.inj heq).2.symm⟩
    · exact absurd (by simp [hbs]) hb
  · rcases List.cons_eq_append_iff.mp hsplit with ⟨rfl, heq⟩ | ⟨mid', rfl, hds⟩
    · exact ⟨by simpa using has, (List.cons.inj heq).2⟩
    · exact absurd (by simp [hds]) hd

/-- A name that was made up tells which request it answers. -/
theorem answer_succ_inj {b c : String} {m n : Nat} (h : answer b (m + 1) = answer c (n + 1)) :
    b = c ∧ m = n := by
  have hchars : b.toList ++ '.' :: (toString (m + 1)).toList =
      c.toList ++ '.' :: (toString (n + 1)).toList := by
    simpa [answer, String.toList_append] using congrArg String.toList h
  have ⟨hbase, hnumber⟩ :=
    append_cons_inj_of_last (dot_not_mem_toString (m + 1)) (dot_not_mem_toString (n + 1)) hchars
  have := toString_inj hnumber
  exact ⟨String.toList_inj.mp hbase, by omega⟩

theorem answer_of_pos {n : Nat} (hn : 0 < n) (base : String) :
    answer base n = base ++ "." ++ toString n := by
  cases n with
  | zero => omega
  | succ n => rfl

/-- The requests in order, each with the number of those for the same name that came before it. -/
def tickets (s : NameSupply) : List String → List (String × Nat)
  | [] => []
  | base :: rest => (base, s.requested.count base) :: (s.record base).tickets rest

/-- A name gets the numbers from its count up to what its count becomes. -/
theorem mem_tickets {s : NameSupply} {bases : List String} {b : String} {n : Nat} :
    (b, n) ∈ s.tickets bases ↔
      s.requested.count b ≤ n ∧ n < s.requested.count b + bases.count b := by
  induction bases generalizing s with
  | nil => simp [tickets]
  | cons base rest ih =>
    simp only [tickets, List.mem_cons, Prod.mk.injEq, ih, record, List.count_cons]
    by_cases hb : b = base
    · subst hb
      simp
      omega
    · have hne : (base == b) = false := by simpa using fun h => hb h.symm
      simp [hb, hne]

theorem nodup_tickets (s : NameSupply) (bases : List String) : (s.tickets bases).Nodup := by
  induction bases generalizing s with
  | nil => exact List.nodup_nil
  | cons base rest ih =>
    refine List.nodup_cons.mpr ⟨fun hmem => ?_, ih _⟩
    have hcount := (mem_tickets.mp hmem).1
    simp only [record, List.count_cons_self] at hcount
    omega

/-- The answers are all different unless a made-up one was also requested as it is. -/
theorem nodup_answers_iff (bases : List String) :
    (((({} : NameSupply).tickets bases)).map fun t => answer t.1 t.2).Nodup ↔
      ∀ base n, 0 < n → n < bases.count base → base ++ "." ++ toString n ∉ bases := by
  rw [List.nodup_map_iff_inj_on (nodup_tickets _ _)]
  have hticket {b : String} {n : Nat} :
      (b, n) ∈ ({} : NameSupply).tickets bases ↔ n < bases.count b := by
    simp [mem_tickets]
  constructor
  · intro hinj base n hpos hn hmem
    have hasIs : (base ++ "." ++ toString n, 0) ∈ ({} : NameSupply).tickets bases :=
      hticket.mpr (List.count_pos_iff.mpr hmem)
    have hsame := hinj _ (hticket.mpr hn) _ hasIs (answer_of_pos hpos base)
    have : n = 0 := congrArg Prod.snd hsame
    omega
  · rintro hapart ⟨b, m⟩ hb ⟨c, n⟩ hc hsame
    rw [hticket] at hb hc
    -- A made-up answer is not one that was requested, so both requests are first ones or neither
    -- is.
    have hmixed {x y : String} {k : Nat} (hx : 0 < bases.count x) (hy : k + 1 < bases.count y)
        (h : x = answer y (k + 1)) : False :=
      hapart y (k + 1) (by omega) hy (by simpa [h, answer] using List.count_pos_iff.mp hx)
    cases m with
    | zero =>
      cases n with
      | zero => exact congrArg (·, 0) hsame
      | succ n => exact (hmixed hb hc hsame).elim
    | succ m =>
      cases n with
      | zero => exact (hmixed hc hb hsame.symm).elim
      | succ n =>
        obtain ⟨rfl, rfl⟩ := answer_succ_inj hsame
        rfl

end NameSupply

/-! ### Symbols -/

namespace Module

/-- What asks for a name in a module. -/
inductive Request where
  | function (name : String) (sig : Signature) (linkage : Linkage)
  | string (name text : String)
  deriving DecidableEq, Repr

/-- The name that is requested. -/
def Request.name : Request → String
  | .function name _ _ => name
  | .string name _ => name

/-- Add what is requested. -/
def serve (m : Module) : Request → Module
  | .function name sig linkage => (m.addFunction name sig linkage).2
  | .string name text => (m.addGlobalString name text).2

/-- The names of the functions and of the strings. -/
def symbols (m : Module) : List String :=
  m.functions.map (·.name) ++ m.globals.map (·.name)

/-- No two symbols share a name.  This is what an object file asks of a module. -/
def DistinctSymbols (m : Module) : Prop :=
  (m.functions.map (·.name) ++ m.globals.map (·.name)).Nodup

instance (m : Module) : Decidable m.DistinctSymbols := inferInstanceAs (Decidable (List.Nodup _))

/-- A request adds its answer to the symbols and changes none of the others. -/
theorem symbols_serve (m : Module) (r : Request) :
    (m.serve r).symbols.Perm (m.names.next "." r.name :: m.symbols) ∧
      (m.serve r).names = m.names.record r.name := by
  cases r with
  | function name sig linkage =>
    refine ⟨?_, rfl⟩
    simp only [symbols, serve, addFunction, Request.name, List.map_append, List.append_assoc]
    exact List.perm_middle
  | string name text =>
    refine ⟨?_, rfl⟩
    simp only [symbols, serve, addGlobalString, Request.name, List.map_append, ← List.append_assoc]
    exact List.perm_append_singleton _ _

/-- After any requests the symbols are the answers to them, up to the order. -/
theorem symbols_foldl_serve (m : Module) (requests : List Request) :
    (requests.foldl serve m).symbols.Perm
      (((m.names.tickets (requests.map Request.name)).map fun t => NameSupply.answer t.1 t.2) ++
        m.symbols) := by
  induction requests generalizing m with
  | nil => exact .refl _
  | cons r rest ih =>
    have ⟨hsymbols, hnames⟩ := symbols_serve m r
    rw [NameSupply.next_eq_answer] at hsymbols
    have hrest := ih (m.serve r)
    rw [hnames] at hrest
    exact hrest.trans ((hsymbols.append_left _).trans List.perm_middle)

/-- Where no two functions share a name, each is found under its own. -/
theorem getFunction?_name {m : Module} (h : (m.functions.map (·.name)).Nodup) {id : FuncId}
    (hid : id < m.functions.length) : m.getFunction? (m.function id).name = some id := by
  have hfunction : m.function id = m.functions[id] := by simp [function, hid]
  rw [getFunction?, List.findIdx?_eq_some_iff_getElem]
  refine ⟨hid, by simp [hfunction], fun j hj => ?_⟩
  have hne := List.nodup_iff_getElem?_ne_getElem?.mp h j id hj (by simpa using hid)
  have hjlt : j < m.functions.length := Nat.lt_trans hj hid
  simpa [hfunction, hid, hjlt] using hne

/-- **When the symbols of a module are distinct.**  Starting from an empty module, any functions and
strings are added in any order, under any names.  No two of them get the same name if and only if no
requested name is one that another name gets with a number: if a name is requested more than `n`
times, then that name, a dot and `n` must not be requested too.  In that case each function is found
under the name it got.  Nothing checks the condition, so a request for `f.1` and two for `f` give
two symbols of the name `f.1`. -/
theorem distinctSymbols_serve_iff (name : String) (targetTriple : Option String)
    (requests : List Request) :
    ((requests.foldl serve { name, targetTriple }).DistinctSymbols ↔
      ∀ base n, 0 < n → n < (requests.map Request.name).count base →
        base ++ "." ++ toString n ∉ requests.map Request.name) ∧
    ((requests.foldl serve { name, targetTriple }).DistinctSymbols →
      ∀ id < (requests.foldl serve { name, targetTriple }).functions.length,
        (requests.foldl serve { name, targetTriple }).getFunction?
          ((requests.foldl serve { name, targetTriple }).function id).name = some id) := by
  constructor
  · have hsymbols := symbols_foldl_serve { name, targetTriple } requests
    rw [show ({ name, targetTriple } : Module).symbols = [] from rfl, List.append_nil] at hsymbols
    exact hsymbols.nodup_iff.trans (NameSupply.nodup_answers_iff _)
  · intro hdistinct id hid
    exact getFunction?_name hdistinct.of_append_left hid

/-- Two functions `f` and a string `g` are told apart, and the second function is found as `f.1`.
With two functions `f` and a third one `f.1`, the third cannot be found. -/
theorem distinctSymbols_serve_iff_suffixed :
    let requests (last : Request) : List Request :=
      [.function "f" ⟨[], .void, false⟩ .external,
        .function "f" ⟨[.f64], .f64, false⟩ .external, last]
    let told := (requests (.string "g" "text")).foldl serve { name := "m" }
    let clash := (requests (.function "f.1" ⟨[], .void, false⟩ .external)).foldl serve
      { name := "m" }
    told.getFunction? "f.1" = some 1 ∧
      ¬ clash.DistinctSymbols ∧ (clash.function 2).name = "f.1" ∧
        clash.getFunction? "f.1" = some 1 := by
  intro requests told clash
  have htold := distinctSymbols_serve_iff "m" none (requests (.string "g" "text"))
  have hclash :=
    distinctSymbols_serve_iff "m" none (requests (.function "f.1" ⟨[], .void, false⟩ .external))
  refine ⟨htold.2 (by decide) 1 (by decide), fun h => ?_, by decide, by decide⟩
  exact hclash.1.mp h "f" 1 (by decide) (by decide) (by decide)

end Module

end TreeCompiler.IR
