/-
Which modules can be compiled.

Generating an object declares all functions, defines all strings and then makes the code of each
function that has a body.  If no two symbols share a name, nothing clashes: the symbol of a function
is the one at its own position, with the signature of the function, and the strings follow.  So when
the code of a function is made, everything it can refer to is there, and `Buildable` holds of every
function that lowering gave and the verifier accepted.

What remains is `void`.  A parameter of that type cannot be declared, and a value of that type
cannot be used.  `lowerProgram_compile` says that nothing else ever stops the compiler, and that
this always does.
-/
import TreeCompiler.Proofs.IR.Symbols
import TreeCompiler.Proofs.Lowering.Checks
import TreeCompiler.Proofs.Target.Routine
import TreeCompiler.Target.Generator

namespace TreeCompiler.Target

open IR (FuncId BlockId InstId GlobalId Ty Value Op)

/-! ### Steps of generation -/

section Attempt

variable {α β : Type}

/-- A step of generation, seen as one whose state is of no interest if it fails. -/
def attempt (x : GenerateM α) : StateT Generator (Except CodegenError) α := fun g =>
  match x.run g with
  | (.ok a, g') => .ok (a, g')
  | (.error e, _) => .error e

theorem run_bind (x : GenerateM α) (k : α → GenerateM β) (g : Generator) :
    (x >>= k).run g = match x.run g with
      | (.ok a, g') => (k a).run g'
      | (.error e, g') => (.error e, g') := by
  show ExceptT.bindCont k (x.run g).1 (x.run g).2 = _
  rcases x.run g with ⟨_ | _, g'⟩ <;> rfl

theorem attempt_bind (x : GenerateM α) (k : α → GenerateM β) :
    attempt (x >>= k) = attempt x >>= fun a => attempt (k a) := by
  funext g
  show _ = (attempt x g >>= fun r => attempt (k r.1) r.2)
  unfold attempt
  rw [run_bind]
  rcases x.run g with ⟨_ | _, g'⟩ <;> rfl

theorem attempt_forM (xs : List α) (k : α → GenerateM PUnit) :
    attempt (xs.forM k) = xs.forM fun x => attempt (k x) := by
  induction xs with
  | nil => rfl
  | cons x xs ih =>
    have hcons : attempt ((x :: xs).forM k) = attempt (k x) >>= fun _ => attempt (xs.forM k) :=
      attempt_bind (k x) fun _ => xs.forM k
    rw [hcons, ih]
    rfl

theorem attempt_changeTable {change : SymbolTable → Except SymbolClash (α × SymbolTable)}
    {g : Generator} {a : α} {table : SymbolTable} {Q : α → Generator → Prop}
    (h : change g.table = .ok (a, table)) (hq : Q a { g with table }) :
    Refuses False Q (attempt (changeTable change)) g := by
  unfold changeTable
  rw [attempt_bind]
  refine .get_bind ?_
  rw [h]
  exact .of_ok rfl hq

end Attempt

/-! ### Signatures and symbols -/

section Symbols

variable {conv : CallConv} {f : IR.Function} {t : SymbolTable}

/-- The signature of a function whose parameters are not `void`. -/
def codeSigOf (conv : CallConv) (f : IR.Function) : CodeSig :=
  ⟨f.sig.params.filterMap MachineTy.ofTy?, MachineTy.ofTy? f.sig.ret, conv⟩

theorem mapM_ofTy? {k : Ty → Except CodegenError MachineTy} {e : CodegenError}
    (hk : ∀ ty, k ty = (MachineTy.ofTy? ty).elim (.error e) .ok) (tys : List Ty) :
    tys.mapM k = if Ty.void ∈ tys then .error e else .ok (tys.filterMap MachineTy.ofTy?) := by
  induction tys with
  | nil => rfl
  | cons ty tys ih =>
    rw [List.mapM_cons, ih, hk]
    cases ty <;> by_cases h : Ty.void ∈ tys <;> simp [h, MachineTy.ofTy?] <;> rfl

/-- **A function has a signature exactly if none of its parameters is `void`.** -/
theorem codeSig_eq (conv : CallConv) (f : IR.Function) :
    codeSig conv f =
      if Ty.void ∈ f.sig.params then .error (.ofUnsupported (.voidParameter f.name))
      else .ok (codeSigOf conv f) := by
  unfold codeSig
  rw [mapM_ofTy? (e := .ofUnsupported (.voidParameter f.name))]
  · split <;> rfl
  · intro ty
    cases MachineTy.ofTy? ty <;> rfl

theorem length_codeSigOf (h : Ty.void ∉ f.sig.params) :
    (codeSigOf conv f).params.length = f.sig.params.length := by
  unfold codeSigOf
  rw [List.length_filterMap_eq_countP, List.countP_eq_length]
  intro ty hty
  refine (isSome_ofTy? ty).mpr ?_
  rintro rfl
  exact h hty

/-- The symbol of a function. -/
def functionSymbol (conv : CallConv) (f : IR.Function) (defined : Bool) : Symbol :=
  ⟨f.name, visibilityOf f, .function (codeSigOf conv f) defined⟩

/-- The symbol of a string. -/
def stringSymbol (s : IR.GlobalString) : Symbol :=
  ⟨s.name, .unseen, .data (some (IR.terminatedBytes s.text))⟩

theorem find?_eq_none {name : String} (h : name ∉ t.symbols.map (·.name)) :
    t.find? name = none := by
  refine List.findIdx?_eq_none_iff.mpr ?_
  intro s hs
  refine decide_eq_false ?_
  rintro rfl
  exact h (List.mem_map_of_mem hs)

theorem declareFunction_of_new {name : String} {visibility : Visibility} {sig : CodeSig}
    (h : name ∉ t.symbols.map (·.name)) :
    t.declareFunction name visibility sig
      = .ok (t.add ⟨name, visibility, .function sig false⟩) := by
  rw [SymbolTable.declareFunction, find?_eq_none h]

theorem declareData_of_new {name : String} (h : name ∉ t.symbols.map (·.name)) :
    t.declareData name = .ok (t.add ⟨name, .unseen, .data none⟩) := by
  rw [SymbolTable.declareData, find?_eq_none h]

theorem defineData_last (symbols : List Symbol) (name : String) (visibility : Visibility)
    (bytes : List UInt8) :
    SymbolTable.defineData ⟨symbols ++ [⟨name, visibility, .data none⟩]⟩ symbols.length bytes =
      .ok ⟨symbols ++ [⟨name, visibility, .data (some bytes)⟩]⟩ := by
  simp [SymbolTable.defineData, SymbolTable.set]

/-- A function with a body can be defined once. -/
theorem defineFunction_functionSymbol {id : SymbolId} (hbody : f.isDeclaration = false)
    (h : t.symbols[id]? = some (functionSymbol conv f false)) :
    t.defineFunction id = .ok (t.set id (functionSymbol conv f true)) := by
  have hvisible : visibilityOf f ≠ .imported := by
    unfold visibilityOf
    cases f.linkage <;> simp [hbody]
  unfold SymbolTable.defineFunction
  rw [h]
  unfold functionSymbol
  cases hv : visibilityOf f with
  | imported => exact absurd hv hvisible
  | exported => rfl
  | unseen => rfl

end Symbols

/-- A module that lowering gave and the verifier accepted, without two symbols of one name. -/
structure Compilable (m : IR.Module) : Prop where
  checked : ∀ f ∈ m.functions, f.Checked m
  verified : m.verify = []
  symbols : m.DistinctSymbols

/-! ### Declaring the functions -/

section Phases

variable {m : IR.Module} {p : Platform} {g : Generator}

theorem eq_append_of_zipIdx {α : Type} {xs : List α} {x : α} {n : Nat}
    {before after : List (α × Nat)} (h : xs.zipIdx = before ++ (x, n) :: after) :
    n = before.length ∧ xs = before.map (·.1) ++ x :: after.map (·.1) := by
  refine ⟨?_, ?_⟩
  · have hget : xs.zipIdx[before.length]? = some (x, n) := by rw [h]; simp
    rw [List.getElem?_zipIdx] at hget
    obtain ⟨y, -, hy⟩ := Option.map_eq_some_iff.mp hget
    have hn : 0 + before.length = n := congrArg Prod.snd hy
    omega
  · calc
      xs = xs.zipIdx.map (·.1) := (List.zipIdx_map_fst 0 xs).symm
      _ = before.map (·.1) ++ x :: after.map (·.1) := by rw [h]; simp

theorem exists_zipIdx {α : Type} (xs : List α) (P : α → Prop) :
    (∃ x ∈ xs.zipIdx, P x.1) ↔ ∃ x ∈ xs, P x := by
  constructor
  · rintro ⟨x, hx, hp⟩
    exact ⟨x.1, (List.zipIdx_map_fst 0 xs) ▸ List.mem_map_of_mem hx, hp⟩
  · rintro ⟨x, hx, hp⟩
    rw [← List.zipIdx_map_fst 0 xs] at hx
    obtain ⟨y, hy, rfl⟩ := List.mem_map.mp hx
    exact ⟨y, hy, hp⟩

/-- The functions `done` are declared, each with the symbol at its own position. -/
structure Declaring (p : Platform) (done : List (IR.Function × FuncId)) (g : Generator) : Prop where
  platform : g.platform = p
  symbols : g.table.symbols = done.map fun x => functionSymbol p.callConv x.1 false
  functions : ∀ {id : FuncId}, id < done.length → g.functions.lookup id = some id

theorem refuses_declareFunction {done : List (IR.Function × FuncId)} {f : IR.Function}
    (h : Declaring p done g) (hnew : f.name ∉ done.map (·.1.name)) :
    Refuses (Ty.void ∈ f.sig.params) (fun _ g' => Declaring p (done ++ [(f, done.length)]) g')
      (attempt (declareFunction done.length f)) g := by
  unfold declareFunction
  rw [attempt_bind]
  refine .get_bind ?_
  rw [codeSig_eq, h.platform]
  by_cases hvoid : Ty.void ∈ f.sig.params
  · rw [if_pos hvoid]
    exact .refused rfl hvoid
  · rw [if_neg hvoid]
    have hname : f.name ∉ g.table.symbols.map (·.name) := by
      rw [h.symbols, List.map_map]
      exact hnew
    have hlen : g.table.symbols.length = done.length := by rw [h.symbols, List.length_map]
    dsimp only
    rw [attempt_bind]
    refine Refuses.of_not ?_ hvoid
    refine (attempt_changeTable (declareFunction_of_new hname)
      (Q := fun symbol g' => symbol = done.length ∧ g' = { g with
        table := ⟨g.table.symbols ++ [functionSymbol p.callConv f false]⟩ })
      ⟨hlen, rfl⟩).bind_right ?_
    rintro _ _ ⟨rfl, rfl⟩
    refine .modify ⟨h.platform, ?_, ?_⟩
    · simp [h.symbols]
    · intro id hid
      rw [List.length_append, List.length_singleton] at hid
      rw [List.lookup_cons]
      by_cases heq : id = done.length
      · simp [heq]
      · have hlt : id < done.length := Nat.lt_of_le_of_ne (Nat.le_of_lt_succ hid) heq
        rw [beq_false_of_ne heq]
        exact h.functions hlt

theorem refuses_declareFunctions (hnames : (m.functions.map (·.name)).Nodup) :
    Refuses (∃ f ∈ m.functions, Ty.void ∈ f.sig.params)
      (fun _ g => Declaring p m.functions.zipIdx g) (attempt (declareFunctions m))
        { platform := p } := by
  unfold declareFunctions
  rw [attempt_forM]
  refine (Refuses.forM (I := Declaring p) (V := fun x => Ty.void ∈ x.1.sig.params) ?_
    ⟨rfl, rfl, fun hid => absurd hid (Nat.not_lt_zero _)⟩).congr
    (exists_zipIdx m.functions fun f => Ty.void ∈ f.sig.params)
  rintro before ⟨f, id⟩ after hsplit g hg
  obtain ⟨rfl, hfunctions⟩ := eq_append_of_zipIdx hsplit
  refine refuses_declareFunction hg ?_
  rw [hfunctions, List.map_append, List.map_cons, List.map_map] at hnames
  intro hmem
  exact (List.nodup_append.mp hnames).2.2 _ hmem _ List.mem_cons_self rfl

/-! ### Defining the strings -/

/-- All functions are declared, and the strings `done` are defined after them. -/
structure Collecting (m : IR.Module) (p : Platform) (done : List (IR.GlobalString × GlobalId))
    (g : Generator) : Prop where
  platform : g.platform = p
  symbols : g.table.symbols =
    m.functions.map (functionSymbol p.callConv · false) ++ done.map fun x => stringSymbol x.1
  functions : ∀ {id : FuncId}, id < m.functions.length → g.functions.lookup id = some id
  strings : ∀ {id : GlobalId}, id < done.length → id ∈ g.strings.map (·.1)

theorem Declaring.collecting (h : Declaring p m.functions.zipIdx g) : Collecting m p [] g where
  platform := h.platform
  symbols := by
    have hfst := congrArg (List.map (functionSymbol p.callConv · false))
      (List.zipIdx_map_fst 0 m.functions)
    rw [List.map_map] at hfst
    rw [h.symbols, List.map_nil, List.append_nil]
    exact hfst
  functions hid := h.functions (by rwa [List.length_zipIdx])
  strings hid := absurd hid (Nat.not_lt_zero _)

theorem refuses_defineString {done : List (IR.GlobalString × GlobalId)} {s : IR.GlobalString}
    (h : Collecting m p done g) (hnew : s.name ∉ m.functions.map (·.name) ++ done.map (·.1.name)) :
    Refuses False (fun _ g' => Collecting m p (done ++ [(s, done.length)]) g')
      (attempt (defineString done.length s)) g := by
  have hname : s.name ∉ g.table.symbols.map (·.name) := by
    rw [h.symbols, List.map_append, List.map_map, List.map_map]
    exact hnew
  unfold defineString
  rw [attempt_bind]
  refine (attempt_changeTable (declareData_of_new hname)
    (Q := fun symbol g' => symbol = g.table.symbols.length ∧ g' = { g with
      table := ⟨g.table.symbols ++ [⟨s.name, .unseen, .data none⟩]⟩ }) ⟨rfl, rfl⟩).bind_right ?_
  rintro _ _ ⟨rfl, rfl⟩
  have hdefine := congrArg (Except.map fun t => ((), t))
    (defineData_last g.table.symbols s.name .unseen (IR.terminatedBytes s.text))
  rw [attempt_bind]
  refine Refuses.bind_right (Q := fun _ g' => g' = { g with
    table := ⟨g.table.symbols ++ [stringSymbol s]⟩ }) (attempt_changeTable hdefine rfl) ?_
  rintro _ _ rfl
  refine .modify ⟨h.platform, ?_, h.functions, ?_⟩
  · simp [h.symbols]
  · intro id hid
    rw [List.length_append, List.length_singleton] at hid
    rcases Nat.lt_succ_iff_lt_or_eq.mp hid with hlt | rfl
    · exact List.mem_cons_of_mem _ (h.strings hlt)
    · exact List.mem_cons_self

theorem refuses_defineStrings (hsymbols : m.DistinctSymbols) (h : Collecting m p [] g) :
    Refuses False (fun _ g => Collecting m p m.globals.zipIdx g) (attempt (defineStrings m)) g := by
  unfold defineStrings
  rw [attempt_forM]
  refine (Refuses.forM (I := Collecting m p) (V := fun _ => False) ?_ h).congr (by simp)
  rintro before ⟨s, id⟩ after hsplit g hg
  obtain ⟨rfl, hglobals⟩ := eq_append_of_zipIdx hsplit
  refine refuses_defineString hg ?_
  have hnames := hsymbols
  unfold IR.Module.DistinctSymbols at hnames
  rw [hglobals, List.map_append, List.map_cons, List.map_map, ← List.append_assoc] at hnames
  intro hmem
  exact (List.nodup_append.mp hnames).2.2 _ hmem _ List.mem_cons_self rfl

/-! ### Making the code -/

/-- Everything is declared, and the functions that come after `done` have no code yet. -/
structure Generating (m : IR.Module) (p : Platform) (done : List (IR.Function × FuncId))
    (g : Generator) : Prop where
  platform : g.platform = p
  symbols : ∀ {id : FuncId} {f : IR.Function}, m.functions[id]? = some f → ∃ defined,
    g.table.symbols[id]? = some (functionSymbol p.callConv f defined) ∧
      (done.length ≤ id → defined = false)
  functions : ∀ {id : FuncId}, id < m.functions.length → g.functions.lookup id = some id
  strings : ∀ {id : GlobalId}, id < m.globals.length → id ∈ g.strings.map (·.1)

theorem Collecting.generating (h : Collecting m p m.globals.zipIdx g) : Generating m p [] g where
  platform := h.platform
  symbols {id f} hf := by
    refine ⟨false, ?_, fun _ => rfl⟩
    have hlt : id < m.functions.length := (List.getElem?_eq_some_iff.mp hf).1
    rw [h.symbols, List.getElem?_append_left (by rwa [List.length_map]), List.getElem?_map, hf]
    rfl
  functions := h.functions
  strings hid := h.strings (by rwa [List.length_zipIdx])

theorem lookup_filterMap {α β γ : Type} {xs : List (Nat × α)} {k : α → Option β} {f : α → β → γ}
    {n : Nat} {a : α} {b : β} (h : xs.lookup n = some a) (hk : k a = some b) :
    (xs.filterMap fun (i, a) => (k a).map fun b => (i, f a b)).lookup n = some (f a b) := by
  induction xs with
  | nil => cases h
  | cons x xs ih =>
    obtain ⟨i, a'⟩ := x
    rw [List.lookup_cons] at h
    by_cases hi : n = i
    · subst hi
      simp only [BEq.rfl, Option.some.injEq] at h
      subst h
      simp [hk]
    · rw [beq_false_of_ne hi] at h
      have hlater := ih h
      rcases hk' : k a' with _ | b'
      · simpa [hk'] using hlater
      · simpa [hk', List.lookup_cons, beq_false_of_ne hi] using hlater

section Code

variable {done : List (IR.Function × FuncId)} {id : FuncId} {f : IR.Function}

theorem Generating.sigOf? (h : Generating m p done g) (hf : m.functions[id]? = some f) :
    g.sigOf? id = some (codeSigOf p.callConv f) := by
  obtain ⟨defined, hsymbol, -⟩ := h.symbols hf
  rw [Generator.sigOf?, hsymbol]
  rfl

theorem Generating.buildable (h : Generating m p done g) (hm : Compilable m) (hf : f ∈ m.functions)
    (hparams : Ty.void ∉ f.sig.params) : Buildable (g.environment m) f where
  toChecked := hm.checked f hf
  params := hparams
  strings hid := h.strings hid
  callees {callee} hcallee := by
    have hlt : callee < m.functions.length := hcallee
    have hget : m.functions[callee]? = some (m.function callee) := by
      simp [IR.Module.function, List.getElem?_eq_getElem hlt]
    exact ⟨_, _, lookup_filterMap (f := fun symbol sig => (g.table.functionNumber symbol, sig))
      (h.functions hlt) (h.sigOf? hget), rfl⟩

theorem Generating.skip (h : Generating m p done g) (x : IR.Function × FuncId) :
    Generating m p (done ++ [x]) g where
  platform := h.platform
  symbols hf := by
    obtain ⟨defined, hsymbol, hlater⟩ := h.symbols hf
    refine ⟨defined, hsymbol, ?_⟩
    intro hle
    rw [List.length_append] at hle
    exact hlater (by omega)
  functions := h.functions
  strings := h.strings

theorem Generating.define (h : Generating m p done g) (hf : m.functions[done.length]? = some f)
    {g' : Generator}
    (htable : g'.table = g.table.set done.length (functionSymbol p.callConv f true))
    (hplatform : g'.platform = g.platform) (hfunctions : g'.functions = g.functions)
    (hstrings : g'.strings = g.strings) : Generating m p (done ++ [(f, done.length)]) g' where
  platform := hplatform.trans h.platform
  symbols {id f'} hf' := by
    obtain ⟨defined, hsymbol, hlater⟩ := h.symbols hf'
    rw [htable]
    by_cases heq : done.length = id
    · subst heq
      obtain rfl : f = f' := Option.some.inj (hf.symm.trans hf')
      have hlt := (List.getElem?_eq_some_iff.mp hsymbol).1
      refine ⟨true, List.getElem?_set_self hlt, ?_⟩
      intro hle
      rw [List.length_append, List.length_singleton] at hle
      exact absurd hle (Nat.not_succ_le_self _)
    · refine ⟨defined, (List.getElem?_set_ne heq).trans hsymbol, ?_⟩
      intro hle
      rw [List.length_append] at hle
      exact hlater (by omega)
  functions := by rw [hfunctions]; exact h.functions
  strings := by rw [hstrings]; exact h.strings

/-- **The code of a function is refused exactly if the function uses a value of type `void`.** -/
theorem refuses_generateFunction (hm : Compilable m) (h : Generating m p done g)
    (hf : m.functions[done.length]? = some f) (hparams : Ty.void ∉ f.sig.params)
    (hbody : f.isDeclaration = false) :
    Refuses f.UsesVoid (fun _ g' => Generating m p (done ++ [(f, done.length)]) g')
      (attempt (generateFunction m done.length)) g := by
  have hfun : m.function done.length = f := by simp [IR.Module.function, hf]
  have hlt : done.length < m.functions.length := (List.getElem?_eq_some_iff.mp hf).1
  have hsymbol : g.symbolOf? done.length = some done.length := h.functions hlt
  have hbuildable := h.buildable hm (List.mem_of_getElem? hf) hparams
  unfold generateFunction
  rw [attempt_bind]
  refine .get_bind ?_
  rw [hsymbol, Option.bind_some, h.sigOf? hf, hfun]
  dsimp only [Option.map_some]
  rcases build_cases hbuildable (length_codeSigOf hparams) hbody with
    ⟨hvoid, routine, hbuild⟩ | ⟨hvoid, u, hbuild⟩
  · rw [hbuild]
    refine Refuses.of_not ?_ hvoid
    dsimp only
    rw [attempt_bind]
    refine Refuses.bind_right (Q := fun _ g' => g' = { g with listings := g.listings ++
      [⟨g.table.functionNumber done.length, routine⟩] }) (.of_ok rfl rfl) ?_
    rintro _ _ rfl
    obtain ⟨defined, hundefined, hlater⟩ := h.symbols hf
    obtain rfl := hlater (Nat.le_refl _)
    have hdefine := congrArg (Except.map fun t => ((), t))
      (defineFunction_functionSymbol hbody hundefined)
    rw [attempt_bind]
    refine Refuses.bind_right (Q := fun _ g' => Generating m p (done ++ [(f, done.length)]) g')
      (attempt_changeTable hdefine (h.define hf rfl rfl rfl rfl)) ?_
    rintro _ g' hg'
    split
    · exact .of_ok rfl ⟨hg'.platform, hg'.symbols, hg'.functions, hg'.strings⟩
    · exact .of_ok rfl hg'
  · rw [hbuild]
    exact .refused rfl hvoid

/-- Code is made for the functions with a body. -/
theorem refuses_generateFunctions (hm : Compilable m) (h : Generating m p [] g)
    (hparams : ∀ f ∈ m.functions, Ty.void ∉ f.sig.params) :
    Refuses (∃ f ∈ m.functions, f.UsesVoid) (fun _ _ => True)
      (attempt (m.functions.zipIdx.forM fun (f, id) => do
        unless f.isDeclaration do
          generateFunction m id)) g := by
  rw [attempt_forM]
  refine ((Refuses.forM (I := Generating m p) (V := fun x => x.1.UsesVoid) ?_ h).mono
    fun _ _ _ => trivial).congr (exists_zipIdx m.functions IR.Function.UsesVoid)
  rintro before ⟨f, id⟩ after hsplit g hg
  obtain ⟨rfl, hfunctions⟩ := eq_append_of_zipIdx hsplit
  have hf : m.functions[before.length]? = some f := by rw [hfunctions]; simp
  have hmem := List.mem_of_getElem? hf
  have hplace := (hm.checked f hmem).laid.placement
  dsimp only
  cases hbody : f.isDeclaration with
  | true => exact .accepted rfl (IR.Function.not_usesVoid_of_isDeclaration hplace hbody) (hg.skip _)
  | false => exact refuses_generateFunction hm hg hf (hparams f hmem) hbody

end Code

/-- **The code of a module is refused exactly if something of type `void` is used in it.** -/
theorem refuses_generateModule (hm : Compilable m) :
    Refuses m.UsesVoid (fun _ _ => True) (attempt (generateModule m)) { platform := p } := by
  have hnames := (List.nodup_append.mp hm.symbols).1
  unfold generateModule
  rw [attempt_bind]
  have hall := (refuses_declareFunctions (p := p) hnames).and_not.bind
    (k := fun _ => attempt (defineStrings m >>= fun _ => m.functions.zipIdx.forM fun (f, id) => do
      unless f.isDeclaration do
        generateFunction m id))
    (W := ∃ f ∈ m.functions, f.UsesVoid) (R := fun _ _ => True) ?_
  · refine hall.congr ?_
    simp only [IR.Module.UsesVoid, and_or_left, exists_or]
  · rintro _ g ⟨hparams, hg⟩
    rw [attempt_bind]
    refine (refuses_defineStrings hm.symbols hg.collecting).bind_right ?_
    intro _ g' hg'
    refine refuses_generateFunctions hm hg'.generating ?_
    intro f hf hvoid
    exact hparams ⟨f, hf, hvoid⟩

end Phases

/-! ### Compiling -/

section Compile

variable {α : Type} {x : GenerateM α} {g g' : Generator} {a : α} {e : CodegenError}

theorem run_of_attempt_ok (h : (attempt x).run g = .ok (a, g')) : x.run g = (.ok a, g') := by
  change attempt x g = _ at h
  unfold attempt at h
  rcases hx : x.run g with ⟨_ | b, g''⟩
  · simp [hx] at h
  · simp only [hx, Except.ok.injEq, Prod.mk.injEq] at h
    obtain ⟨rfl, rfl⟩ := h
    rfl

theorem run_of_attempt_error (h : (attempt x).run g = .error e) :
    ∃ g', x.run g = (.error e, g') := by
  change attempt x g = _ at h
  unfold attempt at h
  rcases hx : x.run g with ⟨d | b, g''⟩
  · simp only [hx, Except.error.injEq] at h
    exact ⟨g'', by rw [h]⟩
  · simp [hx] at h

/-- A verified module is compiled by the generator for its target. -/
theorem compile_eq {m : IR.Module} (hverify : m.verify = [])
    (hplatform : Generator.new m.targetTriple = .ok g) : compile m = g.compile m := by
  unfold compile
  rw [hverify, hplatform]

/-- Compiling a module for a platform either gives an object or is refused. -/
theorem compile_cases {m : IR.Module} (hm : Compilable m) (p : Platform) :
    (¬ m.UsesVoid ∧ ∃ o, (Generator.compile { platform := p } m).result = .ok o) ∨
      (m.UsesVoid ∧
        ∃ u, (Generator.compile { platform := p } m).result = .error (.ofUnsupported u)) := by
  unfold Generator.compile
  cases refuses_generateModule (p := p) hm with
  | accepted hrun hvoid _ =>
    rw [run_of_attempt_ok hrun]
    exact .inl ⟨hvoid, _, rfl⟩
  | refused hrun hvoid =>
    obtain ⟨g', herror⟩ := run_of_attempt_error hrun
    rw [herror]
    exact .inr ⟨hvoid, _, rfl⟩

end Compile

end TreeCompiler.Target

namespace TreeCompiler.Lowering

open Program (Block)
open Target (Generator Platform CodegenError compile)

section Program

variable {root : Block} {options : Options} {l : Lowered}

/-- **What the verifier accepts is compiled unless `void` gets past it.**  Take a program whose
module the verifier accepts and any platform, and let no two symbols share a name.  Then something
unsupported is met exactly if a parameter is `void`, a function without a result returns a value, or
a value of type `void` is passed in addition to the declared parameters.  Otherwise there is an
object file.  No function is ever missing.  The program as a whole is compiled for the platform that
its target names. -/
theorem lowerProgram_compile (h : lowerProgram root options = .ok l) (hverify : l.code.verify = [])
    (hsymbols : l.code.DistinctSymbols) (platform : Platform) :
    ((∃ reason, (Generator.compile { platform } l.code).result = .error (.unsupported reason)) ↔
        ∃ f ∈ l.code.functions, f.VoidEscapes l.code) ∧
      ((∃ o, (Generator.compile { platform } l.code).result = .ok o) ↔
        ¬ ∃ f ∈ l.code.functions, f.VoidEscapes l.code) ∧
      (∀ name, (Generator.compile { platform } l.code).result ≠ .error (.functionNotFound name)) ∧
      (Generator.new l.code.targetTriple = .ok { platform } →
        compile l.code = Generator.compile { platform } l.code) := by
  have hchecked : ∀ f ∈ l.code.functions, f.Checked l.code :=
    fun f => lowerProgram_checked h hverify
  rw [← IR.Module.usesVoid_iff hchecked]
  have htarget := Target.compile_eq (g := { platform }) hverify
  rcases Target.compile_cases ⟨hchecked, hverify, hsymbols⟩ platform with
    ⟨hvoid, o, hresult⟩ | ⟨hvoid, u, hresult⟩
  · refine ⟨?_, ?_, ?_, htarget⟩ <;> simp [hresult, hvoid]
  · refine ⟨?_, ?_, ?_, htarget⟩ <;> simp [hresult, hvoid, CodegenError.ofUnsupported]

/-- A function that returns what a call of another one gives, which is nothing. -/
def returningNothing : Block :=
  .mk 0 [
    .fn 1 none "g" [] (.mk 2 []),
    .fn 3 none "f" [] (.mk 4 [.ret 5 (some (.call 6 "g" []))])]

theorem lowerProgram_compile_returningNothing :
    ∃ l, lowerProgram returningNothing {} = .ok l ∧ l.errors = [] ∧ l.code.verify = [] ∧
      l.code.DistinctSymbols ∧ Generator.new l.code.targetTriple = .ok { platform := .host } ∧
      ∃ reason, (compile l.code).result = .error (.unsupported reason) := by
  have hrun : ((lowerProgram returningNothing {}).toOption.any fun l =>
      decide (l.errors = [] ∧ l.code.verify = [] ∧ l.code.DistinctSymbols ∧
        l.code.targetTriple = none ∧ ∃ f ∈ l.code.functions, ∃ i ∈ f.insts, ∃ v ∈ i.op.operands,
          i.op = .ret (some v) ∧ f.valueType v = .void)) = true := by decide +kernel
  rcases h : lowerProgram returningNothing {} with e | l
  · simp [h, Except.toOption] at hrun
  · simp only [h, Except.toOption, Option.any_some, decide_eq_true_eq] at hrun
    obtain ⟨herrors, hverify, hsymbols, htriple, f, hf, i, hi, v, -, hop, hvoid⟩ := hrun
    have hplatform : Generator.new l.code.targetTriple = .ok { platform := .host } := by
      rw [htriple]; rfl
    obtain ⟨hunsupported, -, -, htarget⟩ := lowerProgram_compile h hverify hsymbols .host
    rw [← htarget hplatform] at hunsupported
    exact ⟨l, rfl, herrors, hverify, hsymbols, hplatform,
      hunsupported.mpr ⟨f, hf, .returned hi hop hvoid⟩⟩

end Program

end TreeCompiler.Lowering
