/-
The code that a generator makes is well typed.

A generator is asked to declare the functions of a module, to define its strings and to make the
code of its functions, in any order and as often as one likes.  A request may fail half-way, and
what it did before stays.  Whatever was asked, every function that has a symbol has one that was
declared with its signature (`Generator.Declared`): a second declaration under the same name must
have the same signature, and nothing else changes the signature of a symbol.

Nothing branches to the first block of a function, and a phi has an input for each branch to its
block and at least one.  So the first block has no phis (`leadingPhis_zero`), and its parameters are
those of the function.  With that, all that `TypedTranslation` asks for is there, whenever code is
made for a function of a verified program.
-/
import TreeCompiler.Proofs.Target.Typing

namespace TreeCompiler

open IR (FuncId BlockId InstId GlobalId Ty Value Op)

/-! ### Phis have inputs -/

namespace IR.Function

variable {f : Function}

/-- No phi is without inputs. -/
def Fed (f : Function) : Prop := ∀ i ∈ f.insts, i.op ≠ .phi []

theorem Fed.push (hf : f.Fed) {op : Op} (hop : op ≠ .phi []) (b : BlockId) (ty : Ty)
    (name : Option String) :
    (f.push b op ty name).2.Fed := by
  intro i hi
  rw [push_insts] at hi
  rcases List.mem_append.mp hi with hold | hnew
  · exact hf i hold
  · obtain rfl := List.mem_singleton.mp hnew
    exact hop

theorem Fed.setValueName (hf : f.Fed) (v : Value) (name : String) :
    (f.setValueName v name).Fed := by
  intro i hi
  obtain ⟨k, hk⟩ := List.mem_iff_getElem?.mp hi
  obtain ⟨i₀, hi₀, hop, -, -⟩ := getElem?_setValueName hk
  rw [hop]
  exact hf i₀ (List.mem_of_getElem? hi₀)

theorem Fed.setPhi (hf : f.Fed) (k : InstId) {phi : Inst} (hphi : phi.op ≠ .phi []) :
    (f.setPhi k phi).Fed := by
  intro i hi
  rcases List.mem_or_eq_of_mem_set hi with hold | rfl
  · exact hf i hold
  · exact hphi

end IR.Function

namespace Lowering

/-- **No run leaves a phi without inputs.** -/
theorem fed_lasting : Lasting IR.Function.Fed where
  push b ty name hop hf := hf.push hop b ty name
  block _ hf := hf
  rename v name hf := hf.setValueName v name
  setPhi k _ hphi hf := hf.setPhi k hphi
  opened _ _ _ := fun i hi => by cases hi

theorem start_fed (options : Options) : (start options).Each IR.Function.Fed := by
  refine start_each options (fun i hi => by cases hi) (fun name => ?_) fun _ i hi => by cases hi
  have hempty : (IR.Function.new name { params := [.str], ret := .void } .concealed).Fed :=
    fun i hi => by cases hi
  exact ((hempty.push (by simp) _ _ _).push (by simp) _ _ _).push (by simp) _ _ _

/-- **The first block of a function has no phis.** -/
theorem leadingPhis_zero {root : Program.Block} {options : Options} {l : Lowered}
    (h : lowerProgram root options = .ok l) {id : FuncId} (hid : id < l.code.functions.length) :
    Target.leadingPhis (l.code.function id) 0 = [] := by
  obtain ⟨hlaid, hphis⟩ := lowerProgram_laid h hid
  obtain ⟨t, hrun, hcode, -⟩ := lowerProgram_ok h
  have hfed := hrun.each fed_lasting (start_fed options)
  rw [List.eq_nil_iff_forall_not_mem]
  rintro ⟨k, i⟩ hmem
  obtain ⟨hin, incoming, (hop : i.op = .phi incoming)⟩ := Target.of_mem_leadingPhis hmem
  obtain ⟨(hi : (l.code.function id).insts[k]? = some i), (hblock : i.block = 0)⟩ :=
    hlaid.placement.mem_blockInsts.mp hin
  rw [← hcode] at hid hi
  cases incoming with
  | nil => exact hfed id hid i (List.mem_of_getElem? hi) hop
  | cons input rest =>
    -- Its first input comes from a block that branches to the first one.
    rw [hcode] at hi
    have hedge := (hphis.inputs hi hop input.2).mp (by simp)
    have hpos := (hlaid.branching.target hedge).2.2
    rw [hblock] at hpos
    exact Nat.lt_irrefl 0 hpos

end Lowering

/-! ### Generators -/

namespace Target

/-- The signature that a symbol was declared with. -/
def SymbolTable.sigAt? (t : SymbolTable) (symbol : SymbolId) : Option CodeSig :=
  match t.symbols[symbol]? with
  | some ⟨_, _, .function sig _⟩ => some sig
  | _ => none

namespace SymbolTable

variable {t t' : SymbolTable} {symbol id : SymbolId} {sig : CodeSig} {name : String}

/-- The symbols of `t` keep their signatures. -/
def Keeps (t t' : SymbolTable) : Prop :=
  ∀ {symbol : SymbolId} {sig : CodeSig}, t.sigAt? symbol = some sig → t'.sigAt? symbol = some sig

theorem sigAt?_eq_some_iff : t.sigAt? symbol = some sig ↔
    ∃ name visibility defined,
      t.symbols[symbol]? = some ⟨name, visibility, .function sig defined⟩ := by
  unfold sigAt?
  split
  · rename_i name visibility sig' defined hget
    simp [hget]
  · rename_i hno
    constructor
    · intro h
      cases h
    · rintro ⟨name, visibility, defined, hget⟩
      exact absurd hget (hno name visibility sig defined)

theorem keeps_add (t : SymbolTable) (s : Symbol) : t.Keeps (t.add s).2 := by
  intro symbol sig h
  obtain ⟨name, visibility, defined, hget⟩ := sigAt?_eq_some_iff.mp h
  refine sigAt?_eq_some_iff.mpr ⟨name, visibility, defined, ?_⟩
  show (t.symbols ++ [s])[symbol]? = _
  rw [List.getElem?_append_left (List.getElem?_eq_some_iff.mp hget).1]
  exact hget

/-- A symbol may be replaced by one of the same signature. -/
theorem keeps_set {s : Symbol}
    (h : ∀ {sig}, t.sigAt? id = some sig → ∃ defined, s.kind = .function sig defined) :
    t.Keeps (t.set id s) := by
  intro symbol sig hsymbol
  obtain ⟨name, visibility, defined, hget⟩ := sigAt?_eq_some_iff.mp hsymbol
  by_cases heq : id = symbol
  · subst heq
    obtain ⟨defined', hkind⟩ := h hsymbol
    refine sigAt?_eq_some_iff.mpr ⟨s.name, s.visibility, defined', ?_⟩
    show (t.symbols.set id s)[id]? = _
    rw [List.getElem?_set_self (List.getElem?_eq_some_iff.mp hget).1, ← hkind]
  · refine sigAt?_eq_some_iff.mpr ⟨name, visibility, defined, ?_⟩
    show (t.symbols.set id s)[symbol]? = _
    rw [List.getElem?_set_ne heq]
    exact hget

theorem declareFunction_keeps {visibility : Visibility}
    (h : t.declareFunction name visibility sig = .ok (id, t')) :
    t.Keeps t' ∧ t'.sigAt? id = some sig := by
  unfold declareFunction at h
  split at h
  · cases h
    refine ⟨keeps_add t _, sigAt?_eq_some_iff.mpr ⟨name, visibility, false, ?_⟩⟩
    show (t.symbols ++ [_])[t.symbols.length]? = _
    simp
  · split at h
    · rename_i name' earlier declared defined hget
      split at h
      · rename_i hsame
        cases h
        subst hsame
        have hold : t.sigAt? id = some declared := sigAt?_eq_some_iff.mpr ⟨_, _, _, hget⟩
        have hkeeps : t.Keeps (t.set id ⟨name, earlier.merge visibility,
            .function declared defined⟩) := by
          refine keeps_set fun {sig'} hsig' => ⟨defined, ?_⟩
          rw [hold] at hsig'
          rw [Option.some.inj hsig']
        exact ⟨hkeeps, hkeeps hold⟩
      · cases h
    · cases h

theorem declareData_keeps (h : t.declareData name = .ok (id, t')) : t.Keeps t' := by
  unfold declareData at h
  split at h
  · cases h
    exact keeps_add t _
  · split at h
    · cases h
      exact fun hsig => hsig
    · cases h

theorem defineFunction_keeps (h : t.defineFunction id = .ok t') : t.Keeps t' := by
  unfold defineFunction at h
  split at h
  · cases h
  · rename_i name visibility sig hvisible hget
    cases h
    refine keeps_set fun {sig'} hsig' => ⟨true, ?_⟩
    rw [sigAt?_eq_some_iff.mpr ⟨_, _, _, hget⟩] at hsig'
    rw [Option.some.inj hsig']
  · cases h
  · cases h
    exact fun hsig => hsig

theorem defineData_keeps {bytes : List UInt8} (h : t.defineData id bytes = .ok t') :
    t.Keeps t' := by
  unfold defineData at h
  split at h
  · rename_i name visibility hget
    cases h
    refine keeps_set fun {sig'} hsig' => ?_
    obtain ⟨_, _, _, hfun⟩ := sigAt?_eq_some_iff.mp hsig'
    rw [hget] at hfun
    cases hfun
  · cases h
  · cases h
    exact fun hsig => hsig

end SymbolTable

/-- Every function that has a symbol has one that was declared with its signature. -/
structure Generator.Declared (m : IR.Module) (p : Platform) (g : Generator) : Prop where
  platform : g.platform = p
  functions : ∀ entry ∈ g.functions, ∃ sig,
    g.table.sigAt? entry.2 = some sig ∧ codeSig p.callConv (m.function entry.1) = .ok sig

section Steps

variable {α β : Type} {I : Generator → Prop} {m : IR.Module} {p : Platform} {g : Generator}

/-- A step that keeps a property of the generator, whether or not it fails. -/
def Preserves (I : Generator → Prop) (x : GenerateM α) : Prop := ∀ g, I g → I (x.run g).2

theorem Preserves.pure (a : α) : Preserves I (pure a : GenerateM α) := fun _ hg => hg

theorem Preserves.throw (e : CodegenError) : Preserves I (throw e : GenerateM α) := fun _ hg => hg

theorem Preserves.bind {x : GenerateM α} {k : α → GenerateM β} (hx : Preserves I x)
    (hk : ∀ a, Preserves I (k a)) : Preserves I (x >>= k) := by
  intro g hg
  have hfirst := hx g hg
  rw [run_bind]
  rcases hrun : x.run g with ⟨e | a, g'⟩
  · rwa [hrun] at hfirst
  · rw [hrun] at hfirst
    exact hk a g' hfirst

theorem run_get_bind (k : Generator → GenerateM α) (g : Generator) :
    (get >>= k).run g = (k g).run g := rfl

theorem Preserves.modify {change : Generator → Generator} (h : ∀ g, I g → I (change g)) :
    Preserves I (modify change : GenerateM Unit) := fun g hg => h g hg

theorem Preserves.forM {xs : List α} {k : α → GenerateM PUnit} (hk : ∀ x ∈ xs, Preserves I (k x)) :
    Preserves I (xs.forM k) := by
  induction xs with
  | nil => exact .pure _
  | cons x xs ih =>
    exact .bind (hk x List.mem_cons_self) fun _ => ih fun y hy => hk y (List.mem_cons_of_mem _ hy)

theorem run_changeTable (change : SymbolTable → Except SymbolClash (α × SymbolTable))
    (g : Generator) :
    (changeTable change).run g = match change g.table with
      | .ok (a, table) => (.ok a, { g with table })
      | .error e => (.error (.ofClash e), g) := by
  unfold changeTable
  rw [run_get_bind]
  rcases change g.table with e | ⟨a, table⟩ <;> rfl

theorem Generator.Declared.table (hg : g.Declared m p) {table : SymbolTable}
    (h : g.table.Keeps table) :
    ({ g with table } : Generator).Declared m p := by
  refine ⟨hg.platform, fun entry hentry => ?_⟩
  obtain ⟨sig, hsig, hcode⟩ := hg.functions entry hentry
  exact ⟨sig, h hsig, hcode⟩

theorem preserves_changeTable {change : SymbolTable → Except SymbolClash (α × SymbolTable)}
    (h : ∀ {t a t'}, change t = .ok (a, t') → t.Keeps t') :
    Preserves (Generator.Declared m p) (changeTable change) := by
  intro g hg
  rw [run_changeTable]
  rcases hchange : change g.table with e | ⟨a, table⟩
  · exact hg
  · exact hg.table (h hchange)

/-- A change of the table alone keeps the signatures if the table it gives does. -/
theorem keeps_of_map {change : SymbolTable → Except SymbolClash SymbolTable} {t t' : SymbolTable}
    {a : Unit} (h : ∀ {t t'}, change t = .ok t' → t.Keeps t')
    (hmap : (change t).map ((), ·) = .ok (a, t')) :
    t.Keeps t' := by
  rcases hchange : change t with e | table
  · rw [hchange] at hmap
    cases hmap
  · rw [hchange] at hmap
    cases hmap
    exact h hchange

/-- A function is declared with its own signature. -/
theorem preserves_declareFunction (id : FuncId) :
    Preserves (Generator.Declared m p) (declareFunction id (m.function id)) := by
  intro g hg
  unfold declareFunction
  rw [run_get_bind, hg.platform]
  rcases hsig : codeSig p.callConv (m.function id) with e | sig
  · exact hg
  · dsimp only
    rw [run_bind, run_changeTable]
    rcases hdeclare : g.table.declareFunction (m.function id).name
      (visibilityOf (m.function id)) sig with e | ⟨symbol, table⟩
    · exact hg
    · obtain ⟨hkeeps, hnew⟩ := SymbolTable.declareFunction_keeps hdeclare
      have htable := hg.table hkeeps
      refine ⟨htable.platform, fun entry hentry => ?_⟩
      rcases List.mem_cons.mp hentry with rfl | hold
      · exact ⟨sig, hnew, hsig⟩
      · exact htable.functions entry hold

theorem preserves_declareFunctions : Preserves (Generator.Declared m p) (declareFunctions m) := by
  refine .forM ?_
  rintro ⟨f, id⟩ hmem
  have hget : m.functions[id]? = some f := List.mem_zipIdx_iff_getElem?.mp hmem
  have hf : m.function id = f := by
    unfold IR.Module.function
    rw [hget]
    rfl
  rw [← hf]
  exact preserves_declareFunction id

theorem preserves_defineStrings : Preserves (Generator.Declared m p) (defineStrings m) := by
  refine .forM ?_
  rintro ⟨s, id⟩ -
  refine .bind (preserves_changeTable SymbolTable.declareData_keeps) fun symbol => ?_
  exact .bind (preserves_changeTable (keeps_of_map SymbolTable.defineData_keeps)) fun _ =>
    .modify fun g hg => ⟨hg.platform, hg.functions⟩

theorem preserves_generateFunction (id : FuncId) :
    Preserves (Generator.Declared m p) (generateFunction m id) := by
  intro g hg
  unfold generateFunction
  rw [run_get_bind]
  split
  · exact hg
  · dsimp only
    split
    · exact hg
    · refine Preserves.bind (.modify fun g hg => ⟨hg.platform, hg.functions⟩) (fun _ => ?_) g hg
      refine .bind
        (preserves_changeTable (keeps_of_map SymbolTable.defineFunction_keeps)) fun _ => ?_
      split
      · exact .modify fun g hg => ⟨hg.platform, hg.functions⟩
      · exact .pure _

theorem preserves_generateModule : Preserves (Generator.Declared m p) (generateModule m) := by
  refine .bind preserves_declareFunctions fun _ => .bind preserves_defineStrings fun _ => .forM ?_
  rintro ⟨f, id⟩ -
  dsimp only
  split
  · exact .pure _
  · exact preserves_generateFunction id

end Steps

/-- What a generator can be asked for. -/
inductive Demand where
  /-- Declare every function. -/
  | functions
  /-- Define every string. -/
  | strings
  /-- Make the code of one function. -/
  | code (id : FuncId)
  /-- All of this for a whole module. -/
  | everything

def Demand.step (m : IR.Module) : Demand → GenerateM Unit
  | .functions => declareFunctions m
  | .strings => defineStrings m
  | .code id => generateFunction m id
  | .everything => generateModule m

/-- A new generator after requests about a module, some of which may have failed. -/
def Generator.after (p : Platform) (m : IR.Module) (demands : List Demand) : Generator :=
  demands.foldl (fun g x => ((x.step m).run g).2) { platform := p }

section Requests

variable {m : IR.Module} {p : Platform} {g : Generator}

theorem preserves_step (x : Demand) : Preserves (Generator.Declared m p) (x.step m) := by
  cases x with
  | functions => exact preserves_declareFunctions
  | strings => exact preserves_defineStrings
  | code id => exact preserves_generateFunction id
  | everything => exact preserves_generateModule

/-- **Whatever is asked of a generator, it declares functions with their own signatures.** -/
theorem declared_after (demands : List Demand) : (Generator.after p m demands).Declared m p := by
  have hrun : ∀ g : Generator, g.Declared m p →
      (demands.foldl (fun g x => ((x.step m).run g).2) g).Declared m p := by
    induction demands with
    | nil => exact fun g hg => hg
    | cons x demands ih => exact fun g hg => ih _ (preserves_step x g hg)
  exact hrun _ ⟨rfl, fun entry hentry => by cases hentry⟩

theorem Generator.Declared.environment (hg : g.Declared m p) : (g.environment m).Faithful := by
  intro callee number sig hcallee
  obtain ⟨front, back, happ, -⟩ := List.lookup_eq_some_iff.mp hcallee
  have hmem : (callee, number, sig) ∈ (g.environment m).callees := by simp [happ]
  obtain ⟨⟨id, symbol⟩, hentry, hsome⟩ := List.mem_filterMap.mp hmem
  obtain ⟨sig', hsig', hcode⟩ := hg.functions _ hentry
  obtain ⟨found, hfound, heq⟩ := Option.map_eq_some_iff.mp hsome
  obtain rfl := Option.some.inj ((show g.sigOf? symbol = some sig' from hsig').symm.trans hfound)
  cases heq
  show codeSig g.platform.callConv (m.function callee) = _
  rw [hg.platform]
  exact hcode

theorem Generator.Declared.codeSig_eq {id : FuncId} {sig : CodeSig} (hg : g.Declared m p)
    (hsig : (g.symbolOf? id).bind g.sigOf? = some sig) :
    codeSig (g.environment m).conv (m.function id) = .ok sig := by
  obtain ⟨symbol, hsymbol, hfound⟩ := Option.bind_eq_some_iff.mp hsig
  obtain ⟨front, back, happ, -⟩ := List.lookup_eq_some_iff.mp hsymbol
  obtain ⟨sig', hsig', hcode⟩ := hg.functions (id, symbol) (by simp [happ])
  obtain rfl := Option.some.inj ((show g.sigOf? symbol = some sig' from hsig').symm.trans hfound)
  show codeSig g.platform.callConv (m.function id) = _
  rw [hg.platform]
  exact hcode

end Requests

/-! ### The code of a function -/

/-- `r` is the code of `f`, with the values of `d`, and it is well typed. -/
structure Routine.Translates (env : Environment) (f : IR.Function) (d : Draft) (r : Routine) :
    Prop where
  /-- There is one block for each block of the function, with the code of its instructions in their
  order. -/
  length : r.blocks.length = f.blocks.length
  bodies : ∀ {b : BlockId} {block : CodeBlock}, r.blocks[b]? = some block →
    EmitsBlock env f d (entryValues r.blocks) b block.body
  /-- The first block takes the parameters of the function. -/
  entry : ∀ {block : CodeBlock}, r.blocks[0]? = some block →
    block.params.map (fun param => some param.2) = f.sig.params.map MachineTy.ofTy?
  /-- Another block takes its phis. -/
  phis : ∀ {b : BlockId} {block : CodeBlock}, 0 < b → r.blocks[b]? = some block →
    List.Forall₂ (StandsFor d) (leadingPhis f b) block.params
  /-- A branch passes as many values as its target takes: the ones that stand for the inputs that
  the phis of the target have for the branching block, and they have the types of the parameters. -/
  edges : ∀ {b : BlockId} {block : CodeBlock}, r.blocks[b]? = some block → ∀ instr ∈ block.body,
    ∀ edge ∈ instr.branches, ∃ next inputs code, r.blocks[edge.1]? = some next ∧
      edge.2.length = next.params.length ∧ Inputs f b edge.1 inputs ∧
      FetchesAll d (entryValues r.blocks) inputs edge.2 code ∧ code <:+: block.body ∧
      d.Types edge.2 (next.params.map (·.2))
  /-- An instruction has a value of its machine type if it has a result, and otherwise none. -/
  results : ∀ {k : InstId} {i : IR.Inst}, f.insts[k]? = some i →
    (d.results.lookup k).bind (d.types[·]?) = MachineTy.ofTy? i.ty
  wellTyped : ∀ block ∈ r.blocks, ∀ instr ∈ block.body, instr.WellTyped env r.sig.ret r.blocks d

theorem TypedTranslation.translates {env : Environment} {f : IR.Function} {d : Draft} {r : Routine}
    (h : TypedTranslation env f r.sig d r.blocks) : r.Translates env f d where
  length := h.length
  bodies := h.bodies
  entry {block} hblock := by
    rw [← (codeSig_ok h.declared).1, ← (h.entry_params hblock).1, List.map_map]
    rfl
  phis := h.phi_params
  edges {b block} hblock instr hinstr edge hedge := by
    obtain ⟨next, inputs, code, hnext, hinputs, hargs, hcode, htypes⟩ :=
      h.branch hblock hinstr hedge
    refine ⟨next, inputs, code, hnext, ?_, hinputs, hargs, hcode, htypes⟩
    rw [htypes.length_eq, List.length_map]
  results := h.lookup_type
  wellTyped block hblock instr hinstr := by
    obtain ⟨b, hb⟩ := List.mem_iff_getElem?.mp hblock
    exact h.wellTyped hb hinstr

theorem build_ok {env : Environment} {f : IR.Function} {sig : CodeSig} {r : Routine}
    (h : Routine.build env f sig = .ok r) :
    r.sig = sig ∧ ∃ d, (buildBlocks env f sig).run {} = .ok (r.blocks, d) := by
  unfold Routine.build at h
  split at h
  · cases h
  · rcases hrun : (buildBlocks env f sig).run {} with e | ⟨blocks, d⟩
    · rw [hrun] at h
      cases h
    · rw [hrun] at h
      cases h
      exact ⟨rfl, d, rfl⟩

end Target

namespace Lowering

open Program (Block Expr)
open Target (Platform Generator Demand Routine CodeSig buildBlocks)

/-- **The code of a verified program is well typed.**  Whatever was asked of the generator before,
the code that it makes of a function has a block for each block of the function, which takes its
phis, every branch passes the inputs of these phis for the branching block, and every value has the
type of what it stands for. -/
theorem lowerProgram_build_translates {root : Block} {options : Options} {l : Lowered}
    (h : lowerProgram root options = .ok l) (hverify : l.code.verify = []) {p : Platform}
    {demands : List Demand} {g : Generator} (hg : g = Generator.after p l.code demands)
    {id : FuncId} (hid : id < l.code.functions.length) {sig : CodeSig}
    (hsig : (g.symbolOf? id).bind g.sigOf? = some sig) {r : Routine}
    (hbuild : Routine.build (g.environment l.code) (l.code.function id) sig = .ok r) :
    ∃ d, (buildBlocks (g.environment l.code) (l.code.function id) sig).run {} = .ok (r.blocks, d) ∧
      r.Translates (g.environment l.code) (l.code.function id) d := by
  have hdeclared : g.Declared l.code p := hg ▸ Target.declared_after demands
  obtain ⟨rfl, d, hrun⟩ := Target.build_ok hbuild
  have hmem : l.code.function id ∈ l.code.functions := by
    unfold IR.Module.function
    rw [List.getElem?_eq_getElem hid]
    exact List.getElem_mem hid
  have hchecked := lowerProgram_checked h hverify hmem
  have htranslated := Target.ensures_buildBlocks hchecked.laid.placement r.sig _ _ hrun
  exact ⟨d, hrun, Target.TypedTranslation.translates
    ⟨htranslated, hchecked, hdeclared.environment, hdeclared.codeSig_eq hsig,
      leadingPhis_zero h hid⟩⟩

/-- A sum that a loop computes. -/
def summing : Block :=
  .mk 0 [
    .var 1 "double" "total" (some (.double 2 .zero)),
    .expr 3 (.loop 4 (.double 5 .one) (.ident 6 "total") (.mk 7 [
      .expr 8 (.assign 9 "total" (.binary 10 .add (.ident 11 "total") (.ident 12 "i")))]))]

theorem lowerProgram_build_translates_summing :
    ∃ l g sig r d, lowerProgram summing {} = .ok l ∧ l.errors = [] ∧ l.code.verify = [] ∧
      g = Generator.after .host l.code [.code 2, .functions, .strings] ∧
      (g.symbolOf? 2).bind g.sigOf? = some sig ∧
      Routine.build (g.environment l.code) (l.code.function 2) sig = .ok r ∧
      r.blocks.map (·.params.length) = [0, 1, 0] ∧
        r.Translates (g.environment l.code) (l.code.function 2) d := by
  have hrun : ((lowerProgram summing {}).toOption.any fun l =>
      let g := Generator.after .host l.code [.code 2, .functions, .strings]
      decide (l.errors = [] ∧ l.code.verify = [] ∧ 2 < l.code.functions.length) &&
        ((g.symbolOf? 2).bind g.sigOf?).any fun sig =>
          (Routine.build (g.environment l.code) (l.code.function 2) sig).toOption.any fun r =>
            decide (r.blocks.map (·.params.length) = [0, 1, 0])) = true := by decide +kernel
  rcases h : lowerProgram summing {} with e | l
  · simp [h, Except.toOption] at hrun
  · simp only [h, Except.toOption, Option.any_some, Bool.and_eq_true, decide_eq_true_eq,
      Option.any_eq_true] at hrun
    obtain ⟨⟨herrors, hverify, hid⟩, sig, hsig, r, hbuild, hparams⟩ := hrun
    split at hbuild
    · rename_i hbuilt
      cases hbuild
      obtain ⟨d, -, htranslates⟩ := lowerProgram_build_translates h hverify rfl hid hsig hbuilt
      exact ⟨l, _, sig, r, d, rfl, herrors, hverify, rfl, hsig, hbuilt, hparams, htranslates⟩
    · cases hbuild

end Lowering

end TreeCompiler
