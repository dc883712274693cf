/-
A run only adds.

Whatever lowering does, and wherever it fails, the state after it has everything that the state
before it had: the scopes around the innermost one are the same, the innermost one has the same
cursor and at most new bindings in front, declarations, errors and strings are added at the end.  In
the module one block grows, the one at the cursor; other blocks and functions that were there stay
as they are.  `Advances` says all of this, and `Runs.advances` proves it once for all constructs.

For regions the argument is always the same.  What is added inside a region goes to a block or a
function that was not there when the construct began, so seen from outside nothing that was there
has changed (`CodeGrows.inner`).
-/
import TreeCompiler.Proofs.Lowering.Runs

namespace TreeCompiler.Lowering

open IR (FuncId BlockId InstId Ty Value Op)
open Program (NodeId Param)

/-! ### Modules that grow at a cursor -/

/-- `m'` is `m` with more in it.  Of the functions of `m` only the one at the cursor differs, and of
its blocks only the one at the cursor got instructions. -/
structure CodeGrows (c : Option Cursor) (m m' : IR.Module) : Prop where
  globals : m.globals <+: m'.globals
  functions : m.functions.length ≤ m'.functions.length
  others : ∀ f, f < m.functions.length → (∀ d ∈ c, f ≠ d.func) → m'.function f = m.function f
  here : ∀ d ∈ c, d.func < m.functions.length →
    (m.function d.func).GrowsAt d.block (m'.function d.func)

namespace CodeGrows

variable {c : Option Cursor} {m m' m'' : IR.Module}

theorem refl (c : Option Cursor) (m : IR.Module) : CodeGrows c m m :=
  ⟨List.prefix_refl _, Nat.le_refl _, fun _ _ _ => rfl, fun _ _ _ => .refl _ _⟩

theorem trans (h : CodeGrows c m m') (h' : CodeGrows c m' m'') : CodeGrows c m m'' where
  globals := h.globals.trans h'.globals
  functions := Nat.le_trans h.functions h'.functions
  others f hf hne :=
    (h'.others f (Nat.lt_of_lt_of_le hf h.functions) hne).trans (h.others f hf hne)
  here d hd hlt := (h.here d hd hlt).trans (h'.here d hd (Nat.lt_of_lt_of_le hlt h.functions))

/-- A cursor into a block or a function that `m` does not have. -/
def Fresh (c : Option Cursor) (m : IR.Module) (d : Cursor) : Prop :=
  m.functions.length ≤ d.func ∨
    (∃ e ∈ c, e.func = d.func) ∧ (m.function d.func).blocks.length ≤ d.block

/-- What is added at such a cursor changes nothing that `m` has. -/
theorem inner {d : Cursor} (h : CodeGrows c m m') (h' : CodeGrows (some d) m' m'')
    (hd : Fresh c m d) : CodeGrows c m m'' where
  globals := h.globals.trans h'.globals
  functions := Nat.le_trans h.functions h'.functions
  others f hf hne := by
    have hfd : f ≠ d.func := by
      rcases hd with hnew | ⟨⟨e, he, hfe⟩, -⟩
      · exact Nat.ne_of_lt (Nat.lt_of_lt_of_le hf hnew)
      · rw [← hfe]
        exact hne e he
    rw [h'.others f (Nat.lt_of_lt_of_le hf h.functions) (by simpa using hfd), h.others f hf hne]
  here e he hlt := by
    have hlt' : e.func < m'.functions.length := Nat.lt_of_lt_of_le hlt h.functions
    by_cases hfun : e.func = d.func
    · have hblock : (m.function e.func).blocks.length ≤ d.block := by
        rcases hd with hnew | ⟨-, hb⟩
        · rw [← hfun] at hnew
          exact absurd hlt (Nat.not_lt.mpr hnew)
        · rw [hfun]
          exact hb
      have hin := h'.here d (by simp) (hfun ▸ hlt')
      rw [← hfun] at hin
      exact (h.here e he hlt).transInner hin hblock
    · rw [h'.others e.func hlt' (by simpa using hfun)]
      exact h.here e he hlt

/-- A change to the function at the cursor that lets it grow there. -/
theorem update {s : Lowerer} {d : Cursor} {change : IR.Function → IR.Function}
    (hg : (s.code.function d.func).GrowsAt d.block (change (s.code.function d.func))) :
    CodeGrows (some d) s.code (s.update d.func change).code where
  globals := List.prefix_refl _
  functions := by simp
  others f _ hne := Lowerer.function_update_ne change (hne d (by simp))
  here e he hlt := by
    obtain rfl : d = e := by simpa using he
    rw [Lowerer.function_update_self change hlt]
    exact hg

theorem emit (s : Lowerer) (d : Cursor) (op : Op) (ty : Ty) (name : Option String) :
    CodeGrows (some d) s.code (s.emit d op ty name).code :=
  update (.push _ _ _ _ _)

theorem addBlock (s : Lowerer) (d : Cursor) (base : String) :
    CodeGrows (some d) s.code (s.addBlock d.func base).code :=
  update (.createBlock _ _ _)

theorem string (c : Option Cursor) (m : IR.Module) (name text : String) :
    CodeGrows c m (m.addGlobalString name text).2 :=
  ⟨IR.Module.globals_prefix_addGlobalString name text, Nat.le_refl _, fun _ _ _ => rfl,
    fun _ _ _ => .refl _ _⟩

theorem function (c : Option Cursor) (m : IR.Module) (name : String) (sig : IR.Signature)
    (linkage : IR.Linkage) : CodeGrows c m (m.addFunction name sig linkage).2 where
  globals := List.prefix_refl _
  functions := by simp
  others f hf _ := IR.Module.function_addFunction_of_lt name sig linkage hf
  here d _ hlt := by
    rw [IR.Module.function_addFunction_of_lt name sig linkage hlt]
    exact .refl _ _

/-- A change to an instruction that `m` does not have. -/
theorem updateLater {s : Lowerer} {d : Cursor} {change : IR.Function → IR.Function}
    (h : CodeGrows (some d) m s.code)
    (hg : ∀ f : IR.Function, f.GrowsAt d.block (s.code.function d.func) →
      f = m.function d.func → f.GrowsAt d.block (change (s.code.function d.func))) :
    CodeGrows (some d) m (s.update d.func change).code where
  globals := h.globals
  functions := by simpa using h.functions
  others f hf hne := by
    rw [Lowerer.function_update_ne change (hne d (by simp))]
    exact h.others f hf hne
  here e he hlt := by
    obtain rfl : d = e := by simpa using he
    rw [Lowerer.function_update_self change (Nat.lt_of_lt_of_le hlt h.functions)]
    exact hg _ (h.here d he hlt) rfl

/-- Any change to a function that `m` does not have. -/
theorem updateNew {s : Lowerer} {func : FuncId} (h : CodeGrows c m s.code)
    (hf : m.functions.length ≤ func) (change : IR.Function → IR.Function) :
    CodeGrows c m (s.update func change).code where
  globals := h.globals
  functions := by simpa using h.functions
  others f hlt hne := by
    rw [Lowerer.function_update_ne change (Nat.ne_of_lt (Nat.lt_of_lt_of_le hlt hf))]
    exact h.others f hlt hne
  here e he hlt := by
    rw [Lowerer.function_update_ne change (Nat.ne_of_lt (Nat.lt_of_lt_of_le hlt hf))]
    exact h.here e he hlt

theorem rename {s : Lowerer} {d : Cursor} {k : InstId} (h : CodeGrows (some d) m s.code)
    (hk : (m.function d.func).insts.length ≤ k) (name : String) :
    CodeGrows (some d) m (s.rename d.func (.inst k) name).code :=
  h.updateLater fun _ hf heq => hf.setValueName (heq ▸ hk) name

theorem replace {s : Lowerer} {d : Cursor} {k : InstId} (h : CodeGrows (some d) m s.code)
    (hk : (m.function d.func).insts.length ≤ k) (phi : IR.Inst) :
    CodeGrows (some d) m (s.replace d.func k phi).code :=
  h.updateLater fun _ hf heq => hf.replace (heq ▸ hk) phi

end CodeGrows

/-! ### Scopes -/

/-- The innermost table may get bindings, in front; the regions around it stay. -/
inductive KeepsScopes : List Scope → List Scope → Prop
  | nil : KeepsScopes [] []
  | cons {scope scope' : Scope} {rest : List Scope} (cursor : scope'.cursor = scope.cursor)
      (bindings : scope.bindings <:+ scope'.bindings) : KeepsScopes (scope :: rest) (scope' :: rest)

namespace KeepsScopes

variable {a b c : List Scope}

theorem refl : ∀ a : List Scope, KeepsScopes a a
  | [] => .nil
  | _ :: _ => .cons rfl (List.suffix_refl _)

theorem trans (hab : KeepsScopes a b) (hbc : KeepsScopes b c) : KeepsScopes a c := by
  cases hab with
  | nil => exact hbc
  | cons hcur hbind =>
    cases hbc with
    | cons hcur' hbind' => exact .cons (hcur'.trans hcur) (hbind.trans hbind')

theorem tail (h : KeepsScopes a b) : b.tail = a.tail := by
  cases h <;> rfl

theorem nil_iff (h : KeepsScopes a b) : b = [] ↔ a = [] := by
  cases h <;> simp

end KeepsScopes

namespace Lowerer

/-- Where a state adds its instructions, if a region is open. -/
def cursor? (s : Lowerer) : Option Cursor := s.scopes.scopes.head?.map (·.cursor)

variable {s t : Lowerer} {c : Cursor}

theorem mem_cursor? : c ∈ s.cursor? ↔ s.At c := by
  unfold cursor? At ScopeStack.cursor
  cases s.scopes.scopes <;> simp

theorem At.cursor? (h : s.At c) : s.cursor? = some c := mem_cursor?.mpr h

theorem at_iff_of_keepsScopes (h : KeepsScopes s.scopes.scopes t.scopes.scopes) :
    t.At c ↔ s.At c := by
  unfold At ScopeStack.cursor
  generalize s.scopes.scopes = a at h
  generalize t.scopes.scopes = b at h
  cases h with
  | nil => rfl
  | cons hcur => simp [hcur]

/-- Every open region adds its instructions to a block that exists. -/
def Valid (s : Lowerer) : Prop :=
  ∀ scope ∈ s.scopes.scopes, scope.cursor.func < s.code.functions.length ∧
    scope.cursor.block < (s.code.function scope.cursor.func).blocks.length

theorem Valid.cursor (h : s.Valid) (hc : s.At c) :
    c.func < s.code.functions.length ∧ c.block < (s.body c).blocks.length := by
  obtain ⟨scope, rest, hs, rfl⟩ := hc.scopes
  exact h scope (by simp [hs])

end Lowerer

/-! ### States that advance -/

/-- `t` has everything that `s` has, in the same places. -/
structure Advances (s t : Lowerer) : Prop where
  options : t.options = s.options
  scopes : KeepsScopes s.scopes.scopes t.scopes.scopes
  decls : s.decls <+: t.decls
  errors : s.errors <+: t.errors
  code : CodeGrows s.cursor? s.code t.code

namespace Advances

variable {s t u : Lowerer} {c : Cursor}

theorem refl (s : Lowerer) : Advances s s :=
  ⟨rfl, .refl _, List.prefix_refl _, List.prefix_refl _, .refl _ _⟩

theorem at_iff (h : Advances s t) : t.At c ↔ s.At c := Lowerer.at_iff_of_keepsScopes h.scopes

theorem cursor? (h : Advances s t) : t.cursor? = s.cursor? := by
  have hs := h.scopes
  unfold Lowerer.cursor?
  generalize s.scopes.scopes = a at hs
  generalize t.scopes.scopes = b at hs
  cases hs with
  | nil => rfl
  | cons hcur => simp [hcur]

theorem trans (h : Advances s t) (h' : Advances t u) : Advances s u where
  options := h'.options.trans h.options
  scopes := h.scopes.trans h'.scopes
  decls := h.decls.trans h'.decls
  errors := h.errors.trans h'.errors
  code := h.code.trans (h.cursor? ▸ h'.code)

/-- The function at the cursor grows there. -/
theorem body (h : Advances s t) (hv : s.Valid) (hc : s.At c) :
    (s.body c).GrowsAt c.block (t.body c) :=
  h.code.here c (Lowerer.mem_cursor?.mpr hc) (hv.cursor hc).1

theorem blocks_le (h : Advances s t) {f : FuncId} (hf : f < s.code.functions.length) :
    (s.code.function f).blocks.length ≤ (t.code.function f).blocks.length := by
  by_cases hc : ∃ d ∈ s.cursor?, f = d.func
  · obtain ⟨d, hd, rfl⟩ := hc
    exact (h.code.here d hd hf).blocks
  · have hsame := h.code.others f hf (fun d hd heq => hc ⟨d, hd, heq⟩)
    exact Nat.le_of_eq (by rw [hsame])

theorem valid (h : Advances s t) (hv : s.Valid) : t.Valid := by
  -- The cursors are the same ones, and no block is ever removed.
  have key : ∀ scope' ∈ t.scopes.scopes, ∃ scope ∈ s.scopes.scopes,
      scope'.cursor = scope.cursor := by
    have hs := h.scopes
    generalize s.scopes.scopes = a at hs
    generalize t.scopes.scopes = b at hs
    cases hs with
    | nil => simp
    | cons hcur =>
      intro scope' hmem
      rcases List.mem_cons.mp hmem with rfl | hrest
      · exact ⟨_, by simp, hcur⟩
      · exact ⟨scope', by simp [hrest], rfl⟩
  intro scope' hmem
  obtain ⟨scope, hmem', heq⟩ := key scope' hmem
  obtain ⟨hf, hb⟩ := hv scope hmem'
  rw [heq]
  exact ⟨Nat.lt_of_lt_of_le hf h.code.functions, Nat.lt_of_lt_of_le hb (h.blocks_le hf)⟩

/-- A change to the module and nothing else. -/
theorem ofCode {m : IR.Module} (h : CodeGrows s.cursor? s.code m) :
    Advances s { s with code := m } :=
  ⟨rfl, .refl _, List.prefix_refl _, List.prefix_refl _, h⟩

/-- A change to a function that `s` does not have. -/
theorem updateNew (h : Advances s t) {func : FuncId} (hf : s.code.functions.length ≤ func)
    (change : IR.Function → IR.Function) : Advances s (t.update func change) :=
  ⟨h.options, h.scopes, h.decls, h.errors, h.code.updateNew hf change⟩

end Advances

/-! ### Regions -/

/-- `o` is `s` with one more region open, which fills a block that `s` does not have. -/
structure Opens (s o : Lowerer) (d : Cursor) : Prop where
  options : o.options = s.options
  scopes : ∃ scope, o.scopes.scopes = scope :: s.scopes.scopes ∧ scope.cursor = d
  decls : s.decls <+: o.decls
  errors : s.errors <+: o.errors
  code : CodeGrows s.cursor? s.code o.code
  fresh : CodeGrows.Fresh s.cursor? s.code d
  exists_block : d.func < o.code.functions.length ∧
    d.block < (o.code.function d.func).blocks.length

namespace Opens

variable {s o t : Lowerer} {c d : Cursor}

theorem opened (h : Opens s o d) : o.At d := by
  obtain ⟨scope, hs, rfl⟩ := h.scopes
  exact Lowerer.at_of_scopes hs

theorem valid (h : Opens s o d) (hv : s.Valid) : o.Valid := by
  obtain ⟨scope, hs, rfl⟩ := h.scopes
  intro scope' hmem
  rw [hs] at hmem
  rcases List.mem_cons.mp hmem with rfl | hrest
  · exact h.exists_block
  · obtain ⟨hf, hb⟩ := hv scope' hrest
    refine ⟨Nat.lt_of_lt_of_le hf h.code.functions, Nat.lt_of_lt_of_le hb ?_⟩
    by_cases hc : ∃ e ∈ s.cursor?, scope'.cursor.func = e.func
    · obtain ⟨e, he, heq⟩ := hc
      rw [heq] at hf ⊢
      exact (h.code.here e he hf).blocks
    · have hsame := h.code.others _ hf (fun e he heq => hc ⟨e, he, heq⟩)
      exact Nat.le_of_eq (by rw [hsame])

/-- What is done inside a region grows the module around it. -/
theorem codeGrows (h : Opens s o d) (ha : Advances o t) : CodeGrows s.cursor? s.code t.code :=
  h.code.inner (h.opened.cursor? ▸ ha.code) h.fresh

theorem tail_scopes (h : Opens s o d) (ha : Advances o t) :
    t.scopes.scopes.tail = s.scopes.scopes := by
  obtain ⟨scope, hs, -⟩ := h.scopes
  rw [ha.scopes.tail, hs]
  rfl

/-- Once the region is closed, the scopes are those from before it was opened. -/
theorem leave_scopes (h : Opens s o d) (ha : Advances o t) : t.leave.scopes = s.scopes := by
  show ScopeStack.mk t.scopes.scopes.tail = s.scopes
  rw [h.tail_scopes ha]

theorem close (h : Opens s o d) (ha : Advances o t) : Advances s t.leave where
  options := ha.options.trans h.options
  scopes := by
    rw [h.leave_scopes ha]
    exact .refl _
  decls := h.decls.trans ha.decls
  errors := h.errors.trans ha.errors
  code := show CodeGrows s.cursor? s.code t.code from h.codeGrows ha

end Opens

/-! ### The regions of lowering -/

section Constructs

variable {s t u : Lowerer} {c d : Cursor}

theorem enter_eq (hc : s.At c) (d : Cursor) : ∃ scope : Scope, scope.cursor = d ∧
    s.enter d = { s with scopes := ⟨scope :: s.scopes.scopes⟩ } := by
  obtain ⟨scope, rest, hs, -⟩ := hc.scopes
  refine ⟨{ scope with cursor := d }, rfl, ?_⟩
  simp only [Lowerer.enter, hs]

@[simp] theorem enter_code (s : Lowerer) (d : Cursor) : (s.enter d).code = s.code := by
  unfold Lowerer.enter
  split <;> rfl

theorem body_enter (s : Lowerer) (c d : Cursor) : (s.enter d).body c = s.body c := by
  rw [Lowerer.body, enter_code]
  rfl

@[simp] theorem bindName_code (s : Lowerer) (name : String) (value : Value)
    (decl : Option DeclId) : (s.bindName name value decl).code = s.code := by
  unfold Lowerer.bindName
  split <;> rfl

@[simp] theorem bindParams_code (s : Lowerer) (i : Nat) (params : List Param) :
    (s.bindParams i params).code = s.code := by
  induction params generalizing s i with
  | nil => rfl
  | cons p ps ih =>
    rw [Lowerer.bindParams, ih, bindName_code]
    rfl

@[simp] theorem enter_errors (s : Lowerer) (d : Cursor) : (s.enter d).errors = s.errors := by
  unfold Lowerer.enter
  split <;> rfl

@[simp] theorem bindName_errors (s : Lowerer) (name : String) (value : Value)
    (decl : Option DeclId) : (s.bindName name value decl).errors = s.errors := by
  unfold Lowerer.bindName
  split <;> rfl

@[simp] theorem bindParams_errors (s : Lowerer) (i : Nat) (params : List Param) :
    (s.bindParams i params).errors = s.errors := by
  induction params generalizing s i with
  | nil => rfl
  | cons p ps ih =>
    rw [Lowerer.bindParams, ih, bindName_errors]
    rfl

@[simp] theorem leave_errors (s : Lowerer) : s.leave.errors = s.errors := rfl

@[simp] theorem fork_errors (s : Lowerer) (c : Cursor) (cond : Value) :
    (s.fork c cond).errors = s.errors := rfl

@[simp] theorem openLoop_errors (s : Lowerer) (c : Cursor) (start : Value) :
    (s.openLoop c start).errors = s.errors := by
  rw [Lowerer.openLoop, bindName_errors]
  exact enter_errors _ _

@[simp] theorem openFunction_errors (s : Lowerer) (name : String) (params : List Param) (ret : Ty) :
    (s.openFunction name params ret).errors = s.errors := by
  rw [Lowerer.openFunction, bindParams_errors]
  rfl

/-- A table is opened for a block that was added before. -/
theorem Opens.intro {scope : Scope} (ha : Advances s t) (hs : t.scopes = s.scopes)
    (hf : CodeGrows.Fresh s.cursor? s.code scope.cursor)
    (hd : scope.cursor.func < t.code.functions.length ∧
      scope.cursor.block < (t.code.function scope.cursor.func).blocks.length) :
    Opens s { t with scopes := ⟨scope :: t.scopes.scopes⟩ } scope.cursor :=
  ⟨ha.options, ⟨scope, by rw [hs], rfl⟩, ha.decls, ha.errors, ha.code, hf, hd⟩

theorem Opens.enter (ha : Advances s t) (hs : t.scopes = s.scopes) (hc : s.At c)
    (hf : CodeGrows.Fresh s.cursor? s.code d)
    (hd : d.func < t.code.functions.length ∧
      d.block < (t.code.function d.func).blocks.length) : Opens s (t.enter d) d := by
  obtain ⟨scope, rfl, heq⟩ := enter_eq (ha.at_iff.mpr hc) d
  rw [heq]
  exact .intro ha hs hf hd

/-- What is done in a region leaves it open. -/
theorem Opens.advance (h : Opens s t d) (ha : Advances t u) : Opens s u d where
  options := ha.options.trans h.options
  scopes := by
    obtain ⟨scope, hs, hd⟩ := h.scopes
    have hk := ha.scopes
    rw [hs] at hk
    generalize u.scopes.scopes = b at hk
    cases hk with
    | cons hcur => exact ⟨_, rfl, hcur.trans hd⟩
  decls := h.decls.trans ha.decls
  errors := h.errors.trans ha.errors
  code := h.codeGrows ha
  fresh := h.fresh
  exists_block :=
    ⟨Nat.lt_of_lt_of_le h.exists_block.1 ha.code.functions,
      Nat.lt_of_lt_of_le h.exists_block.2 (ha.blocks_le h.exists_block.1)⟩

theorem advances_emit (hc : s.At c) (op : Op) (ty : Ty) (name : Option String) :
    Advances s (s.emit c op ty name) :=
  .ofCode (hc.cursor? ▸ .emit s c op ty name)

theorem advances_bindName (s : Lowerer) (name : String) (value : Value) (decl : Option DeclId) :
    Advances s (s.bindName name value decl) := by
  unfold Lowerer.bindName
  split
  · exact .refl s
  · rename_i scope rest hs
    refine ⟨rfl, ?_, List.prefix_refl _, List.prefix_refl _, .refl _ _⟩
    rw [hs]
    exact .cons rfl (List.suffix_cons _ _)

theorem advances_record (s : Lowerer) (decl : Decl) : Advances s (s.record decl) :=
  ⟨rfl, .refl _, List.prefix_append _ _, List.prefix_refl _, .refl _ _⟩

theorem advances_bindParams (s : Lowerer) (i : Nat) (params : List Param) :
    Advances s (s.bindParams i params) := by
  induction params generalizing s i with
  | nil => exact .refl s
  | cons p ps ih =>
    exact ((advances_record s _).trans (advances_bindName _ _ _ _)).trans (ih _ _)

theorem advances_declareVariable (hc : s.At c) (node : NodeId) (ty : Ty) (name : String) :
    Advances s (s.declareVariable c node ty name) :=
  ((advances_emit hc _ _ _).trans (advances_record _ _)).trans (advances_bindName _ _ _ _)

theorem advances_addArms (hc : s.At c) :
    Advances s ((s.addBlock c.func "then").addBlock c.func "else") :=
  .ofCode (hc.cursor? ▸ (CodeGrows.addBlock s c "then").trans (.addBlock _ c "else"))

theorem advances_fork (hc : s.At c) (cond : Value) : Advances s (s.fork c cond) :=
  (advances_addArms hc).trans (advances_emit ((advances_addArms hc).at_iff.mpr hc) _ _ _)

theorem body_addArms (hf : c.func < s.code.functions.length) :
    ((s.addBlock c.func "then").addBlock c.func "else").body c =
      (((s.body c).createBlock "then").2.createBlock "else").2 := by
  rw [Lowerer.body_update _ (by simpa using hf), Lowerer.body_update _ hf]

theorem body_fork (hf : c.func < s.code.functions.length) (cond : Value) :
    (s.fork c cond).body c = ((((s.body c).createBlock "then").2.createBlock "else").2.push c.block
      (.condBr cond (s.nextBlock c) (s.nextBlock c + 1)) .void none).2 := by
  rw [Lowerer.fork, Lowerer.body_update _ (by simpa using hf), body_addArms hf]

theorem fork_blocks (hf : c.func < s.code.functions.length) (cond : Value) :
    ((s.fork c cond).body c).blocks.length = s.nextBlock c + 2 := by
  rw [body_fork hf]
  simp [Lowerer.nextBlock]

theorem fresh_of_block (hc : s.At c) {b : BlockId} (hb : s.nextBlock c ≤ b) :
    CodeGrows.Fresh s.cursor? s.code { c with block := b } :=
  .inr ⟨⟨c, Lowerer.mem_cursor?.mpr hc, rfl⟩, hb⟩

/-- The first arm of a conditional. -/
theorem opens_then (hv : s.Valid) (hc : s.At c) (cond : Value) :
    Opens s ((s.fork c cond).enter (s.nextCursor c)) (s.nextCursor c) := by
  have hf := (hv.cursor hc).1
  refine .enter (advances_fork hc cond) rfl hc (fresh_of_block hc (Nat.le_refl _)) ⟨?_, ?_⟩
  · exact Nat.lt_of_lt_of_le hf (advances_fork hc cond).code.functions
  · show s.nextBlock c < ((s.fork c cond).body c).blocks.length
    rw [fork_blocks hf]
    exact Nat.lt_add_of_pos_right (by decide)

/-- The second arm of a conditional, whatever was done in the first. -/
theorem opens_else (hv : s.Valid) (hc : s.At c) {cond : Value}
    (ha : Advances ((s.fork c cond).enter (s.nextCursor c)) t) :
    Opens s (t.leave.enter { c with block := s.nextBlock c + 1 })
      { c with block := s.nextBlock c + 1 } := by
  have hf := (hv.cursor hc).1
  have ho := opens_then hv hc cond
  have hf' := Nat.lt_of_lt_of_le hf ho.code.functions
  refine .enter (ho.close ha) (ho.leave_scopes ha) hc
    (fresh_of_block hc (Nat.le_succ _)) ⟨Nat.lt_of_lt_of_le hf' ha.code.functions, ?_⟩
  refine Nat.lt_of_lt_of_le ?_ (ha.blocks_le hf')
  rw [enter_code]
  show s.nextBlock c + 1 < ((s.fork c cond).body c).blocks.length
  rw [fork_blocks hf]
  exact Nat.lt_succ_self _

theorem advances_jump (hc : s.At c) : Advances s (s.jump c) :=
  .ofCode (hc.cursor? ▸ (CodeGrows.addBlock s c "loop").trans (.emit _ c _ _ _))

theorem body_jump (hf : c.func < s.code.functions.length) :
    (s.jump c).body c =
      (((s.body c).createBlock "loop").2.push c.block (.br (s.nextBlock c)) .void none).2 := by
  rw [Lowerer.jump, Lowerer.body_update _ (by simpa using hf), Lowerer.body_update _ hf]

/-- The region of a loop, before it has its counter. -/
theorem opens_jump (hv : s.Valid) (hc : s.At c) :
    Opens s ((s.jump c).enter (s.nextCursor c)) (s.nextCursor c) := by
  have hf := (hv.cursor hc).1
  have hjump := advances_jump hc
  refine .enter hjump rfl hc (fresh_of_block hc (Nat.le_refl _))
    ⟨Nat.lt_of_lt_of_le hf hjump.code.functions, ?_⟩
  show s.nextBlock c < ((s.jump c).body c).blocks.length
  rw [body_jump hf, IR.Function.push_blocks_length, IR.Function.createBlock_blocks_length]
  exact Nat.lt_succ_self _

theorem opens_loop (hv : s.Valid) (hc : s.At c) (start : Value) :
    Opens s (s.openLoop c start) (s.nextCursor c) :=
  (opens_jump hv hc).advance
    ((advances_emit (opens_jump hv hc).opened _ _ _).trans (advances_bindName _ _ _ _))

theorem foldl_setParamName (params : List (Param × Nat)) (f : IR.Function) :
    ∃ names, params.foldl (fun f (p, i) => f.setParamName i p.name) f
      = { f with paramNames := names } := by
  induction params generalizing f with
  | nil => exact ⟨f.paramNames, rfl⟩
  | cons p ps ih =>
    obtain ⟨names, h⟩ := ih (f.setParamName p.2 p.1.name)
    exact ⟨names, h⟩

theorem advances_declareFunction (s : Lowerer) (name : String) (params : List Param) (ret : Ty) :
    Advances s (s.declareFunction name params ret) := by
  have hadd : Advances s { s with
      code := (s.code.addFunction name (Lowerer.signature params ret) .internal).2 } :=
    .ofCode (.function _ _ _ _ _)
  have hfunc : s.code.functions.length ≤ s.nextFunction.func := Nat.le_refl _
  unfold Lowerer.declareFunction
  exact hadd.updateNew hfunc _

theorem advances_addFunction (s : Lowerer) (name : String) (params : List Param) (ret : Ty) :
    Advances s (s.addFunction name params ret) := by
  have hfunc : s.code.functions.length ≤ s.nextFunction.func := Nat.le_refl _
  unfold Lowerer.addFunction
  exact (advances_declareFunction s name params ret).updateNew hfunc _

@[simp] theorem declareFunction_functions_length (s : Lowerer) (name : String)
    (params : List Param) (ret : Ty) :
    (s.declareFunction name params ret).code.functions.length = s.code.functions.length + 1 := by
  simp [Lowerer.declareFunction]

@[simp] theorem addFunction_functions_length (s : Lowerer) (name : String) (params : List Param)
    (ret : Ty) :
    (s.addFunction name params ret).code.functions.length = s.code.functions.length + 1 := by
  simp [Lowerer.addFunction]

/-- A function that has just been declared has no blocks. -/
theorem body_declareFunction (s : Lowerer) (name : String) (params : List Param) (ret : Ty) :
    ∃ names, (s.declareFunction name params ret).body s.nextFunction =
      { IR.Function.new (s.code.names.next "." name) (Lowerer.signature params ret) .internal with
          paramNames := names } := by
  obtain ⟨names, hnames⟩ := foldl_setParamName params.zipIdx
    (IR.Function.new (s.code.names.next "." name) (Lowerer.signature params ret) .internal)
  refine ⟨names, ?_⟩
  rw [← hnames, Lowerer.declareFunction, Lowerer.body_update _ (by simp [Lowerer.nextFunction])]
  congr 1
  exact IR.Module.function_addFunction_self _ _ _

/-- A function that has just been added has one, and nothing in it. -/
theorem body_addFunction (s : Lowerer) (name : String) (params : List Param) (ret : Ty) :
    ∃ names, (s.addFunction name params ret).body s.nextFunction =
      ({ IR.Function.new (s.code.names.next "." name) (Lowerer.signature params ret) .internal with
          paramNames := names }.createBlock "entry").2 := by
  obtain ⟨names, hbody⟩ := body_declareFunction s name params ret
  refine ⟨names, ?_⟩
  rw [Lowerer.addFunction, Lowerer.body_update _ (by simp [Lowerer.nextFunction]), hbody]

theorem nextFunction_lt_addFunction (s : Lowerer) (name : String) (params : List Param)
    (ret : Ty) :
    s.nextFunction.func < (s.addFunction name params ret).code.functions.length := by
  rw [addFunction_functions_length]
  exact Nat.lt_succ_self _

theorem sig_body_addFunction (s : Lowerer) (name : String) (params : List Param) (ret : Ty) :
    ((s.addFunction name params ret).body s.nextFunction).sig = Lowerer.signature params ret := by
  obtain ⟨names, hbody⟩ := body_addFunction s name params ret
  rw [hbody]
  rfl

theorem opens_function (s : Lowerer) (name : String) (params : List Param) (ret : Ty) :
    Opens s (s.openFunction name params ret) s.nextFunction := by
  obtain ⟨names, hbody⟩ := body_addFunction s name params ret
  have ho : Opens s ((s.addFunction name params ret).enterEmpty s.nextFunction) s.nextFunction := by
    refine Opens.intro (advances_addFunction s name params ret) rfl (.inl (Nat.le_refl _))
      ⟨nextFunction_lt_addFunction s name params ret, ?_⟩
    · show 0 < ((s.addFunction name params ret).body s.nextFunction).blocks.length
      rw [hbody, IR.Function.createBlock_blocks_length]
      exact Nat.succ_pos _
  exact ho.advance (advances_bindParams _ 0 params)

/-- The end of a loop, seen from before it. -/
theorem closeLoop_codeGrows (hv : s.Valid) (hc : s.At c) (h : CodeGrows (some c) s.code u.code)
    {next : InstId} (hnext : (s.body c).insts.length ≤ next) (induction : String)
    (incoming : List (Value × BlockId)) (bound : Value) :
    CodeGrows (some c) s.code
      ((u.closeLoop (s.nextCursor c) (s.counter c) next induction incoming bound).emit
        { c with block := (u.body c).blocks.length } (.ret none) .void none).code := by
  have hgrows : (s.body c).GrowsAt c.block (u.body c) := h.here c rfl (hv.cursor hc).1
  have hinside : CodeGrows.Fresh (some c) s.code (s.nextCursor c) :=
    hc.cursor? ▸ fresh_of_block hc (Nat.le_refl _)
  have hafter : CodeGrows.Fresh (some c) s.code { c with block := (u.body c).blocks.length } :=
    hc.cursor? ▸ fresh_of_block hc hgrows.blocks
  have htest := ((h.inner (.emit u (s.nextCursor c) (.fcmp .ole (.inst next) bound) .i1 none)
    hinside).rename hnext "nextvar").rename hgrows.insts.length_le "loopcond"
  have hback := (htest.trans (.addBlock _ c "afterloop")).inner (.emit _ (s.nextCursor c)
    (.condBr (.inst (u.body c).insts.length) (s.nextBlock c) (u.body c).blocks.length) .void none)
    hinside
  exact (hback.replace (Nat.le_succ _) _).inner (.emit _ _ _ _ _) hafter

/-- **A run only adds.** -/
theorem Runs.advances (h : Runs s t) (hv : s.Valid) : Advances s t := by
  induction h with
  | refl s => exact .refl s
  | trans _ _ ih ih' => exact (ih hv).trans (ih' ((ih hv).valid hv))
  | string s name text => exact .ofCode (.string _ _ name text)
  | error s _ =>
    exact ⟨rfl, .refl _, List.prefix_refl _, List.prefix_append _ _, .refl _ _⟩
  | plain hc _ _ => exact advances_emit hc _ _ _
  | slot hc node ty name => exact advances_declareVariable hc node ty name
  | branch hc _ _ _ ihthen ihelse =>
    have ha := ihthen ((opens_then hv hc _).valid hv)
    have ho := opens_else hv hc ha
    exact ho.close (ihelse (ho.valid hv))
  | @branchBroken s t c cond hc _ _ ihthen =>
    have ho := opens_then hv hc cond
    exact ho.close (ihthen (ho.valid hv))
  | @loop s t u c start bound hc _ _ _ _ ihbody ihlimit =>
    have ho := opens_loop hv hc start
    have hbody := ihbody (ho.valid hv)
    have hnext : Advances t (t.advance (s.nextCursor c) (s.counter c)) :=
      advances_emit (hbody.at_iff.mpr ho.opened) _ _ _
    have hlimit := ihlimit (hnext.valid (hbody.valid (ho.valid hv)))
    have ha := (hbody.trans hnext).trans hlimit
    have hcode : CodeGrows (some c) s.code t.code := hc.cursor? ▸ ho.codeGrows hbody
    have hgrows : (s.body c).GrowsAt c.block (t.body c) := hcode.here c rfl (hv.cursor hc).1
    refine ⟨(ho.close ha).options, ?_, (ho.close ha).decls, (ho.close ha).errors, ?_⟩
    · exact (ho.close ha).scopes
    · rw [hc.cursor?]
      exact closeLoop_codeGrows hv hc (hc.cursor? ▸ ho.codeGrows ha) hgrows.insts.length_le _ _ _
  | @loopBroken s t c start hc _ _ ihbody =>
    have ho := opens_loop hv hc start
    exact ho.close (ihbody (ho.valid hv))
  | @function s t name params ret _ ihbody =>
    have ho := opens_function s name params ret
    exact ho.close (ihbody (ho.valid hv))

/-! ### What stays at hand -/

theorem Usable.advances {v : Value} (h : Usable s v) (ha : Advances s t) (hv : s.Valid) :
    Usable t v := by
  cases h with
  | const k => exact .const k
  | global hlt => exact .global (Nat.lt_of_lt_of_le hlt ha.code.globals.length_le)
  | bound hs hb =>
    have hk := ha.scopes
    rw [hs] at hk
    generalize ht : t.scopes.scopes = b at hk
    cases hk with
    | cons _ hbind => exact .bound ht (hbind.subset hb)
  | result hc hk hi =>
    exact .result (ha.at_iff.mpr hc) ((ha.body hv hc).some_of_some hk) hi

/-- Functions that are there keep their signatures. -/
theorem Advances.sig (ha : Advances s t) {f : FuncId} (hf : f < s.code.functions.length) :
    (t.code.function f).sig = (s.code.function f).sig := by
  by_cases hc : ∃ d ∈ s.cursor?, f = d.func
  · obtain ⟨d, hd, rfl⟩ := hc
    exact (ha.code.here d hd hf).sig
  · rw [ha.code.others f hf (fun d hd heq => hc ⟨d, hd, heq⟩)]

end Constructs

end TreeCompiler.Lowering
