/-
The names of functions.

A function gets its name from the module's supply when it is added, and keeps it.  The supply never
gives out a name again that was requested before, unless something is appended to it; so what was
requested before a run started is not the name of any function that the run adds.  The case that
matters is the printing function of the system: it is requested before anything else, and a function
that a program declares under the same name gets another one.
-/
import TreeCompiler.Proofs.Lowering.Start

namespace TreeCompiler.IR

/-- A name that was requested is not given out as it is, and an answer to a further request has a
dot. -/
theorem NameSupply.next_ne {names : NameSupply} {taken : String} (h : taken ∈ names.requested)
    (hdot : '.' ∉ taken.toList) (base : String) : names.next "." base ≠ taken := by
  unfold NameSupply.next
  split
  · rename_i hcount
    rintro rfl
    exact List.count_eq_zero.mp hcount h
  · rintro rfl
    simp at hdot

end TreeCompiler.IR

namespace TreeCompiler.Lowering

open IR (FuncId BlockId InstId Ty Value Op)
open Program (Param)

/-- Functions keep their names, and a new one has a name that the supply gave out later. -/
structure Named (m m' : IR.Module) : Prop where
  count : m.functions.length ≤ m'.functions.length
  requested : m.names.requested <:+ m'.names.requested
  old : ∀ {f : FuncId}, f < m.functions.length → (m'.function f).name = (m.function f).name
  new : ∀ {f : FuncId}, m.functions.length ≤ f → f < m'.functions.length →
    ∃ (names : IR.NameSupply) (base : String), m.names.requested <:+ names.requested ∧
      (m'.function f).name = names.next "." base

namespace Named

variable {m m' m'' : IR.Module}

theorem refl (m : IR.Module) : Named m m :=
  ⟨Nat.le_refl _, List.suffix_refl _, fun _ => rfl, fun hge hlt => absurd hlt (Nat.not_lt.mpr hge)⟩

theorem trans (h : Named m m') (h' : Named m' m'') : Named m m'' where
  count := Nat.le_trans h.count h'.count
  requested := h.requested.trans h'.requested
  old hf := (h'.old (Nat.lt_of_lt_of_le hf h.count)).trans (h.old hf)
  new := by
    intro f hge hlt
    rcases Nat.lt_or_ge f m'.functions.length with hmid | hlater
    · rw [h'.old hmid]
      exact h.new hge hmid
    · obtain ⟨names, base, hsuffix, hname⟩ := h'.new hlater hlt
      exact ⟨names, base, h.requested.trans hsuffix, hname⟩

/-- A change to a function that keeps its name. -/
theorem update {s : Lowerer} {func : FuncId} {change : IR.Function → IR.Function}
    (h : Named m s.code) (hname : ∀ g : IR.Function, (change g).name = g.name) :
    Named m (s.update func change).code := by
  refine h.trans ⟨by simp, List.suffix_refl _, ?_, ?_⟩
  · intro f hf
    by_cases heq : f = func
    · subst heq
      rw [Lowerer.function_update_self change hf, hname]
    · rw [Lowerer.function_update_ne change heq]
  · intro f hge hlt
    simp only [Lowerer.update_functions_length] at hlt
    exact absurd hlt (Nat.not_lt.mpr hge)

theorem emit {s : Lowerer} (h : Named m s.code) (c : Cursor) (op : Op) (ty : Ty)
    (name : Option String) : Named m (s.emit c op ty name).code :=
  h.update fun _ => rfl

theorem addBlock {s : Lowerer} (h : Named m s.code) (func : FuncId) (base : String) :
    Named m (s.addBlock func base).code :=
  h.update fun _ => rfl

theorem rename {s : Lowerer} (h : Named m s.code) (func : FuncId) (v : Value) (name : String) :
    Named m (s.rename func v name).code := by
  refine h.update ?_
  intro g
  cases v <;> rfl

theorem string (m : IR.Module) (name text : String) : Named m (m.addGlobalString name text).2 :=
  ⟨Nat.le_refl _, List.suffix_cons _ _, fun _ => rfl,
    fun hge hlt => absurd hlt (Nat.not_lt.mpr hge)⟩

theorem function (m : IR.Module) (name : String) (sig : IR.Signature) (linkage : IR.Linkage) :
    Named m (m.addFunction name sig linkage).2 where
  count := by simp
  requested := List.suffix_cons _ _
  old hf := by rw [IR.Module.function_addFunction_of_lt name sig linkage hf]
  new := by
    intro f hge hlt
    rw [IR.Module.addFunction_functions_length] at hlt
    obtain rfl : f = m.functions.length := Nat.le_antisymm (Nat.le_of_lt_succ hlt) hge
    refine ⟨m.names, name, List.suffix_refl _, ?_⟩
    rw [IR.Module.function_addFunction_self]
    rfl

theorem fork (s : Lowerer) (c : Cursor) (cond : Value) : Named s.code (s.fork c cond).code :=
  (((refl _).addBlock _ _).addBlock _ _).emit _ _ _ _

theorem openLoop (s : Lowerer) (c : Cursor) (start : Value) :
    Named s.code (s.openLoop c start).code := by
  have hjump : Named s.code ((s.jump c).enter (s.nextCursor c)).code := by
    rw [enter_code]
    exact ((refl _).addBlock _ _).emit _ _ _ _
  rw [Lowerer.openLoop, bindName_code]
  exact hjump.emit _ _ _ _

theorem closeLoop {s : Lowerer} (h : Named m s.code) (inside : Cursor) (counter next : InstId)
    (induction : String) (incoming : List (Value × BlockId)) (bound : Value) :
    Named m (s.closeLoop inside counter next induction incoming bound).code := by
  unfold Lowerer.closeLoop Lowerer.testLoop
  exact (((((h.emit _ _ _ _).rename _ _ _).rename _ _ _).addBlock _ _).emit _ _ _ _).update
    fun _ => rfl

theorem openFunction {s : Lowerer} (name : String) (params : List Param) (ret : Ty) :
    Named s.code (s.openFunction name params ret).code := by
  have hadd := Named.function s.code name (Lowerer.signature params ret) .internal
  rw [Lowerer.openFunction, bindParams_code]
  unfold Lowerer.enterEmpty Lowerer.addFunction Lowerer.declareFunction
  refine addBlock (update (by exact hadd) ?_) _ _
  intro g
  obtain ⟨names, hnames⟩ := foldl_setParamName params.zipIdx g
  rw [hnames]

end Named

/-- **A run only adds functions under new names.** -/
theorem Runs.named {s t : Lowerer} (h : Runs s t) : Named s.code t.code := by
  induction h with
  | refl s => exact .refl _
  | trans _ _ ih ih' => exact ih.trans ih'
  | string s name text => exact .string _ name text
  | error s _ => exact .refl _
  | plain _ _ _ => exact (Named.refl _).emit _ _ _ _
  | slot _ node ty name =>
    rw [Lowerer.declareVariable, bindName_code]
    exact (Named.refl _).emit _ _ _ _
  | branch _ _ _ _ ihthen ihelse =>
    rw [enter_code] at ihthen ihelse
    exact ((Named.fork _ _ _).trans ihthen).trans ihelse
  | branchBroken _ _ _ ihthen =>
    rw [enter_code] at ihthen
    exact (Named.fork _ _ _).trans ihthen
  | @loop s t u c start bound _ _ _ _ _ ihbody ihlimit =>
    have hbody : Named s.code t.code := (Named.openLoop s c start).trans ihbody
    have hnext : Named s.code (t.advance (s.nextCursor c) (s.counter c)).code := hbody.emit _ _ _ _
    have hclosed := (hnext.trans ihlimit).closeLoop (s.nextCursor c) (s.counter c)
      (t.body c).insts.length s.options.inductionName [(start, c.block)] bound
    exact Named.emit (s := Lowerer.leave _) hclosed _ _ _ _
  | loopBroken _ _ _ ihbody => exact (Named.openLoop _ _ _).trans ihbody
  | function name params ret _ ih => exact (Named.openFunction name params ret).trans ih

/-- Only the printing function of the system has its name. -/
theorem lowerProgram_name_ne {root : Program.Block} {options : Options} {l : Lowered}
    (h : lowerProgram root options = .ok l) {f : FuncId} (hge : 3 ≤ f)
    (hlt : f < l.code.functions.length) : (l.code.function f).name ≠ "printf" := by
  obtain ⟨t, hrun, hcode, -⟩ := lowerProgram_ok h
  have hnamed := hrun.named
  rw [hcode] at hnamed
  obtain ⟨names, base, hsuffix, hname⟩ := hnamed.new hge hlt
  have htaken : "printf" ∈ (start options).code.names.requested := by
    show "printf" ∈ [options.entryName, options.helperName, "new_line", "printf"]
    simp
  rw [hname]
  exact IR.NameSupply.next_ne (hsuffix.subset htaken) (by decide) base

end TreeCompiler.Lowering
