/-
What the code of a function is.

Making the code of a function is a walk with a record: which values there are and of what type,
which of them stand for the results of instructions, and in what order strings are used.  The record
only grows, so what is true of it when an instruction is made stays true (`Draft.Grows`).  That
allows to say what the finished code is without speaking of the walk.  An operand is at hand, or it
is a constant or a string that is fetched (`Fetches`).  The code of an instruction fetches the
operands from left to right and ends in one instruction of the same kind (`Emits`); a branch passes
what the phis of its targets have for the branching block.  The code of a block is that of its
instructions, in order (`EmitsBlock`), and its parameters are those of its phis.

`ensures_buildBlocks` says that this is what comes out, for every function whose blocks share its
instructions out among them and in every environment, if anything comes out at all.
-/
import Mathlib.Data.List.Forall2
import TreeCompiler.Proofs.Target.Routine

namespace TreeCompiler.Target

open IR (FuncId BlockId InstId GlobalId Ty Value Op)

/-! ### Steps that succeed -/

section Ensures

variable {σ α β : Type} {s t : σ} {a : α}

/-- If a step succeeds, `Q` holds of its result and of the state after it. -/
def Ensures (x : StateT σ (Except CodegenError) α) (s : σ) (Q : α → σ → Prop) : Prop :=
  ∀ a t, x.run s = .ok (a, t) → Q a t

namespace Ensures

variable {x : StateT σ (Except CodegenError) α} {Q R : α → σ → Prop}

theorem of_ok (hx : x.run s = .ok (a, t)) (hq : Q a t) : Ensures x s Q := by
  intro b u hb
  rw [hx] at hb
  cases hb
  exact hq

theorem of_error {e : CodegenError} (hx : x.run s = .error e) : Ensures x s Q := by
  intro b u hb
  rw [hx] at hb
  cases hb

theorem pure (h : Q a s) : Ensures (pure a) s Q := of_ok rfl h

theorem mono (h : Ensures x s Q) (hqr : ∀ a t, Q a t → R a t) : Ensures x s R :=
  fun a t hx => hqr a t (h a t hx)

theorem bind {k : α → StateT σ (Except CodegenError) β} {R : β → σ → Prop} (hx : Ensures x s Q)
    (hk : ∀ a t, Q a t → Ensures (k a) t R) : Ensures (x >>= k) s R := by
  intro b u hb
  rw [StateT.run_bind] at hb
  rcases hrun : x.run s with e | ⟨a, t⟩
  · rw [hrun] at hb
    cases hb
  · rw [hrun] at hb
    exact hk a t (hx a t hrun) b u hb

theorem get_bind {k : σ → StateT σ (Except CodegenError) α} (h : Ensures (k s) s Q) :
    Ensures (get >>= k) s Q := h

/-- A loop with results, after some of its items.  `I` is what holds then. -/
theorem mapM_from {k : α → StateT σ (Except CodegenError) β} {I : List α → List β → σ → Prop}
    (done xs : List α) (ys : List β)
    (hstep : ∀ before x after ys t, done ++ xs = before ++ x :: after → I before ys t →
      Ensures (k x) t fun y t' => I (before ++ [x]) (ys ++ [y]) t') (h : I done ys s) :
    Ensures (xs.mapM k) s fun zs t => I (done ++ xs) (ys ++ zs) t := by
  induction xs generalizing done ys s with
  | nil => exact .pure (by simpa using h)
  | cons x xs ih =>
    rw [List.mapM_cons]
    refine (hstep done x xs ys s rfl h).bind fun y t ht => ?_
    refine (ih (done ++ [x]) (ys ++ [y]) (by simpa using hstep) ht).bind fun zs u hu => ?_
    exact .pure (by simpa using hu)

theorem mapM {k : α → StateT σ (Except CodegenError) β} {I : List α → List β → σ → Prop}
    {xs : List α} (hstep : ∀ before x after ys t, xs = before ++ x :: after → I before ys t →
      Ensures (k x) t fun y t' => I (before ++ [x]) (ys ++ [y]) t') (h : I [] [] s) :
    Ensures (xs.mapM k) s fun ys t => I xs ys t :=
  mapM_from [] xs [] hstep h

/-- A loop without results. -/
theorem forM_from {k : α → StateT σ (Except CodegenError) PUnit} {I : List α → σ → Prop}
    (done xs : List α) (hstep : ∀ before x after t, done ++ xs = before ++ x :: after → I before t →
      Ensures (k x) t fun _ t' => I (before ++ [x]) t') (h : I done s) :
    Ensures (xs.forM k) s fun _ t => I (done ++ xs) t := by
  induction xs generalizing done s with
  | nil => exact .pure (by simpa using h)
  | cons x xs ih =>
    refine (hstep done x xs s rfl h).bind fun _ t ht => ?_
    exact (ih (done ++ [x]) (by simpa using hstep) ht).mono fun _ u hu => by simpa using hu

theorem forM {k : α → StateT σ (Except CodegenError) PUnit} {I : List α → σ → Prop} {xs : List α}
    (hstep : ∀ before x after t, xs = before ++ x :: after → I before t →
      Ensures (k x) t fun _ t' => I (before ++ [x]) t') (h : I [] s) :
    Ensures (xs.forM k) s fun _ t => I xs t :=
  forM_from [] xs hstep h

end Ensures

end Ensures

/-! ### The record -/

/-- What is recorded stays. -/
structure Draft.Grows (d d' : Draft) : Prop where
  types : d.types <+: d'.types
  strings : d.strings <+: d'.strings
  slots : d.slots <+: d'.slots
  results : d.results <:+ d'.results

/-- The record grows while `code` is added, but no result is bound. -/
structure Draft.Adds (d d' : Draft) (code : List Instr) : Prop where
  types : d.types <+: d'.types
  strings : d.strings <+: d'.strings
  slots : d.slots <+: d'.slots
  results : d'.results = d.results
  body : d'.body = d.body ++ code

/-- The values that operands refer to have been made. -/
structure Draft.Covers (d : Draft) (entry : List ValueId) : Prop where
  results : ∀ r ∈ d.results, r.2 < d.types.length
  entry : ∀ x ∈ entry, x < d.types.length

/-- A value of a type, or none if there is nothing to have one. -/
def Draft.Made (d : Draft) (x : Option ValueId) (ty : Option MachineTy) : Prop :=
  x.map (d.types[·]?) = ty.map some

/-- The types of values. -/
def Draft.Types (d : Draft) (xs : List ValueId) (tys : List MachineTy) : Prop :=
  List.Forall₂ (fun x ty => d.types[x]? = some ty) xs tys

namespace Draft

variable {d d' d'' : Draft} {code code' : List Instr} {entry : List ValueId}

theorem getElem?_of_prefix {α : Type} {xs ys : List α} {n : Nat} {a : α} (h : xs <+: ys)
    (hn : xs[n]? = some a) : ys[n]? = some a := by
  obtain ⟨rest, rfl⟩ := h
  rw [List.getElem?_append_left (List.getElem?_eq_some_iff.mp hn).1]
  exact hn

/-- A value that was made has a type. -/
theorem made_some_iff {x : ValueId} {ty : Option MachineTy} :
    d.Made (some x) ty ↔ ∃ mty, ty = some mty ∧ d.types[x]? = some mty := by
  cases ty with
  | none => simp [Made]
  | some ty => simp [Made, eq_comm]

namespace Grows

theorem refl (d : Draft) : d.Grows d :=
  ⟨List.prefix_refl _, List.prefix_refl _, List.prefix_refl _, List.suffix_refl _⟩

theorem trans (h : d.Grows d') (h' : d'.Grows d'') : d.Grows d'' :=
  ⟨h.types.trans h'.types, h.strings.trans h'.strings, h.slots.trans h'.slots,
    h.results.trans h'.results⟩

theorem type (h : d.Grows d') {x : ValueId} {ty : MachineTy} (hx : d.types[x]? = some ty) :
    d'.types[x]? = some ty :=
  getElem?_of_prefix h.types hx

theorem made (h : d.Grows d') {x : Option ValueId} {ty : Option MachineTy} (hx : d.Made x ty) :
    d'.Made x ty := by
  unfold Made at hx ⊢
  cases x with
  | none => exact hx
  | some x =>
    cases ty with
    | none => cases hx
    | some ty => exact congrArg some (h.type (Option.some.inj hx))

end Grows

namespace Adds

theorem refl (d : Draft) : d.Adds d [] :=
  ⟨List.prefix_refl _, List.prefix_refl _, List.prefix_refl _, rfl, (List.append_nil _).symm⟩

theorem grows (h : d.Adds d' code) : d.Grows d' :=
  ⟨h.types, h.strings, h.slots, h.results ▸ List.suffix_refl _⟩

theorem trans (h : d.Adds d' code) (h' : d'.Adds d'' code') : d.Adds d'' (code ++ code') :=
  ⟨h.types.trans h'.types, h.strings.trans h'.strings, h.slots.trans h'.slots,
    h'.results.trans h.results, by rw [h'.body, h.body, List.append_assoc]⟩

theorem covers (h : d.Adds d' code) (hc : d.Covers entry) : d'.Covers entry where
  results r hr := Nat.lt_of_lt_of_le (hc.results r (h.results ▸ hr)) h.types.length_le
  entry x hx := Nat.lt_of_lt_of_le (hc.entry x hx) h.types.length_le

/-- A value is made and used at once. -/
theorem make (d : Draft) (ty : MachineTy) (i : Instr) :
    d.Adds { d with types := d.types ++ [ty], body := d.body ++ [i] } [i] :=
  ⟨List.prefix_append _ _, List.prefix_refl _, List.prefix_refl _, rfl, rfl⟩

theorem append (d : Draft) (i : Instr) : d.Adds { d with body := d.body ++ [i] } [i] :=
  ⟨List.prefix_refl _, List.prefix_refl _, List.prefix_refl _, rfl, rfl⟩

end Adds

end Draft

section Code

variable {env : Environment} {f : IR.Function} {d d' d₀ : Draft} {entry : List ValueId}
  {b source : BlockId} {v : Value} {x : ValueId} {code : List Instr}

/-! ### Operands -/

/-- `code` puts operand `v` at hand as the value `x`. -/
inductive Fetches (d : Draft) (entry : List ValueId) : Value → ValueId → List Instr → Prop
  | int {n : Int64} {x : ValueId} (hx : d.types[x]? = some .i64) :
      Fetches d entry (.const (.int n)) x [.iconst x n]
  | float {c : Double} {x : ValueId} (hx : d.types[x]? = some .f64) :
      Fetches d entry (.const (.float c)) x [.f64const x c]
  | param {i : Nat} {x : ValueId} (hx : entry[i]? = some x) (hlt : x < d.types.length) :
      Fetches d entry (.param i) x []
  | global {id : GlobalId} {n : Nat} {x : ValueId} (hn : d.strings[n]? = some id)
      (hx : d.types[x]? = some .pointer) : Fetches d entry (.global id) x [.globalValue x n]
  | inst {k : InstId} {x : ValueId} (hx : (k, x) ∈ d.results) (hlt : x < d.types.length) :
      Fetches d entry (.inst k) x []

/-- The same for operands from left to right. -/
inductive FetchesAll (d : Draft) (entry : List ValueId) :
    List Value → List ValueId → List Instr → Prop
  | nil : FetchesAll d entry [] [] []
  | cons {v : Value} {vs : List Value} {x : ValueId} {xs : List ValueId} {code rest : List Instr}
      (h : Fetches d entry v x code) (hrest : FetchesAll d entry vs xs rest) :
      FetchesAll d entry (v :: vs) (x :: xs) (code ++ rest)

theorem Fetches.mono (h : Fetches d entry v x code) (hd : d.Grows d') :
    Fetches d' entry v x code := by
  have hle := hd.types.length_le
  cases h with
  | int hx => exact .int (hd.type hx)
  | float hx => exact .float (hd.type hx)
  | param hx hlt => exact .param hx (Nat.lt_of_lt_of_le hlt hle)
  | global hn hx => exact .global (Draft.getElem?_of_prefix hd.strings hn) (hd.type hx)
  | inst hx hlt => exact .inst (hd.results.subset hx) (Nat.lt_of_lt_of_le hlt hle)

theorem FetchesAll.mono {vs : List Value} {xs : List ValueId} (h : FetchesAll d entry vs xs code)
    (hd : d.Grows d') : FetchesAll d' entry vs xs code := by
  induction h with
  | nil => exact .nil
  | cons h _ ih => exact .cons (h.mono hd) ih

/-- A value that has been fetched has a type. -/
theorem Fetches.exists_type (h : Fetches d entry v x code) : ∃ ty, d.types[x]? = some ty := by
  cases h with
  | int hx => exact ⟨_, hx⟩
  | float hx => exact ⟨_, hx⟩
  | param hx hlt => exact ⟨_, List.getElem?_eq_getElem hlt⟩
  | global hn hx => exact ⟨_, hx⟩
  | inst hx hlt => exact ⟨_, List.getElem?_eq_getElem hlt⟩

theorem ensures_stringNumber (d : Draft) (id : GlobalId) :
    Ensures (stringNumber id) d fun n d' => d.Adds d' [] ∧ d'.strings[n]? = some id := by
  unfold stringNumber
  refine .get_bind ?_
  dsimp only
  split
  · rename_i n hn
    obtain ⟨hlt, hid, -⟩ := List.findIdx?_eq_some_iff_getElem.mp hn
    refine .pure ⟨.refl d, ?_⟩
    rw [List.getElem?_eq_getElem hlt]
    simpa using hid
  · refine .of_ok rfl ⟨⟨List.prefix_refl _, List.prefix_append _ _, List.prefix_refl _,
      rfl, ?_⟩, ?_⟩
    · simp
    · simp

/-- A value that has just been made. -/
theorem getElem?_types_make (types : List MachineTy) (ty : MachineTy) :
    (types ++ [ty])[types.length]? = some ty := by simp

theorem ensures_operand (hc : d.Covers entry) (v : Value) :
    Ensures (operand env entry v) d fun x d' => ∃ code, d.Adds d' code ∧
      Fetches d' entry v x code := by
  cases v with
  | const c =>
    cases c with
    | int n => exact .of_ok rfl ⟨_, .make d _ _, .int (getElem?_types_make _ _)⟩
    | float c => exact .of_ok rfl ⟨_, .make d _ _, .float (getElem?_types_make _ _)⟩
  | param i =>
    unfold operand
    dsimp only
    split
    · rename_i x hx
      exact .pure ⟨[], .refl d, .param hx (hc.entry x (List.mem_of_getElem? hx))⟩
    · exact .of_error rfl
  | global id =>
    unfold operand
    dsimp only
    split
    · refine (ensures_stringNumber d id).bind ?_
      rintro n d' ⟨hadds, hn⟩
      exact .of_ok rfl ⟨_, hadds.trans (.make d' _ _), .global hn (getElem?_types_make _ _)⟩
    · exact .of_error rfl
  | inst k =>
    refine .get_bind ?_
    split
    · rename_i x hx
      obtain ⟨front, back, happ, -⟩ := List.lookup_eq_some_iff.mp hx
      have hmem : (k, x) ∈ d.results := by simp [happ]
      exact .pure ⟨[], .refl d, .inst hmem (hc.results _ hmem)⟩
    · exact .of_error rfl

/-- A loop that fetches one operand for each of its items. -/
theorem ensures_fetchAll {α : Type} {G : α → Value → Prop} {k : α → RoutineM ValueId}
    (items : List α)
    (hk : ∀ item ∈ items, ∀ d : Draft, d.Covers entry → Ensures (k item) d fun x d' =>
      ∃ v code, G item v ∧ d.Adds d' code ∧ Fetches d' entry v x code) (hc : d.Covers entry) :
    Ensures (items.mapM k) d fun xs d' =>
      ∃ vs code, List.Forall₂ G items vs ∧ d.Adds d' code ∧ FetchesAll d' entry vs xs code := by
  induction items generalizing d with
  | nil => exact .pure ⟨[], [], .nil, .refl d, .nil⟩
  | cons item rest ih =>
    rw [List.mapM_cons]
    refine (hk item (by simp) d hc).bind ?_
    rintro x d₁ ⟨v, code, hv, hadds, hfetch⟩
    refine (ih (fun i hi => hk i (by simp [hi])) (hadds.covers hc)).bind ?_
    rintro xs d₂ ⟨vs, code', hvs, hadds', hfetch'⟩
    exact .pure ⟨v :: vs, code ++ code', .cons hv hvs, hadds.trans hadds',
      .cons (hfetch.mono hadds'.grows) hfetch'⟩

theorem ensures_operands (hc : d.Covers entry) (vs : List Value) :
    Ensures (vs.mapM (operand env entry)) d fun xs d' =>
      ∃ code, d.Adds d' code ∧ FetchesAll d' entry vs xs code := by
  refine (ensures_fetchAll (G := fun v w => v = w) vs ?_ hc).mono ?_
  · intro v _ d hc
    refine (ensures_operand hc v).mono ?_
    rintro x d' ⟨code, hadds, hfetch⟩
    exact ⟨v, code, rfl, hadds, hfetch⟩
  · rintro xs d' ⟨ws, code, hws, hadds, hfetch⟩
    obtain rfl : vs = ws := by rwa [List.forall₂_eq_eq_eq] at hws
    exact ⟨code, hadds, hfetch⟩

/-- One operand. -/
theorem ensures_one_operand (hc : d.Covers entry) (v : Value) :
    Ensures (operand env entry v) d fun x d' => ∃ code, d.Adds d' code ∧
      FetchesAll d' entry [v] [x] code := by
  refine (ensures_operand hc v).mono ?_
  rintro x d' ⟨code, hadds, hfetch⟩
  have hall := FetchesAll.cons hfetch .nil
  rw [List.append_nil] at hall
  exact ⟨code, hadds, hall⟩

/-- Two operands, and then the rest of a step. -/
theorem ensures_two_operands (hc : d.Covers entry) (v w : Value) {α : Type} {Q : α → Draft → Prop}
    {k : ValueId → ValueId → RoutineM α}
    (hk : ∀ x y d' code, d.Adds d' code → FetchesAll d' entry [v, w] [x, y] code →
      Ensures (k x y) d' Q) :
    Ensures (operand env entry v >>= fun x => operand env entry w >>= k x) d Q := by
  refine (ensures_operand hc v).bind ?_
  rintro x d₁ ⟨code, hadds, hfetch⟩
  refine (ensures_operand (hadds.covers hc) w).bind ?_
  rintro y d₂ ⟨code', hadds', hfetch'⟩
  have hall := FetchesAll.cons (hfetch.mono hadds'.grows) (.cons hfetch' .nil)
  rw [List.append_nil] at hall
  exact hk x y d₂ _ (hadds.trans hadds') hall

/-- The inputs that the phis at the head of `target` have for `source`. -/
def Inputs (f : IR.Function) (source target : BlockId) (vs : List Value) : Prop :=
  List.Forall₂ (fun phi v => (phiInputs phi.2.op).find? (·.2 = source) = some (v, source))
    (leadingPhis f target) vs

theorem ensures_edgeArgs (hc : d.Covers entry) (source target : BlockId) :
    Ensures (edgeArgs env f entry source target) d fun xs d' =>
      ∃ vs code, Inputs f source target vs ∧ d.Adds d' code ∧ FetchesAll d' entry vs xs code := by
  refine ensures_fetchAll _ ?_ hc
  rintro ⟨k, i⟩ - d hc
  dsimp only
  split
  · rename_i v p hfind
    obtain rfl : p = source := by simpa using List.find?_some hfind
    refine (ensures_operand hc v).mono ?_
    rintro x d' ⟨code, hadds, hfetch⟩
    exact ⟨v, code, hfind, hadds, hfetch⟩
  · exact .of_error rfl

/-! ### Instructions -/

/-- `code` is the code of an instruction of block `source`, and `dst` stands for its result.  Phis
have their values from the start. -/
inductive Emits (env : Environment) (f : IR.Function) (d : Draft) (entry : List ValueId)
    (source : BlockId) :
    IR.Inst → Option ValueId → List Instr → Prop
  | alloca {i : IR.Inst} {ty : Ty} {dst : ValueId} {slot : Nat} (hop : i.op = .alloca ty)
      (hslot : d.slots[slot]? = some ty) (hdst : d.Made (some dst) (some .pointer)) :
      Emits env f d entry source i (some dst) [.stackAddr dst slot]
  | load {i : IR.Inst} {ty : Ty} {ptr : Value} {mty : MachineTy} {dst addr : ValueId}
      {code : List Instr} (hop : i.op = .load ty ptr) (hty : MachineTy.ofTy? ty = some mty)
      (haddr : FetchesAll d entry [ptr] [addr] code) (hdst : d.Made (some dst) (some mty)) :
      Emits env f d entry source i (some dst) (code ++ [.load dst mty addr])
  | store {i : IR.Inst} {value ptr : Value} {volatile : Bool} {x addr : ValueId} {code : List Instr}
      (hop : i.op = .store value ptr volatile)
      (hargs : FetchesAll d entry [value, ptr] [x, addr] code) :
      Emits env f d entry source i none (code ++ [.store x addr])
  | arith {i : IR.Inst} {op : IR.Arith} {lhs rhs : Value} {ty : MachineTy} {dst x y : ValueId}
      {code : List Instr} (hop : i.op = .arith op lhs rhs)
      (hargs : FetchesAll d entry [lhs, rhs] [x, y] code) (hx : d.types[x]? = some ty)
      (hdst : d.Made (some dst) (some ty)) :
      Emits env f d entry source i (some dst) (code ++ [.arith dst op x y])
  | fcmp {i : IR.Inst} {pred : IR.Compare} {lhs rhs : Value} {dst x y : ValueId} {code : List Instr}
      (hop : i.op = .fcmp pred lhs rhs) (hargs : FetchesAll d entry [lhs, rhs] [x, y] code)
      (hdst : d.Made (some dst) (some .i8)) :
      Emits env f d entry source i (some dst) (code ++ [.fcmp dst pred x y])
  | call {i : IR.Inst} {callee : FuncId} {args : List Value} {number : FunctionNumber}
      {sig : CodeSig} {dst : Option ValueId} {xs : List ValueId} {code : List Instr}
      (hop : i.op = .call callee args) (hcallee : env.callees.lookup callee = some (number, sig))
      (hfixed : (env.code.function callee).sig.variadic = false)
      (hargs : FetchesAll d entry args xs code) (hdst : d.Made dst sig.ret) :
      Emits env f d entry source i dst (code ++ [.call dst number xs])
  | callIndirect {i : IR.Inst} {callee : FuncId} {args : List Value} {number : FunctionNumber}
      {sig : CodeSig} {params : List MachineTy} {dst : Option ValueId} {addr : ValueId}
      {xs : List ValueId} {code : List Instr} (hop : i.op = .call callee args)
      (hcallee : env.callees.lookup callee = some (number, sig))
      (hvariadic : (env.code.function callee).sig.variadic = true)
      (hargs : FetchesAll d entry args xs code) (hparams : d.Types xs params)
      (haddr : d.Made (some addr) (some .pointer)) (hdst : d.Made dst (MachineTy.ofTy? i.ty)) :
      Emits env f d entry source i dst (code ++
        [.funcAddr addr number, .callIndirect dst ⟨params, MachineTy.ofTy? i.ty, env.conv⟩ addr xs])
  | phi {i : IR.Inst} {incoming : List (Value × BlockId)} (hop : i.op = .phi incoming) :
      Emits env f d entry source i none []
  | ret {i : IR.Inst} {value : Option Value} {x : Option ValueId} {code : List Instr}
      (hop : i.op = .ret value) (hvalue : FetchesAll d entry value.toList x.toList code) :
      Emits env f d entry source i none (code ++ [.ret x])
  | br {i : IR.Inst} {target : BlockId} {vs : List Value} {xs : List ValueId} {code : List Instr}
      (hop : i.op = .br target) (hinputs : Inputs f source target vs)
      (hargs : FetchesAll d entry vs xs code) :
      Emits env f d entry source i none (code ++ [.jump target xs])
  | condBr {i : IR.Inst} {cond : Value} {thenBlock elseBlock : BlockId} {vs ws : List Value}
      {x : ValueId} {xs ys : List ValueId} {code code' code'' : List Instr}
      (hop : i.op = .condBr cond thenBlock elseBlock) (hcond : FetchesAll d entry [cond] [x] code)
      (hthen : Inputs f source thenBlock vs) (hthenArgs : FetchesAll d entry vs xs code')
      (helse : Inputs f source elseBlock ws) (helseArgs : FetchesAll d entry ws ys code'') :
      Emits env f d entry source i none
        (code ++ code' ++ code'' ++ [.brif x thenBlock xs elseBlock ys])

/-- What stands for a result has a type. -/
theorem Emits.made {i : IR.Inst} {dst : ValueId}
    (h : Emits env f d entry source i (some dst) code) :
    ∃ ty, d.types[dst]? = some ty := by
  have hmade {ty : Option MachineTy} (hdst : d.Made (some dst) ty) :
      ∃ mty, d.types[dst]? = some mty := by
    obtain ⟨mty, -, hmty⟩ := Draft.made_some_iff.mp hdst
    exact ⟨mty, hmty⟩
  cases h with
  | alloca hop hslot hdst => exact hmade hdst
  | load hop hty haddr hdst => exact hmade hdst
  | arith hop hargs hx hdst => exact hmade hdst
  | fcmp hop hargs hdst => exact hmade hdst
  | call hop hcallee hfixed hargs hdst => exact hmade hdst
  | callIndirect hop hcallee hvariadic hargs hparams haddr hdst => exact hmade hdst

theorem Emits.mono {i : IR.Inst} {dst : Option ValueId} (h : Emits env f d entry source i dst code)
    (hd : d.Grows d') : Emits env f d' entry source i dst code := by
  cases h with
  | alloca hop hslot hdst =>
    exact .alloca hop (Draft.getElem?_of_prefix hd.slots hslot) (hd.made hdst)
  | load hop hty haddr hdst => exact .load hop hty (haddr.mono hd) (hd.made hdst)
  | store hop hargs => exact .store hop (hargs.mono hd)
  | arith hop hargs hx hdst => exact .arith hop (hargs.mono hd) (hd.type hx) (hd.made hdst)
  | fcmp hop hargs hdst => exact .fcmp hop (hargs.mono hd) (hd.made hdst)
  | call hop hcallee hfixed hargs hdst =>
    exact .call hop hcallee hfixed (hargs.mono hd) (hd.made hdst)
  | callIndirect hop hcallee hvariadic hargs hparams haddr hdst =>
    exact .callIndirect hop hcallee hvariadic (hargs.mono hd) (hparams.imp fun _ _ hx => hd.type hx)
      (hd.made haddr) (hd.made hdst)
  | phi hop => exact .phi hop
  | ret hop hvalue => exact .ret hop (hvalue.mono hd)
  | br hop hinputs hargs => exact .br hop hinputs (hargs.mono hd)
  | condBr hop hcond hthen hthenArgs helse helseArgs =>
    exact .condBr hop (hcond.mono hd) hthen (hthenArgs.mono hd) helse (helseArgs.mono hd)

theorem ensures_typeOf {ty : MachineTy} (hx : d.types[x]? = some ty) :
    Ensures (typeOf x) d fun a d' => a = ty ∧ d' = d :=
  .of_ok rfl ⟨by rw [hx]; rfl, rfl⟩

/-- The types of values that have been fetched. -/
theorem ensures_typesOf {vs : List Value} {xs : List ValueId} (h : FetchesAll d entry vs xs code) :
    Ensures (xs.mapM typeOf) d fun tys d' => d' = d ∧ d.Types xs tys := by
  induction h with
  | nil => exact .pure ⟨rfl, .nil⟩
  | @cons v vs x xs code rest h _ ih =>
    obtain ⟨ty, hty⟩ := h.exists_type
    rw [List.mapM_cons]
    refine (ensures_typeOf hty).bind ?_
    rintro _ _ ⟨rfl, rfl⟩
    refine ih.bind ?_
    rintro tys _ ⟨rfl, htys⟩
    exact .pure ⟨rfl, .cons hty htys⟩

/-- An instruction with a result, if its type is one that values have. -/
theorem ensures_result (d : Draft) (ty : Option MachineTy) (i : Option ValueId → Instr) :
    Ensures (do
      let dst ← ty.mapM newValue
      append (i dst)
      return dst) d fun dst d' => d.Adds d' [i dst] ∧ d'.Made dst ty := by
  cases ty with
  | none => exact .of_ok rfl ⟨.append d _, rfl⟩
  | some ty => exact .of_ok rfl ⟨.make d _ _, congrArg some (getElem?_types_make _ _)⟩

theorem ensures_buildCall {i : IR.Inst} {callee : FuncId} {args : List Value} {xs : List ValueId}
    (hop : i.op = .call callee args) (hadds : d₀.Adds d code)
    (hargs : FetchesAll d entry args xs code) :
    Ensures (buildCall env callee i.ty xs) d fun dst d' =>
      ∃ code, d₀.Adds d' code ∧ Emits env f d' entry source i dst code := by
  unfold buildCall
  dsimp only
  split
  · exact .of_error rfl
  · rename_i number sig hcallee
    split
    · rename_i hvariadic
      refine (ensures_typesOf hargs).bind ?_
      rintro params _ ⟨hsame, hparams⟩
      rw [hsame]
      refine Ensures.bind (Q := fun addr d' => d.Adds d' [.funcAddr addr number] ∧
        d'.Made (some addr) (some .pointer)) (.of_ok rfl ⟨.make d _ _,
          congrArg some (getElem?_types_make _ _)⟩) ?_
      rintro addr d₁ ⟨haddr, haddrTy⟩
      refine (ensures_result d₁ (MachineTy.ofTy? i.ty) _).mono ?_
      rintro dst d₂ ⟨hcall, hdst⟩
      have hgrows := haddr.grows.trans hcall.grows
      exact ⟨_, hadds.trans (haddr.trans hcall),
        .callIndirect hop hcallee hvariadic (hargs.mono hgrows)
        (hparams.imp fun _ _ hx => hgrows.type hx) (hcall.grows.made haddrTy) hdst⟩
    · rename_i hfixed
      refine (ensures_result d sig.ret _).mono ?_
      rintro dst d₁ ⟨hcall, hdst⟩
      exact ⟨_, hadds.trans hcall,
        .call hop hcallee (by simpa using hfixed) (hargs.mono hcall.grows) hdst⟩

/-- The last instruction of the code, after its operands. -/
theorem ensures_append (hadds : d₀.Adds d code) (i : Instr) {Q : Option ValueId → Draft → Prop}
    (hq : ∀ d', d₀.Adds d' (code ++ [i]) → d.Grows d' → Q none d') :
    Ensures (do append i; return none) d Q :=
  .of_ok rfl (hq _ (hadds.trans (.append d i)) (Draft.Adds.append d i).grows)

/-- The same for one that makes a value. -/
theorem ensures_make (hadds : d₀.Adds d code) (ty : MachineTy) (i : ValueId → Instr)
    {Q : Option ValueId → Draft → Prop}
    (hq : ∀ dst d', d₀.Adds d' (code ++ [i dst]) → d.Grows d' → d'.Made (some dst) (some ty) →
      Q (some dst) d') : Ensures (some <$> make ty i) d Q :=
  .of_ok rfl (hq _ _ (hadds.trans (.make d ty _)) (Draft.Adds.make d ty (i d.types.length)).grows
    (congrArg some (getElem?_types_make _ _)))

theorem ensures_checkBlockExists {b : BlockId} {α : Type} {k : RoutineM α} {Q : α → Draft → Prop}
    (hk : Ensures k d Q) : Ensures (checkBlockExists f b >>= fun _ => k) d Q := by
  refine Ensures.bind (Q := fun _ d' => d' = d) ?_ (by rintro _ _ rfl; exact hk)
  unfold checkBlockExists
  split
  · exact .pure rfl
  · exact .of_error rfl

theorem ensures_nonVoid (d : Draft) (ty : Ty) (u : Unsupported) :
    Ensures (nonVoid ty u) d fun mty d' => d' = d ∧ MachineTy.ofTy? ty = some mty := by
  unfold nonVoid
  split
  · rename_i mty hty
    exact .pure ⟨rfl, hty⟩
  · exact .of_error rfl

/-- **The code of an instruction.** -/
theorem ensures_buildInst (hc : d.Covers entry) (source : BlockId) (i : IR.Inst) :
    Ensures (buildInst env f entry source i) d fun dst d' =>
      ∃ code, d.Adds d' code ∧ Emits env f d' entry source i dst code := by
  unfold buildInst
  cases hop : i.op with
  | alloca ty =>
    refine .of_ok rfl ⟨_, ⟨List.prefix_append _ _, List.prefix_refl _,
      List.prefix_append _ _, rfl, rfl⟩, .alloca hop ?_ (congrArg some (getElem?_types_make _ _))⟩
    simp
  | load ty ptr =>
    refine (ensures_nonVoid d ty _).bind ?_
    rintro mty _ ⟨hsame, hty⟩
    rw [hsame]
    refine (ensures_one_operand hc ptr).bind ?_
    rintro addr d₁ ⟨code, hadds, haddr⟩
    refine ensures_make hadds _ _ fun dst d₂ hadds' hgrows hdst => ?_
    exact ⟨_, hadds', .load hop hty (haddr.mono hgrows) hdst⟩
  | store value ptr volatile =>
    refine ensures_two_operands hc value ptr fun x addr d₁ code hadds hargs => ?_
    refine ensures_append hadds _ fun d₂ hadds' hgrows => ?_
    exact ⟨_, hadds', .store hop (hargs.mono hgrows)⟩
  | arith op lhs rhs =>
    refine ensures_two_operands hc lhs rhs fun x y d₁ code hadds hargs => ?_
    obtain ⟨ty, hty⟩ : ∃ ty, d₁.types[x]? = some ty := by
      cases hargs with
      | cons hlhs _ => exact hlhs.exists_type
    refine (ensures_typeOf hty).bind ?_
    rintro _ _ ⟨rfl, rfl⟩
    refine ensures_make hadds _ _ fun dst d₂ hadds' hgrows hdst => ?_
    exact ⟨_, hadds', .arith hop (hargs.mono hgrows) (hgrows.type hty) hdst⟩
  | fcmp pred lhs rhs =>
    refine ensures_two_operands hc lhs rhs fun x y d₁ code hadds hargs => ?_
    refine ensures_make hadds _ _ fun dst d₂ hadds' hgrows hdst => ?_
    exact ⟨_, hadds', .fcmp hop (hargs.mono hgrows) hdst⟩
  | call callee args =>
    refine (ensures_operands hc args).bind ?_
    rintro xs d₁ ⟨code, hadds, hargs⟩
    exact ensures_buildCall hop hadds hargs
  | phi incoming => exact .pure ⟨[], .refl d, .phi hop⟩
  | ret value =>
    cases value with
    | none =>
      refine ensures_append (.refl d) _ fun d₁ hadds _ => ?_
      exact ⟨_, hadds, .ret (x := none) hop .nil⟩
    | some value =>
      refine (ensures_one_operand hc value).bind ?_
      rintro x d₁ ⟨code, hadds, hvalue⟩
      refine ensures_append hadds _ fun d₂ hadds' hgrows => ?_
      exact ⟨_, hadds', .ret (x := some x) hop (hvalue.mono hgrows)⟩
  | br target =>
    refine (ensures_edgeArgs hc source target).bind ?_
    rintro xs d₁ ⟨vs, code, hinputs, hadds, hargs⟩
    refine ensures_checkBlockExists ?_
    refine ensures_append hadds _ fun d₂ hadds' hgrows => ?_
    exact ⟨_, hadds', .br hop hinputs (hargs.mono hgrows)⟩
  | condBr cond thenBlock elseBlock =>
    refine (ensures_one_operand hc cond).bind ?_
    rintro x d₁ ⟨code, hadds, hcond⟩
    have hc₁ := hadds.covers hc
    refine (ensures_edgeArgs hc₁ source thenBlock).bind ?_
    rintro xs d₂ ⟨vs, code', hthen, hadds', hthenArgs⟩
    refine (ensures_edgeArgs (hadds'.covers hc₁) source elseBlock).bind ?_
    rintro ys d₃ ⟨ws, code'', helse, hadds'', helseArgs⟩
    refine ensures_checkBlockExists (ensures_checkBlockExists ?_)
    refine ensures_append ((hadds.trans hadds').trans hadds'') _ fun d₄ hall hgrows => ?_
    have hthen₃ := hadds''.grows.trans hgrows
    exact ⟨_, hall, .condBr hop (hcond.mono (hadds'.grows.trans hthen₃)) hthen
      (hthenArgs.mono hthen₃) helse
      (helseArgs.mono hgrows)⟩

end Code

/-! ### Blocks -/

section Blocks

variable {env : Environment} {f : IR.Function} {d d' : Draft} {entry : List ValueId} {b : BlockId}
  {before after : List (InstId × IR.Inst)} {k : InstId} {i : IR.Inst}

/-- The code of the instructions `insts` of block `b`, one piece for each, with their results
recorded. -/
def EmitsInsts (env : Environment) (f : IR.Function) (d : Draft) (entry : List ValueId)
    (b : BlockId) (insts : List (InstId × IR.Inst)) (codes : List (List Instr)) : Prop :=
  List.Forall₂ (fun inst code => ∃ dst, Emits env f d entry b inst.2 dst code ∧
    ∀ x ∈ dst, (inst.1, x) ∈ d.results) insts codes

/-- `body` is the code of block `b`. -/
def EmitsBlock (env : Environment) (f : IR.Function) (d : Draft) (entry : List ValueId)
    (b : BlockId) (body : List Instr) : Prop :=
  ∃ codes, body = codes.flatten ∧ EmitsInsts env f d entry b (f.blockInsts b) codes

theorem EmitsInsts.mono {insts : List (InstId × IR.Inst)} {codes : List (List Instr)}
    (h : EmitsInsts env f d entry b insts codes) (hd : d.Grows d') :
    EmitsInsts env f d' entry b insts codes := by
  refine h.imp ?_
  rintro inst code ⟨dst, hemits, hresult⟩
  exact ⟨dst, hemits.mono hd, fun x hx => hd.results.subset (hresult x hx)⟩

theorem EmitsBlock.mono {body : List Instr} (h : EmitsBlock env f d entry b body)
    (hd : d.Grows d') :
    EmitsBlock env f d' entry b body := by
  obtain ⟨codes, hbody, hcodes⟩ := h
  exact ⟨codes, hbody, hcodes.mono hd⟩

/-- Why a value stands for the result of an instruction: it was made for a phi, or by the code of
the instruction. -/
def Bound (env : Environment) (f : IR.Function) (d : Draft) (entry : List ValueId)
    (r : InstId × ValueId) :
    Prop :=
  ∃ i, f.insts[r.1]? = some i ∧
    (i.op.isPhi = true ∧ d.Made (some r.2) (MachineTy.ofTy? i.ty) ∨
      ∃ b code, Emits env f d entry b i (some r.2) code)

theorem Bound.mono {r : InstId × ValueId} (h : Bound env f d entry r) (hd : d.Grows d') :
    Bound env f d' entry r := by
  obtain ⟨i, hi, ⟨hphi, hmade⟩ | ⟨b, code, hemits⟩⟩ := h
  · exact ⟨i, hi, .inl ⟨hphi, hd.made hmade⟩⟩
  · exact ⟨i, hi, .inr ⟨b, code, hemits.mono hd⟩⟩

/-- The results of the instructions that were made, each bound once and for a reason. -/
structure Recorded (env : Environment) (f : IR.Function) (entry : List ValueId) (p : Place)
    (d : Draft) :
    Prop where
  covers : d.Covers entry
  made : ∀ r ∈ d.results, p.Made f r.1
  distinct : (d.results.map (·.1)).Nodup
  bound : ∀ r ∈ d.results, Bound env f d entry r

/-- An instruction comes up once: not in an earlier block, and not before in its own. -/
theorem not_passed (hplace : f.Placement) (hsplit : f.blockInsts b = before ++ (k, i) :: after) :
    ¬ (i.block < b ∨ k ∈ before.map (·.1)) := by
  have hblock : i.block = b :=
    ((hplace.mem_blockInsts (b := b) (e := (k, i))).mp (by simp [hsplit])).2
  rintro (hlt | hmem)
  · exact absurd hblock (Nat.ne_of_lt hlt)
  · have hids := hplace.increasing b
    rw [← hplace.map_blockInsts, hsplit, List.map_append, List.map_cons] at hids
    exact absurd ((List.pairwise_append.mp hids).2.2 k hmem k (by simp)) (Nat.lt_irrefl k)

/-- An instruction that is to be made has not been made. -/
theorem not_made (hplace : f.Placement) (hsplit : f.blockInsts b = before ++ (k, i) :: after)
    (hphi : i.op.isPhi = false) : ¬ Place.Made ⟨b, before⟩ f k := by
  have hi : f.insts[k]? = some i :=
    ((hplace.mem_blockInsts (b := b) (e := (k, i))).mp (by simp [hsplit])).1
  rintro ⟨i', hi', hwhere⟩
  obtain rfl := Option.some.inj (hi.symm.trans hi')
  rcases hwhere with h | hpassed
  · rw [hphi] at h
    cases h
  · exact not_passed hplace hsplit hpassed

theorem Place.Made.snoc {j : InstId} (h : Place.Made ⟨b, before⟩ f j) (inst : InstId × IR.Inst) :
    Place.Made ⟨b, before ++ [inst]⟩ f j := by
  obtain ⟨i, hi, hwhere⟩ := h
  refine ⟨i, hi, ?_⟩
  simp only [List.map_append, List.mem_append]
  tauto

/-- The code of an instruction is made and its result, if it has one, is bound. -/
theorem ensures_bindResult (hplace : f.Placement)
    (hsplit : f.blockInsts b = before ++ (k, i) :: after) {d₀ : Draft} {dst : Option ValueId}
    {code : List Instr} (h : Recorded env f entry ⟨b, before⟩ d₀) (hadds : d₀.Adds d code)
    (hemits : Emits env f d entry b i dst code) :
    Ensures (match dst with
      | some v => bindResult k v
      | none => return) d fun _ d' => d.Grows d' ∧ d'.body = d.body ∧
        Recorded env f entry ⟨b, before ++ [(k, i)]⟩ d' ∧ ∀ x ∈ dst, (k, x) ∈ d'.results := by
  have hi := ((hplace.mem_blockInsts (b := b) (e := (k, i))).mp (by simp [hsplit])).1
  have hcovers := hadds.covers h.covers
  have hmade : ∀ r ∈ d.results, Place.Made ⟨b, before ++ [(k, i)]⟩ f r.1 :=
    fun r hr => (h.made r (hadds.results ▸ hr)).snoc _
  have hbound : ∀ r ∈ d.results, Bound env f d entry r :=
    fun r hr => (h.bound r (hadds.results ▸ hr)).mono hadds.grows
  have hdistinct : (d.results.map (·.1)).Nodup := hadds.results ▸ h.distinct
  cases dst with
  | none => exact .pure ⟨.refl d, rfl, ⟨hcovers, hmade, hdistinct, hbound⟩, by simp⟩
  | some x =>
    have hphi : i.op.isPhi = false := by
      cases hemits <;> simp_all [Op.isPhi]
    have hgrows : d.Grows { d with results := (k, x) :: d.results } :=
      ⟨List.prefix_refl _, List.prefix_refl _, List.prefix_refl _, List.suffix_cons _ _⟩
    obtain ⟨ty, hty⟩ := hemits.made
    have hx : x < d.types.length := (List.getElem?_eq_some_iff.mp hty).1
    refine .of_ok rfl ⟨hgrows, rfl, ⟨⟨?_, hcovers.entry⟩, ?_, ?_, ?_⟩, by simp⟩
    · intro r hr
      rcases List.mem_cons.mp hr with rfl | hr
      · exact hx
      · exact hcovers.results r hr
    · intro r hr
      rcases List.mem_cons.mp hr with rfl | hr
      · exact ⟨i, hi, .inr (.inr (by simp))⟩
      · exact hmade r hr
    · refine List.nodup_cons.mpr ⟨fun hmem => ?_, hdistinct⟩
      obtain ⟨r, hr, hkey⟩ := List.mem_map.mp hmem
      refine not_made hplace hsplit hphi ?_
      have := h.made r (hadds.results ▸ hr)
      rwa [hkey] at this
    · intro r hr
      rcases List.mem_cons.mp hr with rfl | hr
      · exact ⟨i, hi, .inr ⟨b, code, hemits.mono hgrows⟩⟩
      · exact (hbound r hr).mono hgrows

/-- What is recorded when a block is done. -/
theorem Recorded.next (hplace : f.Placement) (h : Recorded env f entry ⟨b, f.blockInsts b⟩ d) :
    Recorded env f entry ⟨b + 1, []⟩ d := by
  refine ⟨h.covers, ?_, h.distinct, h.bound⟩
  intro r hr
  obtain ⟨i, hi, hwhere⟩ := h.made r hr
  refine ⟨i, hi, ?_⟩
  rcases hwhere with hphi | hlt | hmem
  · exact .inl hphi
  · exact .inr (.inl (Nat.lt_succ_of_lt hlt))
  · rw [hplace.map_blockInsts] at hmem
    obtain ⟨i', hi', hblock⟩ := hplace.listed hmem
    obtain rfl := Option.some.inj (hi.symm.trans hi')
    exact .inr (.inl (Nat.lt_succ_of_le (Nat.le_of_eq hblock)))

/-- **The code of a block.** -/
theorem ensures_buildBlock (hplace : f.Placement) (h : Recorded env f entry ⟨b, []⟩ d) :
    Ensures (buildBlock env f entry b) d fun body d' =>
      d.Grows d' ∧ Recorded env f entry ⟨b + 1, []⟩ d' ∧ EmitsBlock env f d' entry b body := by
  unfold buildBlock
  have hreset : d.Grows { d with body := [] } :=
    ⟨List.prefix_refl _, List.prefix_refl _, List.prefix_refl _, List.suffix_refl _⟩
  have hempty : Recorded env f entry ⟨b, []⟩ { d with body := [] } :=
    ⟨⟨h.covers.results, h.covers.entry⟩, h.made, h.distinct, fun r hr => (h.bound r hr).mono hreset⟩
  refine Ensures.bind (Q := fun _ d₁ => d₁ = { d with body := [] }) (.of_ok rfl rfl) ?_
  rintro _ _ rfl
  -- After some of the instructions the body is their code.
  refine Ensures.bind (Q := fun _ d₁ => d.Grows d₁ ∧ Recorded env f entry ⟨b, f.blockInsts b⟩ d₁ ∧
    ∃ codes, d₁.body = codes.flatten ∧ EmitsInsts env f d₁ entry b (f.blockInsts b) codes) ?_ ?_
  · refine Ensures.forM (I := fun before d₁ => d.Grows d₁ ∧ Recorded env f entry ⟨b, before⟩ d₁ ∧
      ∃ codes, d₁.body = codes.flatten ∧ EmitsInsts env f d₁ entry b before codes) ?_
      ⟨hreset, hempty, [], rfl, .nil⟩
    rintro before ⟨k, i⟩ after d₁ hsplit ⟨hgrows, hrecorded, codes, hbody, hcodes⟩
    refine (ensures_buildInst hrecorded.covers b i).bind ?_
    rintro dst d₂ ⟨code, hadds, hemits⟩
    refine (ensures_bindResult hplace hsplit hrecorded hadds hemits).mono ?_
    rintro _ d₃ ⟨hgrows₃, hbody₃, hrecorded₃, hresult⟩
    refine ⟨(hgrows.trans hadds.grows).trans hgrows₃, hrecorded₃, codes ++ [code], ?_, ?_⟩
    · simp [hbody₃, hadds.body, hbody]
    · exact List.rel_append (hcodes.mono (hadds.grows.trans hgrows₃))
        (.cons ⟨dst, hemits.mono hgrows₃, hresult⟩ .nil)
  · rintro _ d₁ ⟨hgrows, hrecorded, codes, hbody, hcodes⟩
    exact .get_bind (.pure ⟨hgrows, hrecorded.next hplace, codes, hbody, hcodes⟩)

theorem eq_of_range {n : Nat} {done rest : List Nat} (h : List.range n = done ++ b :: rest) :
    b = done.length := by
  have hget : (List.range n)[done.length]? = some b := by simp [h]
  obtain ⟨_, hb⟩ := List.getElem?_eq_some_iff.mp hget
  simpa using hb.symm

/-- The code of all blocks, in order. -/
theorem ensures_allBlocks (hplace : f.Placement) (h : Recorded env f entry ⟨0, []⟩ d) (n : Nat) :
    Ensures ((List.range n).mapM (buildBlock env f entry)) d fun bodies d' =>
      d.Grows d' ∧ Recorded env f entry ⟨n, []⟩ d' ∧
        List.Forall₂ (EmitsBlock env f d' entry) (List.range n) bodies := by
  refine (Ensures.mapM (I := fun done bodies d₁ => d.Grows d₁ ∧
    Recorded env f entry ⟨done.length, []⟩ d₁ ∧
    List.Forall₂ (EmitsBlock env f d₁ entry) done bodies) ?_ ⟨.refl d, h, .nil⟩).mono ?_
  · rintro done b rest bodies d₁ hsplit ⟨hgrows, hrecorded, hbodies⟩
    obtain rfl := eq_of_range hsplit
    refine (ensures_buildBlock hplace hrecorded).mono ?_
    rintro body d₂ ⟨hgrows₂, hrecorded₂, hbody⟩
    refine ⟨hgrows.trans hgrows₂, by simpa using hrecorded₂, ?_⟩
    exact List.rel_append (hbodies.imp fun _ _ h => h.mono hgrows₂) (.cons hbody .nil)
  · rintro bodies d₁ ⟨hgrows, hrecorded, hbodies⟩
    exact ⟨hgrows, by simpa using hrecorded, hbodies⟩

/-! ### Parameters -/

/-- A parameter that stands for a phi. -/
def StandsFor (d : Draft) (phi : InstId × IR.Inst) (param : ValueId × MachineTy) : Prop :=
  (phi.1, param.1) ∈ d.results ∧ MachineTy.ofTy? phi.2.ty = some param.2 ∧
    d.types[param.1]? = some param.2

theorem StandsFor.mono {phi : InstId × IR.Inst} {param : ValueId × MachineTy}
    (h : StandsFor d phi param) (hd : d.Grows d') : StandsFor d' phi param :=
  ⟨hd.results.subset h.1, h.2.1, hd.type h.2.2⟩

/-- The phis of the blocks before `b` and these phis of `b` have values, and nothing else has. -/
structure Opened (f : IR.Function) (p : Place) (d : Draft) : Prop where
  phi : ∀ r ∈ d.results, ∃ i, f.insts[r.1]? = some i ∧ i.op.isPhi = true ∧
    (i.block < p.b ∨ r.1 ∈ p.before.map (·.1)) ∧ d.Made (some r.2) (MachineTy.ofTy? i.ty)
  distinct : (d.results.map (·.1)).Nodup

/-- A parameter is made for a phi. -/
theorem ensures_phiParam (hplace : f.Placement)
    (hsplit : f.blockInsts b = before ++ (k, i) :: after) (hphi : i.op.isPhi = true)
    (h : Opened f ⟨b, before⟩ d) :
    Ensures (do
      let ty ← nonVoid i.ty .voidPhi
      let v ← newValue ty
      bindResult k v
      return (v, ty)) d fun param d' =>
        d.Grows d' ∧ Opened f ⟨b, before ++ [(k, i)]⟩ d' ∧ StandsFor d' (k, i) param := by
  obtain ⟨(hi : f.insts[k]? = some i), -⟩ :=
    (hplace.mem_blockInsts (b := b) (e := (k, i))).mp (by simp [hsplit])
  refine (ensures_nonVoid d i.ty _).bind ?_
  rintro ty _ ⟨hsame, hty⟩
  rw [hsame]
  have hgrows : d.Grows { d with
      types := d.types ++ [ty], results := (k, d.types.length) :: d.results } :=
    ⟨List.prefix_append _ _, List.prefix_refl _, List.prefix_refl _, List.suffix_cons _ _⟩
  refine .of_ok rfl ⟨hgrows, ⟨?_, ?_⟩, List.mem_cons_self, hty, getElem?_types_make _ _⟩
  · intro r hr
    rcases List.mem_cons.mp hr with rfl | hr
    · exact ⟨i, hi, hphi, .inr (by simp),
        Draft.made_some_iff.mpr ⟨ty, hty, getElem?_types_make _ _⟩⟩
    · obtain ⟨i', hi', hphi', hwhere, hmade⟩ := h.phi r hr
      refine ⟨i', hi', hphi', ?_, hgrows.made hmade⟩
      simp only [List.map_append, List.mem_append]
      tauto
  · refine List.nodup_cons.mpr ⟨fun hmem => ?_, h.distinct⟩
    obtain ⟨r, hr, hkey⟩ := List.mem_map.mp hmem
    obtain ⟨i', hi', -, hwhere, -⟩ := h.phi r hr
    rw [hkey] at hi' hwhere
    obtain rfl := Option.some.inj (hi.symm.trans hi')
    exact not_passed hplace hsplit hwhere

theorem ensures_phiParams (hplace : f.Placement) (h : Opened f ⟨b, []⟩ d) :
    Ensures (phiParams f b) d fun params d' =>
      d.Grows d' ∧ Opened f ⟨b + 1, []⟩ d' ∧
        List.Forall₂ (StandsFor d') (leadingPhis f b) params := by
  refine (Ensures.mapM (I := fun before params d₁ => d.Grows d₁ ∧ Opened f ⟨b, before⟩ d₁ ∧
    List.Forall₂ (StandsFor d₁) before params) ?_ ⟨.refl d, h, .nil⟩).mono ?_
  · rintro before ⟨k, i⟩ after params d₁ hsplit ⟨hgrows, hopened, hparams⟩
    obtain ⟨-, incoming, (hop : i.op = .phi incoming)⟩ :=
      of_mem_leadingPhis (f := f) (b := b) (x := (k, i)) (by simp [hsplit])
    have hinsts : f.blockInsts b =
        before ++ (k, i) :: (after ++ (f.blockInsts b).dropWhile (·.2.op.isPhi)) := by
      calc f.blockInsts b = leadingPhis f b ++ (f.blockInsts b).dropWhile (·.2.op.isPhi) :=
            List.takeWhile_append_dropWhile.symm
        _ = _ := by rw [hsplit, List.append_assoc, List.cons_append]
    refine (ensures_phiParam hplace hinsts (by rw [hop]; rfl) hopened).mono ?_
    rintro param d₂ ⟨hgrows₂, hopened₂, hstands⟩
    exact ⟨hgrows.trans hgrows₂, hopened₂,
      List.rel_append (hparams.imp fun _ _ h => h.mono hgrows₂) (.cons hstands .nil)⟩
  · rintro params d₁ ⟨hgrows, hopened, hparams⟩
    refine ⟨hgrows, ⟨fun r hr => ?_, hopened.distinct⟩, hparams⟩
    obtain ⟨i, hi, hphi, hwhere, hmade⟩ := hopened.phi r hr
    refine ⟨i, hi, hphi, .inl ?_, hmade⟩
    rcases hwhere with hlt | hmem
    · exact Nat.lt_succ_of_lt hlt
    · obtain ⟨x, hx, hkey⟩ := List.mem_map.mp hmem
      obtain ⟨hi', hblock⟩ := hplace.mem_blockInsts.mp (of_mem_leadingPhis hx).1
      rw [hkey, hi] at hi'
      rw [Option.some.inj hi', hblock]
      exact Nat.lt_succ_self b

/-- The parameters of all blocks, in order. -/
theorem ensures_allPhis (hplace : f.Placement) (n : Nat) :
    Ensures ((List.range n).mapM (phiParams f)) {} fun phis d =>
      Opened f ⟨n, []⟩ d ∧
        List.Forall₂ (fun b => List.Forall₂ (StandsFor d) (leadingPhis f b))
          (List.range n) phis := by
  refine (Ensures.mapM (I := fun done phis d => Opened f ⟨done.length, []⟩ d ∧
    List.Forall₂ (fun b => List.Forall₂ (StandsFor d) (leadingPhis f b)) done phis) ?_
    ⟨⟨by simp, by simp⟩, .nil⟩).mono ?_
  · rintro done b rest phis d hsplit ⟨hopened, hphis⟩
    obtain rfl := eq_of_range hsplit
    refine (ensures_phiParams hplace hopened).mono ?_
    rintro params d₁ ⟨hgrows, hopened₁, hparams⟩
    refine ⟨by simpa using hopened₁, List.rel_append ?_ (.cons hparams .nil)⟩
    exact hphis.imp fun _ _ h => h.imp fun _ _ h => h.mono hgrows
  · rintro phis d ⟨hopened, hphis⟩
    exact ⟨by simpa using hopened, hphis⟩

/-- A parameter of each type. -/
theorem ensures_args (d : Draft) (tys : List MachineTy) :
    Ensures (tys.mapM fun ty => return (← newValue ty, ty)) d fun args d' =>
      d.Adds d' [] ∧ args.map (·.2) = tys ∧ ∀ arg ∈ args, d'.types[arg.1]? = some arg.2 := by
  refine Ensures.mapM (I := fun done (args : List (ValueId × MachineTy)) d₁ => d.Adds d₁ [] ∧
    args.map (·.2) = done ∧
    ∀ arg ∈ args, d₁.types[arg.1]? = some arg.2) ?_ ⟨.refl d, rfl, by simp⟩
  rintro done ty rest args d₁ - ⟨hadds, htys, hargs⟩
  have hnew : d₁.Adds { d₁ with types := d₁.types ++ [ty] } [] :=
    ⟨List.prefix_append _ _, List.prefix_refl _, List.prefix_refl _, rfl, (List.append_nil _).symm⟩
  refine .of_ok rfl ⟨hadds.trans hnew, by simp [htys], ?_⟩
  intro arg harg
  rcases List.mem_append.mp harg with hold | hlast
  · exact hnew.grows.type (hargs arg hold)
  · obtain rfl := List.mem_singleton.mp hlast
    exact getElem?_types_make _ _

/-! ### Functions -/

/-- The values of the parameters of the first block. -/
def entryValues (blocks : List CodeBlock) : List ValueId :=
  (blocks.head?.elim [] (·.params)).map (·.1)

/-- **The code of a function**: `d` records the types of the values, what stands for the results of
instructions, the strings and the slots. -/
structure Translated (env : Environment) (f : IR.Function) (sig : CodeSig) (d : Draft)
    (blocks : List CodeBlock) : Prop where
  length : blocks.length = f.blocks.length
  /-- A block has a parameter for each phi at its head, and the first one has those of the
  function. -/
  params : ∀ {b : BlockId} {block : CodeBlock}, blocks[b]? = some block → ∃ phis args,
    block.params = phis ++ args ∧ List.Forall₂ (StandsFor d) (leadingPhis f b) phis ∧
      args.map (·.2) = (if b = 0 then sig.params else []) ∧
        ∀ arg ∈ args, d.types[arg.1]? = some arg.2
  bodies : ∀ {b : BlockId} {block : CodeBlock}, blocks[b]? = some block →
    EmitsBlock env f d (entryValues blocks) b block.body
  distinct : (d.results.map (·.1)).Nodup
  bound : ∀ r ∈ d.results, Bound env f d (entryValues blocks) r

theorem of_forall₂_range {β : Type} {R : Nat → β → Prop} {n : Nat} {ys : List β}
    (h : List.Forall₂ R (List.range n) ys) {y : β} (hy : ys[b]? = some y) : R b y := by
  obtain ⟨hlen, hall⟩ := List.forall₂_iff_get.mp h
  obtain ⟨hlt, rfl⟩ := List.getElem?_eq_some_iff.mp hy
  simpa using hall b (by rw [hlen]; exact hlt) hlt

theorem exists_left_of_forall₂ {α β : Type} {R : α → β → Prop} {xs : List α} {ys : List β}
    (h : List.Forall₂ R xs ys) {y : β} (hy : y ∈ ys) : ∃ x ∈ xs, R x y := by
  obtain ⟨hlen, hall⟩ := List.forall₂_iff_get.mp h
  obtain ⟨n, hn, rfl⟩ := List.mem_iff_getElem.mp hy
  exact ⟨_, List.get_mem xs ⟨n, hlen ▸ hn⟩, hall n (hlen ▸ hn) hn⟩

/-- Values for the parameters of the first block. -/
theorem lt_of_mem_entry {d₁ : Draft} {phis : List (List (ValueId × MachineTy))}
    {args : List (ValueId × MachineTy)} {n : Nat}
    (hphis : List.Forall₂ (fun b => List.Forall₂ (StandsFor d₁) (leadingPhis f b))
      (List.range n) phis)
    (hgrows : d₁.Grows d) (hargs : ∀ arg ∈ args, d.types[arg.1]? = some arg.2) {x : ValueId}
    (hx : x ∈ ((phis.modifyHead (· ++ args)).headD []).map (·.1)) : x < d.types.length := by
  obtain ⟨param, hparam, rfl⟩ := List.mem_map.mp hx
  have hty : d.types[param.1]? = some param.2 := by
    cases phis with
    | nil => simp at hparam
    | cons own rest =>
      rcases List.mem_append.mp hparam with hown | harg
      · have hall := of_forall₂_range (b := 0) hphis rfl
        obtain ⟨phi, -, hstands⟩ := exists_left_of_forall₂ hall hown
        exact hgrows.type hstands.2.2
      · exact hargs param harg
  exact (List.getElem?_eq_some_iff.mp hty).1

/-- **Making the code of a function gives its code.** -/
theorem ensures_buildBlocks (hplace : f.Placement) (sig : CodeSig) :
    Ensures (buildBlocks env f sig) {} fun blocks d => Translated env f sig d blocks := by
  unfold buildBlocks
  refine (ensures_allPhis hplace f.blocks.length).bind ?_
  rintro phis d₁ ⟨hopened, hphis⟩
  refine (ensures_args d₁ sig.params).bind ?_
  rintro args d₂ ⟨hadds, hargTys, hargs⟩
  have hrecorded : Recorded env f (((phis.modifyHead (· ++ args)).headD []).map (·.1))
      ⟨0, []⟩ d₂ := by
    have hphi : ∀ r ∈ d₂.results, ∃ i, f.insts[r.1]? = some i ∧ i.op.isPhi = true ∧
        d₂.Made (some r.2) (MachineTy.ofTy? i.ty) := by
      intro r hr
      obtain ⟨i, hi, hphi, -, hmade⟩ := hopened.phi r (hadds.results ▸ hr)
      exact ⟨i, hi, hphi, hadds.grows.made hmade⟩
    refine ⟨⟨fun r hr => ?_, fun x hx => lt_of_mem_entry hphis hadds.grows hargs hx⟩,
      fun r hr => ?_, hadds.results ▸ hopened.distinct, fun r hr => ?_⟩
    · obtain ⟨i, -, -, hmade⟩ := hphi r hr
      obtain ⟨mty, -, hmty⟩ := Draft.made_some_iff.mp hmade
      exact (List.getElem?_eq_some_iff.mp hmty).1
    · obtain ⟨i, hi, hphi, -⟩ := hphi r hr
      exact ⟨i, hi, .inl hphi⟩
    · obtain ⟨i, hi, hphi, hmade⟩ := hphi r hr
      exact ⟨i, hi, .inl ⟨hphi, hmade⟩⟩
  refine (ensures_allBlocks hplace hrecorded f.blocks.length).bind ?_
  rintro bodies d₃ ⟨hgrows, hrecorded₃, hbodies⟩
  have hlen : phis.length = f.blocks.length := by simpa using hphis.length_eq.symm
  have hlen' : bodies.length = f.blocks.length := by simpa using hbodies.length_eq.symm
  have hentry : entryValues (List.zipWith CodeBlock.mk (phis.modifyHead (· ++ args)) bodies)
      = ((phis.modifyHead (· ++ args)).headD []).map (·.1) := by
    cases phis with
    | nil => rfl
    | cons own rest =>
      cases bodies with
      | nil =>
        rw [← hlen'] at hlen
        cases hlen
      | cons body bodies => rfl
  refine .pure ⟨by simp [hlen, hlen'], ?_, ?_, hrecorded₃.distinct, hentry ▸ hrecorded₃.bound⟩
  · intro b block hblock
    obtain ⟨ps, body, hps, -, rfl⟩ := List.getElem?_zipWith_eq_some.mp hblock
    have hall := hadds.grows.trans hgrows
    have hown : ∀ {own}, phis[b]? = some own → List.Forall₂ (StandsFor d₃) (leadingPhis f b) own :=
      fun h => (of_forall₂_range hphis h).imp fun _ _ h => h.mono hall
    rw [List.getElem?_modifyHead] at hps
    by_cases hb : b = 0
    · subst hb
      obtain ⟨own, hget, rfl⟩ : ∃ own, phis[0]? = some own ∧ own ++ args = ps := by simpa using hps
      exact ⟨own, args, rfl, hown hget, by simpa using hargTys,
        fun arg harg => hgrows.type (hargs arg harg)⟩
    · rw [if_neg hb] at hps
      exact ⟨ps, [], (List.append_nil ps).symm, hown hps, by simp [hb], by simp⟩
  · intro b block hblock
    obtain ⟨ps, body, -, hbody, rfl⟩ := List.getElem?_zipWith_eq_some.mp hblock
    rw [hentry]
    exact of_forall₂_range hbodies hbody

end Blocks

end TreeCompiler.Target
