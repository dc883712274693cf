/-
How many things a function or a module has.

Functions, blocks, instructions, strings and parameters are referred to by position, and names are
told apart by counting the requests for them.  All these numbers are natural numbers here.  A
compiler that keeps them in 32 bits would let two of them become the same, if ever there were too
many.

`Extent` bounds all numbers of a function or a module at once.  A change makes at most one thing of
each kind, a function that is added has its parameters besides.  So a function that is built by less
than `2 ^ 32` changes, its parameters counted with them, has no number that does not fit into 32
bits (`build_fits`), and neither has a module after so many requests (`serve_fits`).
-/
import TreeCompiler.Proofs.IR.Construction
import TreeCompiler.Proofs.IR.Symbols

namespace TreeCompiler.IR

/-- A function has at most `n` parameters, blocks and instructions, and at most `n` labels were
asked for. -/
structure Function.Extent (f : Function) (n : Nat) : Prop where
  params : f.sig.params.length ≤ n
  blocks : f.blocks.length ≤ n
  insts : f.insts.length ≤ n
  labels : f.labels.requested.length ≤ n

/-- A module has at most `n` functions and strings, at most `n` names were asked for, and no
function has more of anything. -/
structure Module.Extent (m : Module) (n : Nat) : Prop where
  functions : m.functions.length ≤ n
  globals : m.globals.length ≤ n
  names : m.names.requested.length ≤ n
  each : ∀ f ∈ m.functions, f.Extent n

namespace Function.Extent

variable {f : Function} {n m : Nat}

theorem mono (h : f.Extent n) (hle : n ≤ m) : f.Extent m :=
  ⟨Nat.le_trans h.params hle, Nat.le_trans h.blocks hle, Nat.le_trans h.insts hle,
    Nat.le_trans h.labels hle⟩

theorem push (h : f.Extent n) (b : BlockId) (op : Op) (ty : Ty) (name : Option String) :
    (f.push b op ty name).2.Extent (n + 1) where
  params := Nat.le_trans h.params n.le_succ
  blocks := by simpa [Function.push] using Nat.le_trans h.blocks n.le_succ
  insts := by simpa [Function.push] using h.insts
  labels := Nat.le_trans h.labels n.le_succ

theorem createBlock (h : f.Extent n) (base : String) : (f.createBlock base).2.Extent (n + 1) where
  params := Nat.le_trans h.params n.le_succ
  blocks := by simpa [Function.createBlock] using h.blocks
  insts := Nat.le_trans h.insts n.le_succ
  labels := by simpa [Function.createBlock, NameSupply.record] using h.labels

theorem setValueName (h : f.Extent n) (value : Value) (name : String) :
    (f.setValueName value name).Extent n := by
  cases value with
  | inst id => exact ⟨h.params, h.blocks, by simpa [Function.setValueName] using h.insts, h.labels⟩
  | _ => exact h

theorem foldl {α : Type} {change : Function → α → Function}
    (hchange : ∀ {f : Function} (a : α), f.Extent n → (change f a).Extent n) (as : List α)
    (h : f.Extent n) : (as.foldl change f).Extent n := by
  induction as generalizing f with
  | nil => exact h
  | cons a as ih => exact ih (hchange a h)

theorem addIncoming (h : f.Extent n) {phi value : Value} {source : BlockId} {g : Function}
    (hg : f.addIncoming phi value source = .ok g) : g.Extent n := by
  unfold Function.addIncoming at hg
  split at hg
  · split at hg
    · cases hg
      exact ⟨h.params, h.blocks, by simpa using h.insts, h.labels⟩
    · cases hg
  · cases hg

theorem new (name : String) (sig : Signature) (linkage : Linkage) :
    (Function.new name sig linkage).Extent sig.params.length :=
  ⟨Nat.le_refl _, Nat.zero_le _, Nat.zero_le _, Nat.zero_le _⟩

theorem setParamName (h : f.Extent n) (index : Nat) (name : String) :
    (f.setParamName index name).Extent n :=
  ⟨h.params, h.blocks, h.insts, h.labels⟩

/-- A change makes at most one thing of each kind. -/
theorem after (h : f.Extent n) (c : Change) : (f.after c).Extent (n + 1) := by
  cases c with
  | block base => exact h.createBlock base
  | emission b e =>
    obtain ⟨op, ty, name, hpush⟩ := emit_eq_push f b e
    simp only [Function.after, change, hpush]
    exact h.push b op ty name
  | incoming phi value source =>
    simp only [Function.after, change]
    split
    · exact h.mono n.le_succ
    · rename_i hg
      exact (h.addIncoming hg).mono n.le_succ
  | valueName value name => exact (h.setValueName value name).mono n.le_succ
  | paramName index name => exact (h.setParamName index name).mono n.le_succ

theorem build (h : f.Extent n) (cs : List Change) : (f.build cs).Extent (n + cs.length) := by
  induction cs generalizing f n with
  | nil => exact h
  | cons c cs ih => exact (ih (h.after c)).mono (by rw [List.length_cons]; omega)

end Function.Extent

/-- **A function that is built in less than `2 ^ 32` steps has numbers of 32 bits.** -/
theorem Function.build_fits (name : String) (sig : Signature) (linkage : Linkage)
    (cs : List Function.Change) (hcount : sig.params.length + cs.length < UInt32.size) :
    ((Function.new name sig linkage).build cs).Extent (UInt32.size - 1) :=
  ((Function.Extent.new name sig linkage).build cs).mono (Nat.le_sub_one_of_lt hcount)

namespace Module.Extent

variable {m : Module} {n k : Nat}

theorem mono (h : m.Extent n) (hle : n ≤ k) : m.Extent k :=
  ⟨Nat.le_trans h.functions hle, Nat.le_trans h.globals hle, Nat.le_trans h.names hle,
    fun f hf => (h.each f hf).mono hle⟩

/-- One function is changed; if there is no such function, nothing is. -/
theorem setFunction (h : m.Extent n) (hle : n ≤ k) {id : FuncId} {g : Function}
    (hg : (m.function id).Extent n → g.Extent k) : (m.setFunction id g).Extent k where
  functions := by simpa [Module.setFunction] using Nat.le_trans h.functions hle
  globals := Nat.le_trans h.globals hle
  names := Nat.le_trans h.names hle
  each := by
    intro f hf
    rcases Nat.lt_or_ge id m.functions.length with hid | hid
    · rcases List.mem_or_eq_of_mem_set hf with hold | rfl
      · exact (h.each f hold).mono hle
      · exact hg (h.each _ (List.mem_of_getElem? (Module.getElem?_functions hid)))
    · rw [Module.setFunction, List.set_eq_of_length_le hid] at hf
      exact (h.each f hf).mono hle

theorem addFunction (h : m.Extent n) (name : String) (sig : Signature) (linkage : Linkage) :
    (m.addFunction name sig linkage).2.Extent (n + (sig.params.length + 1)) where
  functions := by
    have hfunctions := h.functions
    simp only [Module.addFunction_functions_length]
    omega
  globals := Nat.le_trans h.globals (Nat.le_add_right _ _)
  names := by
    have hnames := h.names
    simp only [Module.addFunction, NameSupply.record, List.length_cons]
    omega
  each := by
    intro f hf
    rcases List.mem_append.mp hf with hold | hnew
    · exact (h.each f hold).mono (Nat.le_add_right _ _)
    · rw [List.mem_singleton.mp hnew]
      exact (Function.Extent.new _ sig linkage).mono (by omega)

theorem addGlobalString (h : m.Extent n) (name text : String) :
    (m.addGlobalString name text).2.Extent (n + 1) where
  functions := Nat.le_trans h.functions n.le_succ
  globals := by simpa [Module.addGlobalString] using h.globals
  names := by simpa [Module.addGlobalString, NameSupply.record] using h.names
  each := fun f hf => (h.each f hf).mono n.le_succ

end Module.Extent

namespace Module

/-- The things of a kind that a request can make at most. -/
def Request.weight : Request → Nat
  | .function _ sig _ => sig.params.length + 1
  | .string _ _ => 1

def totalWeight : List Request → Nat
  | [] => 0
  | r :: rest => r.weight + totalWeight rest

theorem Extent.serve {m : Module} {n : Nat} (h : m.Extent n) (r : Request) :
    (m.serve r).Extent (n + r.weight) := by
  cases r with
  | function name sig linkage => exact h.addFunction name sig linkage
  | string name text => exact h.addGlobalString name text

theorem Extent.foldl_serve {m : Module} {n : Nat} (h : m.Extent n) (requests : List Request) :
    (requests.foldl Module.serve m).Extent (n + totalWeight requests) := by
  induction requests generalizing m n with
  | nil => exact h
  | cons r rest ih => exact (ih (h.serve r)).mono (by rw [totalWeight]; omega)

/-- **A module with less than `2 ^ 32` functions, parameters and strings has numbers of 32
bits.** -/
theorem serve_fits (name : String) (targetTriple : Option String) (requests : List Request)
    (hcount : totalWeight requests < UInt32.size) :
    (requests.foldl serve { name, targetTriple }).Extent (UInt32.size - 1) := by
  have hempty : Extent { name, targetTriple } 0 :=
    ⟨Nat.le_refl 0, Nat.le_refl 0, Nat.le_refl 0, fun f hf => by cases hf⟩
  exact (hempty.foldl_serve requests).mono (by omega)

end Module

end TreeCompiler.IR
