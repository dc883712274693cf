/-
The labels of blocks.

Each function counts the requests for the names of its blocks, and the second request for a name is
answered with a number at its end.  Unlike with the symbols of a module nothing stands between the
two, so in general the name of one block could be made up for another: `then1` could be asked for,
or be what the second request for `then` gets.  What rules this out is that lowering asks for five
names only, and none of them ends in a digit.  Then the number can be read off a label, from the end
(`numbered_inj`), and since no request has the number of an earlier one for the same name, no two
labels are the same.

That a function has the labels that its requests got (`Labelled`) is kept by every change that a run
makes.
-/
import TreeCompiler.Proofs.IR.Symbols
import TreeCompiler.Proofs.Lowering.Sound

namespace TreeCompiler

namespace IR

/-! ### Numbers at the end -/

namespace NameSupply

/-- The label for a request, by the number of earlier requests for the same name. -/
def numbered (base : String) : Nat → String
  | 0 => base
  | n + 1 => base ++ toString (n + 1)

theorem next_eq_numbered (s : NameSupply) (base : String) :
    s.next "" base = numbered base (s.requested.count base) := by
  unfold next
  cases s.requested.count base with
  | zero => rfl
  | succ n => rw [String.append_empty, numbered]

/-- Whether a name ends in a digit. -/
def endsInDigit (name : String) : Bool := name.toList.getLast?.any Char.isDigit

/-- What is appended to a name. -/
def numeral : Nat → List Char
  | 0 => []
  | n + 1 => (toString (n + 1)).toList

theorem toList_numbered (base : String) (n : Nat) :
    (numbered base n).toList = base.toList ++ numeral n := by
  cases n with
  | zero => simp [numbered, numeral]
  | succ n => rw [numbered, numeral, String.toList_append]

theorem isDigit_of_mem_numeral {n : Nat} {c : Char} (h : c ∈ numeral n) : c.isDigit = true := by
  cases n with
  | zero => simp [numeral] at h
  | succ n =>
    rw [numeral, Nat.toString_eq_ofList_toDigits, String.toList_ofList] at h
    exact Nat.isDigit_of_mem_toDigits (by decide) (by decide) h

theorem numeral_inj {m n : Nat} (h : numeral m = numeral n) : m = n := by
  have hsome (k : Nat) : (toString (k + 1)).toList ≠ [] := by
    rw [Nat.toString_eq_ofList_toDigits, String.toList_ofList]
    exact Nat.toDigits_ne_nil
  cases m with
  | zero =>
    cases n with
    | zero => rfl
    | succ n => exact absurd h.symm (hsome n)
  | succ m =>
    cases n with
    | zero => exact absurd h (hsome m)
    | succ n => exact toString_inj h

theorem eq_nil_of_digits {as bs : List Char} (h : (as ++ bs).getLast?.any Char.isDigit = false)
    (hbs : ∀ c ∈ bs, c.isDigit = true) : bs = [] := by
  rcases List.eq_nil_or_concat bs with rfl | ⟨front, c, rfl⟩
  · rfl
  · have hc : c.isDigit = true := hbs c (by simp)
    simp [← List.append_assoc, hc] at h

/-- A text is cut in one way where its last digits begin. -/
theorem append_digits_inj {as bs cs ds : List Char} (has : as.getLast?.any Char.isDigit = false)
    (hcs : cs.getLast?.any Char.isDigit = false) (hbs : ∀ c ∈ bs, c.isDigit = true)
    (hds : ∀ c ∈ ds, c.isDigit = true) (h : as ++ bs = cs ++ ds) : as = cs ∧ bs = ds := by
  -- What lies between two cuts would be digits at the end of what comes before the later one.
  rcases List.append_eq_append_iff.mp h with ⟨mid, rfl, rfl⟩ | ⟨mid, rfl, rfl⟩
  · obtain rfl : mid = [] := eq_nil_of_digits hcs fun c hc => hbs c (List.mem_append_left _ hc)
    exact ⟨(List.append_nil _).symm, rfl⟩
  · obtain rfl : mid = [] := eq_nil_of_digits has fun c hc => hds c (List.mem_append_left _ hc)
    exact ⟨List.append_nil _, rfl⟩

/-- A label tells which request it answers. -/
theorem numbered_inj {b c : String} {m n : Nat} (hb : endsInDigit b = false)
    (hc : endsInDigit c = false) (h : numbered b m = numbered c n) : b = c ∧ m = n := by
  have hchars : b.toList ++ numeral m = c.toList ++ numeral n := by
    rw [← toList_numbered, ← toList_numbered, h]
  obtain ⟨hbase, hnumeral⟩ :=
    append_digits_inj hb hc (fun _ => isDigit_of_mem_numeral)
      (fun _ => isDigit_of_mem_numeral) hchars
  exact ⟨String.toList_inj.mp hbase, numeral_inj hnumeral⟩

theorem tickets_concat (s : NameSupply) (bases : List String) (base : String) :
    s.tickets (bases ++ [base])
      = s.tickets bases ++ [(base, s.requested.count base + bases.count base)] := by
  induction bases generalizing s with
  | nil => rfl
  | cons b bases ih =>
    have hcount : (s.record b).requested.count base + bases.count base =
        s.requested.count base + (b :: bases).count base := by
      simp only [record, List.count_cons]
      omega
    rw [List.cons_append, tickets, tickets, ih, hcount, List.cons_append]

/-- The labels for a sequence of requests. -/
def labels (bases : List String) : List String :=
  (({} : NameSupply).tickets bases).map fun t => numbered t.1 t.2

theorem labels_concat (bases : List String) (base : String) :
    labels (bases ++ [base]) = labels bases ++ [numbered base (bases.count base)] := by
  rw [labels, tickets_concat, List.map_append]
  simp [labels]

/-- **Labels are distinct** if no name that is requested ends in a digit. -/
theorem nodup_labels {bases : List String} (h : ∀ base ∈ bases, endsInDigit base = false) :
    (labels bases).Nodup := by
  have hbase : ∀ t ∈ ({} : NameSupply).tickets bases, endsInDigit t.1 = false := by
    intro t ht
    have hcount : 0 < bases.count t.1 := by
      have := mem_tickets.mp ht
      omega
    exact h t.1 (List.count_pos_iff.mp hcount)
  refine List.Nodup.map_on (fun t ht u hu heq => ?_) (nodup_tickets _ _)
  obtain ⟨hname, hnumber⟩ := numbered_inj (hbase t ht) (hbase u hu) heq
  exact Prod.ext hname hnumber

end NameSupply

/-! ### Functions -/

namespace Function

variable {f g : Function}

theorem names_createBlock (f : Function) (base : String) :
    (f.createBlock base).2.blocks.map (·.name)
      = f.blocks.map (·.name) ++ [f.labels.next "" base] := by
  simp [createBlock]

theorem names_push (f : Function) (b : BlockId) (op : Op) (ty : Ty) (name : Option String) :
    (f.push b op ty name).2.blocks.map (·.name) = f.blocks.map (·.name) := by
  refine List.ext_getElem? fun a => ?_
  simp only [push, List.getElem?_map, List.getElem?_modify]
  cases f.blocks[a]? with
  | none => rfl
  | some block => by_cases hab : b = a <;> simp [hab]

/-- What lowering requests as names of blocks. -/
def blockBases : List String := ["entry", "then", "else", "loop", "afterloop"]

/-- The blocks have the labels that their requests got. -/
structure Labelled (f : Function) : Prop where
  names : f.blocks.map (·.name) = NameSupply.labels f.labels.requested.reverse
  bases : ∀ base ∈ f.labels.requested, base ∈ blockBases

theorem Labelled.distinct (h : f.Labelled) : (f.blocks.map (·.name)).Nodup := by
  have hends : ∀ base ∈ blockBases, NameSupply.endsInDigit base = false := by decide
  rw [h.names]
  exact NameSupply.nodup_labels fun base hbase =>
    hends base (h.bases base (List.mem_reverse.mp hbase))

/-- Only new blocks have anything to do with labels. -/
theorem Labelled.congr (h : f.Labelled) (hblocks : g.blocks.map (·.name) = f.blocks.map (·.name))
    (hlabels : g.labels = f.labels) : g.Labelled :=
  ⟨by rw [hblocks, hlabels, h.names], by rw [hlabels]; exact h.bases⟩

/-- A function without blocks for which nothing was requested. -/
theorem labelled_of_empty (hblocks : f.blocks = []) (hlabels : f.labels = {}) : f.Labelled :=
  ⟨by rw [hblocks, hlabels]; rfl, by rw [hlabels]; exact fun _ h => by cases h⟩

theorem Labelled.createBlock (h : f.Labelled) {base : String} (hbase : base ∈ blockBases) :
    (f.createBlock base).2.Labelled where
  names := by
    have hrequested : (f.createBlock base).2.labels.requested = base :: f.labels.requested := rfl
    rw [names_createBlock, h.names, hrequested, List.reverse_cons, NameSupply.labels_concat,
      List.count_reverse, ← NameSupply.next_eq_numbered]
  bases := by
    intro other hother
    rcases List.mem_cons.mp hother with rfl | hold
    · exact hbase
    · exact h.bases other hold

/-- The first block of a function. -/
theorem labelled_entry (hblocks : f.blocks = []) (hlabels : f.labels = {}) :
    (f.createBlock "entry").2.Labelled :=
  (labelled_of_empty hblocks hlabels).createBlock List.mem_cons_self

theorem Labelled.push (h : f.Labelled) (b : BlockId) (op : Op) (ty : Ty) (name : Option String) :
    (f.push b op ty name).2.Labelled :=
  h.congr (names_push f b op ty name) rfl

end Function

end IR

namespace Lowering

/-- **Every change that a run makes keeps the labels in order.** -/
theorem labelled_lasting : Lasting IR.Function.Labelled where
  push b ty name _ hf := hf.push b _ ty name
  block hbase hf := hf.createBlock (List.mem_cons_of_mem _ hbase)
  rename v name hf := hf.congr (by rw [IR.Function.setValueName_blocks]) (by cases v <;> rfl)
  setPhi _ _ _ hf := hf.congr rfl rfl
  opened _ _ _ := IR.Function.labelled_entry rfl rfl

theorem start_labelled (options : Options) : (start options).Each IR.Function.Labelled := by
  refine start_each options (IR.Function.labelled_of_empty rfl rfl) (fun name => ?_)
    fun name => IR.Function.labelled_entry rfl rfl
  exact (((IR.Function.labelled_entry rfl rfl).push _ _ _ _).push _ _ _ _).push _ _ _ _

/-- **Labels tell the blocks of a function apart** in every module that lowering gives, whether or
not statements are missing in it, however many conditionals and loops there are and however deeply
they are nested. -/
theorem lowerProgram_labels {root : Program.Block} {options : Options} {l : Lowered}
    (h : lowerProgram root options = .ok l) {f : IR.Function} (hf : f ∈ l.code.functions) :
    (f.blocks.map (·.name)).Nodup := by
  obtain ⟨t, hrun, hcode, -⟩ := lowerProgram_ok h
  have hlabelled := hrun.each labelled_lasting (start_labelled options)
  rw [← hcode] at hf
  obtain ⟨id, hid, rfl⟩ := IR.Module.exists_function_of_mem hf
  exact (hlabelled id hid).distinct

/-- A conditional inside a conditional, in a loop that is followed by another one. -/
def nestedBranches : Program.Block :=
  let cond (id : Program.NodeId) : Program.Expr := .binary id .lt (.ident id "i") (.ident id "i")
  .mk 0 [
    .expr 1 (.loop 2 (.double 3 .one) (.double 4 .one) (.mk 5 [
      .expr 6 (.ifElse 7 (cond 8) (.mk 9 [.expr 10 (.ifElse 11 (cond 12) (.mk 13 []) (.mk 14 []))])
      (.mk 15 []))])),
    .expr 16 (.loop 17 (.double 18 .one) (.double 19 .one) (.mk 20 []))]

theorem lowerProgram_labels_nestedBranches :
    ∃ l f, lowerProgram nestedBranches {} = .ok l ∧ f ∈ l.code.functions ∧
      f.blocks.map (·.name) =
        ["entry", "loop", "then", "else", "then1", "else1", "afterloop", "loop1", "afterloop1"] ∧
      (f.blocks.map (·.name)).Nodup := by
  have hrun : ((lowerProgram nestedBranches {}).toOption.any fun l =>
      decide (∃ f ∈ l.code.functions, f.blocks.map (·.name) =
        ["entry", "loop", "then", "else", "then1", "else1", "afterloop", "loop1",
          "afterloop1"])) = true := by
    decide +kernel
  rcases h : lowerProgram nestedBranches {} with e | l
  · simp [h, Except.toOption] at hrun
  · simp only [h, Except.toOption, Option.any_some, decide_eq_true_eq] at hrun
    obtain ⟨f, hf, hnames⟩ := hrun
    exact ⟨l, f, rfl, hf, hnames, lowerProgram_labels h hf⟩

end Lowering

end TreeCompiler
