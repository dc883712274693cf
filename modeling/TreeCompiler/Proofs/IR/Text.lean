/-
What the text of a module tells.

Two things in it come from outside and may be any text: the names that instructions are given and
the strings of the program.  Neither can confuse a reader.

An instruction is written under its given name, a dot and its number, or under its number alone.
The number is all that follows the last dot, so the name tells which instruction it is, whatever the
given names are (`instName_injective`), and a parameter can only be taken for an instruction if its
name has a dot or is a number.

A string is written between quotes.  What stands there is printable, has no quote, and each of its
backslashes begins an escape of one byte, so it can be read back (`Quoted.quotedBytes_eq`) and ends
where its line does.  Hence the strings of a module can be told from its text (`lines_inj`), and
changing them moves no line and no quote.
-/
import TreeCompiler.IR.Printer
import TreeCompiler.Json.Reader
import TreeCompiler.Proofs.IR.Symbols

namespace TreeCompiler.IR

/-! ### Names of instructions -/

namespace Function

variable (f : Function)

/-- What follows the percent sign in the name of an instruction. -/
theorem toList_instName (k : InstId) :
    (∃ given : String, (f.instName k).toList = '%'
      :: (given.toList ++ '.' :: (toString k).toList)) ∨
      (f.instName k).toList = '%' :: (toString k).toList := by
  unfold instName
  rcases f.insts[k]?.bind (·.name) with _ | given
  · exact .inr (by simp)
  · exact .inl ⟨given, by simp⟩

/-- A number is not written with a dot. -/
theorem append_dot_ne_toString (as bs : List Char) (n : Nat) :
    as ++ '.' :: bs ≠ (toString n).toList :=
  fun h => NameSupply.dot_not_mem_toString n (h ▸ List.mem_append_right as List.mem_cons_self)

/-- **The name of an instruction tells which one it is**, whatever names the instructions were
given. -/
theorem instName_injective {j k : InstId} (h : f.instName j = f.instName k) : j = k := by
  have hchars : (f.instName j).toList = (f.instName k).toList := congrArg String.toList h
  rcases toList_instName f j with ⟨given, hj⟩ | hj <;>
    rcases toList_instName f k with ⟨given', hk⟩ | hk <;>
    rw [hj, hk, List.cons.injEq] at hchars
  · have hdot (n : Nat) : '.' ∉ (toString n).toList := NameSupply.dot_not_mem_toString n
    exact NameSupply.toString_inj (NameSupply.append_cons_inj_of_last (hdot j) (hdot k) hchars.2).2
  · exact (append_dot_ne_toString _ _ k hchars.2).elim
  · exact (append_dot_ne_toString _ _ j hchars.2.symm).elim
  · exact NameSupply.toString_inj hchars.2

/-- A text that is written like an instruction has a dot or is a number. -/
theorem instName_eq_percent {k : InstId} {name : String} (h : f.instName k = "%" ++ name) :
    '.' ∈ name.toList ∨ name ≠ "" ∧ ∀ c ∈ name.toList, c.isDigit = true := by
  have hchars : (f.instName k).toList = '%' :: name.toList := by simp [h]
  rcases toList_instName f k with ⟨given, hk⟩ | hk <;> rw [hk, List.cons.injEq] at hchars
  · exact .inl (by simp [← hchars.2])
  · have hdigits : name.toList = Nat.toDigits 10 k := by
      rw [← hchars.2, Nat.toString_eq_ofList_toDigits, String.toList_ofList]
    refine .inr ⟨fun hempty => ?_, fun c hc => ?_⟩
    · rw [hempty] at hdigits
      exact Nat.toDigits_ne_nil hdigits.symm
    · rw [hdigits] at hc
      exact Nat.isDigit_of_mem_toDigits (by decide) (by decide) hc

/-- **Instructions are told apart in the text.**  No two instructions of a function are written
under the same name, and none is written like a parameter, unless the name of the parameter has a
dot or is a number. -/
theorem valueName_inst_distinct (m : Module) (f : Function) :
    (∀ j k, f.valueName m (.inst j) = f.valueName m (.inst k) → j = k) ∧
    ∀ k index, '.' ∉ (f.paramName index).toList →
      ¬ (f.paramName index ≠ "" ∧ ∀ c ∈ (f.paramName index).toList, c.isDigit = true) →
      f.valueName m (.inst k) ≠ f.valueName m (.param index) := by
  refine ⟨fun j k h => instName_injective f h, fun k index hdot hnumber h => ?_⟩
  rcases instName_eq_percent f h with hmem | hdigits
  · exact hdot hmem
  · exact hnumber hdigits

/-- A function whose first two instructions are both called `x.1`, next to one without a name and a
parameter `x`. -/
theorem valueName_inst_distinct_dotted :
    let f : Function := { new "f" ⟨[.f64], .void, false⟩ .internal with
      paramNames := ["x"]
      blocks := [{ name := "entry", insts := [0, 1, 2] }]
      insts := [{ op := .alloca .f64, ty := .ptr, name := some "x.1", block := 0 },
        { op := .alloca .f64, ty := .ptr, name := some "x.1", block := 0 },
        { op := .load .f64 (.inst 0), ty := .f64, name := none, block := 0 }] }
    f.valueName { name := "m" } (.inst 0) = "%x.1.0" ∧
      f.valueName { name := "m" } (.inst 1) = "%x.1.1" ∧
      f.valueName { name := "m" } (.inst 2) ≠ f.valueName { name := "m" } (.param 0) := by
  intro f
  refine ⟨by decide, by decide, (valueName_inst_distinct { name := "m" } f).2 2 0 (by decide)
    fun hnumber => ?_⟩
  exact absurd (hnumber.2 'x' (by decide)) (by decide)

end Function

/-! ### What stands between quotes -/

/-- Whether a character may stand between quotes: it is printable ASCII and no quote. -/
def isQuotable (c : Char) :
    Bool := decide (0x20 ≤ c.toNat) && decide (c.toNat < 0x7f) && decide (c ≠ '"')

/-- Whether a character is a hexadecimal digit in upper case. -/
def isUpperHex (c : Char) :
    Bool := decide ('0' ≤ c) && decide (c ≤ '9') || decide ('A' ≤ c) && decide (c ≤ 'F')

/-- The bytes that are written between quotes: a backslash and two hexadecimal digits are the byte
of that number, and any other character is itself. -/
def quotedBytes : List Char → List UInt8
  | '\\' :: high :: low :: rest =>
    match Json.hexValue? high, Json.hexValue? low with
    | some m, some n => UInt8.ofNat (16 * m + n) :: quotedBytes rest
    | _, _ => String.utf8EncodeChar '\\' ++ quotedBytes (high :: low :: rest)
  | c :: rest => String.utf8EncodeChar c ++ quotedBytes rest
  | [] => []

theorem quotedBytes_cons {c : Char} (hc : c ≠ '\\') (rest : List Char) :
    quotedBytes (c :: rest) = String.utf8EncodeChar c ++ quotedBytes rest := by
  rw [quotedBytes]
  rintro high low rest' heq
  exact absurd heq hc

theorem quotedBytes_escape {high low : Char} {m n : Nat} (hm : Json.hexValue? high = some m)
    (hn : Json.hexValue? low = some n) (rest : List Char) :
    quotedBytes ('\\' :: high :: low :: rest) = UInt8.ofNat (16 * m + n) :: quotedBytes rest := by
  rw [quotedBytes, hm, hn]

/-- The texts that may stand between quotes, with the bytes that they stand for. -/
inductive Quoted : List Char → List UInt8 → Prop where
  | nil : Quoted [] []
  | plain {c : Char} {b : UInt8} {cs : List Char} {bs : List UInt8} (hc : isQuotable c = true)
      (hne : c ≠ '\\') (hb : String.utf8EncodeChar c = [b]) (h : Quoted cs bs) :
      Quoted (c :: cs) (b :: bs)
  | escape {high low : Char} {m n : Nat} {cs : List Char} {bs : List UInt8}
      (hhigh : isUpperHex high = true) (hlow : isUpperHex low = true)
      (hm : Json.hexValue? high = some m) (hn : Json.hexValue? low = some n) (h : Quoted cs bs) :
      Quoted ('\\' :: high :: low :: cs) (UInt8.ofNat (16 * m + n) :: bs)

theorem isQuotable_of_isUpperHex {c : Char} (h : isUpperHex c = true) :
    isQuotable c = true ∧ c ≠ '\\' := by
  have hrange : 0x30 ≤ c.toNat ∧ c.toNat ≤ 0x46 := by
    simp only [isUpperHex, Bool.or_eq_true, Bool.and_eq_true, decide_eq_true_eq, Char.le_def,
      UInt32.le_iff_toNat_le] at h
    have h0 : ('0' : Char).val.toNat = 0x30 := rfl
    have h9 : ('9' : Char).val.toNat = 0x39 := rfl
    have hA : ('A' : Char).val.toNat = 0x41 := rfl
    have hF : ('F' : Char).val.toNat = 0x46 := rfl
    rw [h0, h9, hA, hF] at h
    show 0x30 ≤ c.val.toNat ∧ c.val.toNat ≤ 0x46
    omega
  have hquote : c ≠ '"' := by
    rintro rfl
    exact absurd hrange.1 (by decide)
  refine ⟨?_, ?_⟩
  · simp only [isQuotable, Bool.and_eq_true, decide_eq_true_eq]
    exact ⟨⟨by omega, by omega⟩, hquote⟩
  · rintro rfl
    exact absurd hrange.2 (by decide)

namespace Quoted

variable {cs : List Char} {bs : List UInt8}

theorem forall_isQuotable (h : Quoted cs bs) : ∀ c ∈ cs, isQuotable c = true := by
  induction h with
  | nil => simp
  | plain hc _ _ _ ih => exact List.forall_mem_cons.mpr ⟨hc, ih⟩
  | escape hhigh hlow _ _ _ ih =>
    exact List.forall_mem_cons.mpr
      ⟨by decide, List.forall_mem_cons.mpr ⟨(isQuotable_of_isUpperHex hhigh).1,
      List.forall_mem_cons.mpr ⟨(isQuotable_of_isUpperHex hlow).1, ih⟩⟩⟩

theorem quotedBytes_eq (h : Quoted cs bs) : quotedBytes cs = bs := by
  induction h with
  | nil => rfl
  | plain _ hne hb _ ih => rw [quotedBytes_cons hne, hb, ih]; rfl
  | escape _ _ hm hn _ ih => rw [quotedBytes_escape hm hn, ih]

/-- Every backslash begins an escape. -/
theorem escape_of_backslash (h : Quoted cs bs) {before after : List Char}
    (hsplit : cs = before ++ '\\' :: after) :
    ∃ high low rest, after = high :: low :: rest ∧ isUpperHex high = true ∧
      isUpperHex low = true := by
  induction h generalizing before with
  | nil => simp at hsplit
  | plain _ hne _ _ ih =>
    cases before with
    | nil => exact absurd (List.cons.inj hsplit).1 hne
    | cons _ before => exact ih (List.cons.inj hsplit).2
  | @escape high low m n cs bs hhigh hlow _ _ _ ih =>
    -- A backslash that is not the one of this escape comes after its digits, which are none.
    rcases before with _ | ⟨_, _ | ⟨_, _ | ⟨_, before⟩⟩⟩
    · exact ⟨high, low, cs, (List.cons.inj hsplit).2.symm, hhigh, hlow⟩
    · have hhigh' : high = '\\' := (List.cons.inj (List.cons.inj hsplit).2).1
      exact absurd hhigh' (isQuotable_of_isUpperHex hhigh).2
    · have hlow' : low = '\\' := (List.cons.inj (List.cons.inj (List.cons.inj hsplit).2).2).1
      exact absurd hlow' (isQuotable_of_isUpperHex hlow).2
    · exact ih (List.cons.inj (List.cons.inj (List.cons.inj hsplit).2).2).2

end Quoted

/-! ### Escaping -/

theorem upperHexDigit_lt : ∀ n < 16,
    isUpperHex (upperHexDigit n) = true ∧ Json.hexValue? (upperHexDigit n) = some n := by
  decide

/-- A digit is in upper case and is read as the number it was written for. -/
theorem upperHexDigit_mod (n : Nat) :
    isUpperHex (upperHexDigit n) = true ∧ Json.hexValue? (upperHexDigit n) = some (n % 16) := by
  have hmod : upperHexDigit n = upperHexDigit (n % 16) := by
    simp [upperHexDigit]
  rw [hmod]
  exact upperHexDigit_lt (n % 16) (Nat.mod_lt n (by decide))

/-- A byte that is not escaped is a printable character that is neither a quote nor a backslash. -/
theorem char_of_isPlainByte {b : UInt8} (h : isPlainByte b = true) :
    isQuotable (Char.ofNat b.toNat) = true ∧ Char.ofNat b.toNat ≠ '\\' ∧
      String.utf8EncodeChar (Char.ofNat b.toNat) = [b] := by
  simp only [isPlainByte, Bool.and_eq_true, decide_eq_true_eq, UInt8.le_iff_toNat_le,
    UInt8.lt_iff_toNat_lt] at h
  obtain ⟨⟨⟨hlow, hhigh⟩, hquote⟩, hbackslash⟩ := h
  have hnat : (Char.ofNat b.toNat).toNat = b.toNat := by
    have hvalid : b.toNat.isValidChar := .inl (Nat.lt_trans hhigh (by decide))
    rw [Char.ofNat, dif_pos hvalid]
    rfl
  have hne {c : Char} {n : UInt8} (hc : c.toNat = n.toNat) (hb : b ≠ n) :
      Char.ofNat b.toNat ≠ c := by
    intro heq
    rw [← heq, hnat] at hc
    exact hb (UInt8.toNat_inj.mp hc)
  refine ⟨?_, hne (n := 0x5c) rfl hbackslash, ?_⟩
  · simp only [isQuotable, hnat, Bool.and_eq_true, decide_eq_true_eq]
    exact ⟨⟨hlow, hhigh⟩, hne (n := 0x22) rfl hquote⟩
  · have hv : (Char.ofNat b.toNat).val.toNat ≤ 127 := by
      rw [show (Char.ofNat b.toNat).val.toNat = b.toNat from hnat]
      exact Nat.le_trans (Nat.le_of_lt hhigh) (by decide)
    simp only [String.utf8EncodeChar, if_pos hv]
    rw [show (Char.ofNat b.toNat).val.toNat = b.toNat from hnat, UInt8.ofNat_toNat]

/-- One byte is written in front. -/
theorem Quoted.escapeByte {cs : List Char} {bs : List UInt8} (h : Quoted cs bs) (b : UInt8) :
    Quoted (escapeByte b ++ cs) (b :: bs) := by
  unfold IR.escapeByte
  split
  · rename_i hplain
    obtain ⟨hc, hne, hb⟩ := char_of_isPlainByte hplain
    exact .plain hc hne hb h
  · have ⟨hhigh, hm⟩ := upperHexDigit_mod (b.toNat / 16)
    have ⟨hlow, hn⟩ := upperHexDigit_mod b.toNat
    have hvalue : UInt8.ofNat (16 * (b.toNat / 16 % 16) + b.toNat % 16) = b := by
      have hlt : b.toNat < 256 := b.toNat_lt
      have hsum : 16 * (b.toNat / 16 % 16) + b.toNat % 16 = b.toNat := by omega
      rw [hsum, UInt8.ofNat_toNat]
    have hescape := Quoted.escape hhigh hlow hm hn h
    rwa [hvalue] at hescape

theorem quoted_flatMap (bs : List UInt8) : Quoted (bs.flatMap escapeByte) bs := by
  induction bs with
  | nil => exact .nil
  | cons b bs ih => exact ih.escapeByte b

theorem quoted_escapeBytes (text : String) :
    Quoted (escapeBytes text).toList (terminatedBytes text) := by
  rw [escapeBytes, String.toList_ofList]
  exact quoted_flatMap _

/-- The bytes of an array from a position on, after those that have been collected. -/
theorem byteArray_loop (bytes : ByteArray) (i : Nat) (r : List UInt8) :
    ByteArray.toList.loop bytes i r = r.reverse ++ bytes.data.toList.drop i := by
  fun_induction ByteArray.toList.loop bytes i r with
  | case1 i r hi ih =>
    have hlt : i < bytes.data.toList.length := hi
    have hbyte : bytes.get! i = bytes.data.toList[i] := by
      simp only [ByteArray.get!, Array.getElem_toList]
      exact getElem!_pos bytes.data i hi
    rw [ih, List.drop_eq_getElem_cons hlt, hbyte]
    simp
  | case2 i r hi => rw [List.drop_eq_nil_of_le (Nat.not_lt.mp hi), List.append_nil]

theorem terminatedBytes_inj {a b : String} (h : terminatedBytes a = terminatedBytes b) : a = b := by
  have hbytes : a.toUTF8.toList = b.toUTF8.toList := List.append_cancel_right h
  have hlist (bytes : ByteArray) : bytes.toList = bytes.data.toList := by
    simp [ByteArray.toList, byteArray_loop]
  rw [hlist, hlist] at hbytes
  exact String.toByteArray_inj.mp (ByteArray.ext (Array.toList_inj.mp hbytes))

theorem escapeBytes_injective {a b : String} (h : escapeBytes a = escapeBytes b) : a = b := by
  have hread := (quoted_escapeBytes a).quotedBytes_eq
  rw [h, (quoted_escapeBytes b).quotedBytes_eq] at hread
  exact terminatedBytes_inj hread.symm

/-! ### The strings of a module -/

/-- What is written of a function depends on the names of the strings and not on what they hold. -/
theorem Function.text_congr {m m' : Module}
    (hglobals : ∀ id, (m'.global id).name = (m.global id).name)
    (hfunctions : m'.functions = m.functions) (f : Function) : f.text m' = f.text m := by
  have hvalue : f.valueName m' = f.valueName m := by
    funext v
    cases v with
    | global id => exact congrArg ("@" ++ ·) (hglobals id)
    | _ => rfl
  have htyped : f.typedValue m' = f.typedValue m := by
    funext v
    rw [typedValue, typedValue, hvalue]
  have hcallee (id : FuncId) : m'.function id = m.function id := by
    rw [Module.function, Module.function, hfunctions]
  have hop : f.opText m' = f.opText m := by
    funext ty op
    cases op with
    | ret value => cases value <;> simp only [opText, htyped]
    | _ => simp only [opText, hvalue, htyped, hcallee]
  have hinst : f.instText m' = f.instText m := by
    funext k i
    unfold instText
    rw [hop]
  have hblock : f.blockText m' = f.blockText m := by
    funext b
    unfold blockText
    rw [hinst]
  have hdefinition : f.definitionText m' = f.definitionText m := by
    unfold definitionText
    rw [hblock]
  unfold text
  rw [hdefinition]

/-- The line of a string up to the quote that opens it. -/
def GlobalString.lead (g : GlobalString) :
    List Char := '@' :: (g.name.toList ++ " = private constant c".toList)

theorem GlobalString.lead_congr {g h : GlobalString} (hname : g.name = h.name) :
    g.lead = h.lead := by
  rw [lead, lead, hname]

theorem GlobalString.toList_line (g : GlobalString) :
    g.line.toList = g.lead ++ '"' :: ((escapeBytes g.text).toList ++ ['"', '\n']) := by
  simp [line, lead]

theorem quote_not_mem_escapeBytes (text : String) : '"' ∉ (escapeBytes text).toList := fun hmem =>
  absurd ((quoted_escapeBytes text).forall_isQuotable _ hmem) (by decide)

/-- A text is cut in one way at its first quote. -/
theorem append_quote_inj {as bs cs ds : List Char} (ha : '"' ∉ as) (hc : '"' ∉ cs)
    (h : as ++ '"' :: bs = cs ++ '"' :: ds) : as = cs ∧ bs = ds := by
  -- Read backwards, it is the last quote.
  have hreverse : bs.reverse ++ '"' :: as.reverse = ds.reverse ++ '"' :: cs.reverse := by
    simpa using congrArg List.reverse h
  have ⟨hbs, has⟩ := NameSupply.append_cons_inj_of_last (by simpa using ha)
    (by simpa using hc) hreverse
  exact ⟨List.reverse_inj.mp has, List.reverse_inj.mp hbs⟩

/-- Strings of the same names that are written in the same lines hold the same. -/
theorem lines_inj {gs hs : List GlobalString} (hnames : gs.map (·.name) = hs.map (·.name))
    (h : gs.flatMap (·.line.toList) = hs.flatMap (·.line.toList)) : gs = hs := by
  induction gs generalizing hs with
  | nil => exact (List.map_eq_nil_iff.mp hnames.symm).symm
  | cons g gs ih =>
    cases hs with
    | nil => cases hnames
    | cons g' hs =>
      have ⟨hname, hrest⟩ := List.cons.inj hnames
      rw [List.flatMap_cons, List.flatMap_cons, g.toList_line, g'.toList_line,
        GlobalString.lead_congr hname] at h
      simp only [List.append_assoc, List.cons_append, List.nil_append] at h
      have hquoted := List.cons.inj (List.append_cancel_left h)
      have ⟨htext, hlines⟩ :=
        append_quote_inj (quote_not_mem_escapeBytes g.text)
          (quote_not_mem_escapeBytes g'.text) hquoted.2
      have hg : g = g' := by
        cases g
        cases g'
        exact congrArg₂ GlobalString.mk hname (escapeBytes_injective (String.toList_inj.mp htext))
      rw [hg, ih hrest (List.cons.inj hlines).2]

/-- What strings hold adds none of the characters that may not stand between quotes. -/
theorem count_lines {gs hs : List GlobalString} (hnames : gs.map (·.name) = hs.map (·.name))
    {c : Char} (hc : isQuotable c = false) :
    (gs.flatMap (·.line.toList)).count c = (hs.flatMap (·.line.toList)).count c := by
  have hline (g : GlobalString) : g.line.toList.count c
      = g.lead.count c + ['"', '"', '\n'].count c := by
    have hzero : (escapeBytes g.text).toList.count c = 0 := by
      refine List.count_eq_zero.mpr fun hmem => ?_
      rw [(quoted_escapeBytes g.text).forall_isQuotable c hmem] at hc
      cases hc
    rw [g.toList_line, List.count_append, List.count_cons, List.count_append, hzero, Nat.zero_add,
      ← List.count_cons]
  induction gs generalizing hs with
  | nil => rw [List.map_eq_nil_iff.mp hnames.symm]
  | cons g gs ih =>
    cases hs with
    | nil => cases hnames
    | cons g' hs =>
      have ⟨hname, hrest⟩ := List.cons.inj hnames
      rw [List.flatMap_cons, List.flatMap_cons, List.count_append, List.count_append, hline, hline,
        GlobalString.lead_congr hname, ih hrest]

/-- All that a module writes about what its strings hold is in their lines. -/
theorem Module.text_withGlobals (m : Module) : ∃ head rest : List Char, ∀ gs : List GlobalString,
    gs.map (·.name) = m.globals.map (·.name) →
      ({ m with globals := gs } : Module).text.toList
        = head ++ (gs.flatMap (·.line.toList) ++ rest) := by
  refine ⟨("; module " ++ m.name ++ "\n" ++
    m.targetTriple.elim "" fun triple => "target triple = \"" ++ triple ++ "\"\n").toList,
    (String.join (m.functions.map fun f => "\n" ++ f.text m)).toList, fun gs hnames => ?_⟩
  have hglobals (id : GlobalId) : (({ m with globals := gs } : Module).global id).name
      = (m.global id).name := by
    have hat : (gs[id]?).map (·.name) = (m.globals[id]?).map (·.name) := by
      rw [← List.getElem?_map, hnames, List.getElem?_map]
    calc ((gs[id]?).getD default).name
      _ = ((gs[id]?).map (·.name)).getD (default : GlobalString).name := (Option.getD_map ..).symm
      _ = ((m.globals[id]?).map (·.name)).getD (default : GlobalString).name := by rw [hat]
      _ = ((m.globals[id]?).getD default).name := Option.getD_map ..
  have hfunctions : (fun f : Function => "\n" ++ f.text { m with globals := gs })
      = fun f => "\n" ++ f.text m := by
    funext f
    rw [Function.text_congr hglobals rfl f]
  have hlines : (String.join (gs.map GlobalString.line)).toList = gs.flatMap (·.line.toList) := by
    rw [String.toList_join, List.flatMap_map]
  unfold Module.text
  rw [hfunctions]
  cases m.targetTriple <;> simp only [String.toList_append, hlines, List.append_assoc, Option.elim]

/-- **Strings in the text of a module.**  What is written of a text between quotes is printable
ASCII without a quote, every backslash in it begins an escape of two hexadecimal digits in upper
case, and read back it is the text in UTF-8 and a NUL.  So different texts are written differently.
The line of a string ends with the quote that closes it, and what comes before the text depends on
the name alone.  In a whole module, if its strings are given other texts under the same names, the
text of the module has as many lines and quotes as before, and as many of any other character that
may not stand between quotes; and it is the same only if all the strings are. -/
theorem escapeBytes_quoted :
    (∀ text : String,
      (∀ c ∈ (escapeBytes text).toList, isQuotable c = true) ∧
      (∀ before after, (escapeBytes text).toList = before ++ '\\' :: after →
        ∃ high low rest, after = high :: low :: rest ∧ isUpperHex high = true ∧
          isUpperHex low = true) ∧
      quotedBytes (escapeBytes text).toList = text.toUTF8.toList ++ [0] ∧
      ∀ other, escapeBytes other = escapeBytes text → other = text) ∧
    (∀ g : GlobalString, g.line.toList = g.lead ++ '"'
      :: ((escapeBytes g.text).toList ++ ['"', '\n'])) ∧
    ∀ (m : Module) (gs : List GlobalString), gs.map (·.name) = m.globals.map (·.name) →
      (∀ c, isQuotable c = false →
        ({ m with globals := gs } : Module).text.toList.count c = m.text.toList.count c) ∧
      (({ m with globals := gs } : Module).text = m.text → gs = m.globals) := by
  refine ⟨fun text => ?_, GlobalString.toList_line, fun m gs hnames => ?_⟩
  · have hquoted := quoted_escapeBytes text
    exact ⟨hquoted.forall_isQuotable, fun _ _ => hquoted.escape_of_backslash,
      hquoted.quotedBytes_eq, fun _ => escapeBytes_injective⟩
  · obtain ⟨head, rest, htext⟩ := m.text_withGlobals
    have hself : m.text.toList = head ++ (m.globals.flatMap (·.line.toList) ++ rest) :=
      htext m.globals rfl
    refine ⟨fun c hc => ?_, fun h => lines_inj hnames ?_⟩
    · rw [htext gs hnames, hself]
      simp only [List.count_append, count_lines hnames hc]
    · have hchars := congrArg String.toList h
      rw [htext gs hnames, hself] at hchars
      exact List.append_cancel_right (List.append_cancel_left hchars)

/-- A line break and the three characters of its escape are different in a string, and stay so in
the text of a module, which has as many lines with the one as with the other. -/
theorem escapeBytes_quoted_lineBreak :
    let m : Module := { name := "m", globals := [⟨"str", "a\nb"⟩] }
    let gs : List GlobalString := [⟨"str", "a\\0Ab"⟩]
    gs.map (·.name) = m.globals.map (·.name) ∧ escapeBytes "a\nb" = "a\\0Ab\\00" ∧
      ({ m with globals := gs } : Module).text ≠ m.text ∧
      ({ m with globals := gs } : Module).text.toList.count '\n' = m.text.toList.count '\n' := by
  intro m gs
  have ⟨hcount, hsame⟩ := escapeBytes_quoted.2.2 m gs rfl
  exact ⟨rfl, by decide +kernel, fun h => absurd (hsame h) (by decide), hcount '\n' (by decide)⟩

end TreeCompiler.IR
