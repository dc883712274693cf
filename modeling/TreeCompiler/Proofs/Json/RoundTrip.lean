/-
Written JSON reads back.

A value that is written, on one line or over several, and read again is the value it was, but for
its numbers.  A number with a fraction or an exponent is kept as digits and a power of ten, and
there are many ways to write one down, so it comes back as some other decimal: the one that its text
stands for.  `Reads` says this of two values.  Strings come back as they were, whatever is in them.

Both printers keep to the grammar, so that what they write is read.
-/
import TreeCompiler.Proofs.Json.Grammar

namespace TreeCompiler.Json

/-! ### Strings -/

theorem hexValue4?_of_lt : ∀ n < 32,
    hexValue4? '0' '0' (lowerHexDigit (n / 16)) (lowerHexDigit n) = some n := by
  decide

/-- A character is written as one unit, which stands for it. -/
theorem literal_escapeChar (c : Char) :
    ∃ u : StringUnit, (u = .char c ∨ u = .code c.toNat ∧ c.toNat < 32) ∧
    ∀ {cs units}, Literal cs units → Literal (escapeChar c ++ cs) (u :: units) := by
  unfold escapeChar
  split
  iterate 7
    exact ⟨_, .inl rfl, .escape rfl⟩
  rename_i hquote hslash _ _ _ _ _
  split
  · rename_i hlt
    exact ⟨.code c.toNat, .inr ⟨rfl, hlt⟩, .code (hexValue4?_of_lt c.toNat hlt)⟩
  · rename_i hge
    exact ⟨.char c, .inl rfl, .plain (Nat.not_lt.mp hge) (fun h => hquote h) (fun h => hslash h)⟩

/-- A number below the blank is no surrogate, whatever follows it. -/
theorem decodeUnits_code {n : Nat} (hn : n < 32) (units : List StringUnit) :
    decodeUnits (.code n :: units) = (decodeUnits units).map (Char.ofNat n :: ·) := by
  have hhigh : isHighSurrogate n = false := by simp [isHighSurrogate]; omega
  have hlow : isLowSurrogate n = false := by simp [isLowSurrogate]; omega
  cases units with
  | nil => simp [decodeUnits, hhigh, hlow]
  | cons u units => cases u <;> simp [decodeUnits, hhigh, hlow]

theorem literal_flatMap (cs : List Char) :
    ∃ units, Literal (cs.flatMap escapeChar) units ∧ decodeUnits units = some cs := by
  induction cs with
  | nil => exact ⟨[], .nil, rfl⟩
  | cons c cs ih =>
    obtain ⟨units, hliteral, hdecode⟩ := ih
    obtain ⟨u, hu, hchar⟩ := literal_escapeChar c
    refine ⟨u :: units, ?_, ?_⟩
    · rw [List.flatMap_cons]
      exact hchar hliteral
    · rcases hu with rfl | ⟨rfl, hlt⟩
      · rw [decodeUnits, hdecode]
        rfl
      · rw [decodeUnits_code hlt, hdecode, Char.ofNat_toNat]
        rfl

/-- A text in quotes denotes the text. -/
theorem quoted_quote (s : String) : Quoted (quote s.toList) (some s) := by
  obtain ⟨units, hliteral, hdecode⟩ := literal_flatMap s.toList
  have hquoted := Quoted.intro hliteral
  rwa [hdecode, Option.map_some, String.ofList_toList] at hquoted

/-! ### Values -/

mutual

/-- The text of the first value is read as the second: they are the same but for their numbers, and
each number of the second is what the text of its counterpart stands for. -/
inductive Reads : Json → Json → Prop where
  | null : Reads .null .null
  | bool (b : Bool) : Reads (.bool b) (.bool b)
  | num {n m : Number} (h : readNumber n.render = some (m, [])) : Reads (.num n) (.num m)
  | str (s : String) : Reads (.str (some s)) (.str (some s))
  | arr {items items' : List Json} (h : ReadsItems items items') : Reads (.arr items) (.arr items')
  | obj {members members' : List (Option String × Json)} (h : ReadsMembers members members') :
    Reads (.obj members) (.obj members')

inductive ReadsItems : List Json → List Json → Prop where
  | nil : ReadsItems [] []
  | cons {j j' : Json} {items items' : List Json} (head : Reads j j')
      (tail : ReadsItems items items') :
    ReadsItems (j :: items) (j' :: items')

inductive ReadsMembers : List (Option String × Json) → List (Option String × Json) → Prop where
  | nil : ReadsMembers [] []
  | cons {j j' : Json} {members members' : List (Option String × Json)} (key : String)
      (head : Reads j j') (tail : ReadsMembers members members') :
    ReadsMembers ((some key, j) :: members) ((some key, j') :: members')

end

theorem reads_nat (n : Nat) : Reads (.nat n) (.nat n) :=
  .num (readNumber_integer false n)

theorem reads_int (n : Int) : Reads (.int n) (.int n) :=
  .num (readNumber_integer _ _)

theorem reads_text (s : String) : Reads (.text s) (.text s) :=
  .str s

theorem reads_textOrNull (s : Option String) : Reads (.textOrNull s) (.textOrNull s) := by
  cases s with
  | none => exact .null
  | some s => exact reads_text s

theorem reads_arr {items : List Json} (h : ∀ j ∈ items, Reads j j) :
    Reads (.arr items) (.arr items) := by
  refine .arr ?_
  induction items with
  | nil => exact .nil
  | cons j items ih =>
    exact .cons (h j List.mem_cons_self) (ih fun k hk => h k (List.mem_cons_of_mem j hk))

theorem reads_object {members : List (String × Json)} (h : ∀ m ∈ members, Reads m.2 m.2) :
    Reads (object members) (object members) := by
  refine .obj ?_
  induction members with
  | nil => exact .nil
  | cons m members ih =>
    exact .cons m.1 (h m List.mem_cons_self) (ih fun k hk => h k (List.mem_cons_of_mem m hk))

/-! ### On one line -/

theorem compactMembers_cons_cons (key : Option String) (j : Json) (m : Option String × Json)
    (members : List (Option String × Json)) : compactMembers ((key, j) :: m :: members) =
      renderText key ++ ':' :: j.compact ++ ',' :: compactMembers (m :: members) := rfl

theorem blank_nil : Blank [] := by
  simp [Blank]

theorem Spells.padded {cs : List Char} {j : Json} (h : Spells cs j) : Padded cs j := by
  simpa using Padded.intro blank_nil h blank_nil

mutual

theorem Reads.spells_compact : ∀ {j j' : Json}, Reads j j' → Spells j.compact j'
  | _, _, .null => .null
  | _, _, .bool b => by
    cases b
    · exact .bool false
    · exact .bool true
  | _, _, .num h => .num h
  | _, _, .str s => .str (quoted_quote s)
  | _, _, @Reads.arr items _ h => by
    have hitems := h.spells_compact
    cases items with
    | nil =>
      cases h
      exact .arr_nil blank_nil
    | cons k items => exact .arr (hitems (by simp))
  | _, _, @Reads.obj members _ h => by
    have hmembers := h.spells_compact
    cases members with
    | nil =>
      cases h
      exact .obj_nil blank_nil
    | cons m members => exact .obj (hmembers (by simp))

theorem ReadsItems.spells_compact :
    ∀ {items items' : List Json}, ReadsItems items items' → items ≠ [] →
    SpellsItems (compactItems items) items'
  | _, _, .nil, hne => absurd rfl hne
  | _, _, @ReadsItems.cons _ _ items _ head tail, _ => by
    have hhead := head.spells_compact.padded
    have htail := tail.spells_compact
    cases items with
    | nil =>
      cases tail
      exact .one hhead
    | cons k items => exact .cons hhead (htail (by simp))

theorem ReadsMembers.spells_compact : ∀ {members members' : List (Option String × Json)},
    ReadsMembers members members' → members ≠ [] → SpellsMembers (compactMembers members) members'
  | _, _, .nil, hne => absurd rfl hne
  | _, _, @ReadsMembers.cons _ _ members _ key head tail, _ => by
    have hhead := head.spells_compact.padded
    have htail := tail.spells_compact
    cases members with
    | nil =>
      cases tail
      exact .one blank_nil (quoted_quote key) blank_nil hhead
    | cons m members =>
      rw [compactMembers_cons_cons]
      simpa [renderText] using SpellsMembers.cons blank_nil (quoted_quote key) blank_nil hhead
        (htail (by simp))

end

/-- Reading the text of a value gives the value, with each number as its text has it. -/
theorem Reads.ofString? {j j' : Json} (h : Reads j j') : Json.ofString? j.render = some j' := by
  simpa [Json.ofString?, render] using h.spells_compact.padded.ofChars?

/-! ### Over several lines -/

theorem blank_space : Blank [' '] := by
  simp [Blank, isBlank]

theorem blank_newline (level : Nat) : Blank (newline level) := by
  simp [Blank, newline, isBlank]

theorem indentedItems_cons_cons (level : Nat) (j k : Json) (items : List Json) :
    indentedItems level (j :: k :: items) =
      newline (level + 1) ++ j.indented (level + 1) ++ ',' :: indentedItems level (k :: items) :=
        rfl

theorem indentedMembers_cons_cons (level : Nat) (key : Option String) (j : Json)
    (m : Option String × Json) (members : List (Option String × Json)) :
    indentedMembers level ((key, j) :: m :: members) =
      newline (level + 1) ++ renderText key ++ ':' :: ' ' :: j.indented (level + 1) ++
        ',' :: indentedMembers level (m :: members) := rfl

mutual

-- The line break before a closing bracket is what follows the last item, so the items are written
-- with it.
theorem Reads.spells_indented :
    ∀ {j j' : Json} (level : Nat), Reads j j' → Spells (j.indented level) j'
  | _, _, _, .null => .null
  | _, _, _, .bool b => by
    cases b
    · exact .bool false
    · exact .bool true
  | _, _, _, .num h => .num h
  | _, _, _, .str s => .str (quoted_quote s)
  | _, _, level, @Reads.arr items _ h => by
    have hitems := h.spells_indented level (blank_newline level)
    cases items with
    | nil =>
      cases h
      exact .arr_nil blank_nil
    | cons k items => exact .arr (hitems (by simp))
  | _, _, level, @Reads.obj members _ h => by
    have hmembers := h.spells_indented level (blank_newline level)
    cases members with
    | nil =>
      cases h
      exact .obj_nil blank_nil
    | cons m members => exact .obj (hmembers (by simp))

theorem ReadsItems.spells_indented :
    ∀ {items items' : List Json} {blanks : List Char} (level : Nat), Blank blanks →
    ReadsItems items items' → items ≠ [] → SpellsItems (indentedItems level items ++ blanks) items'
  | _, _, _, _, _, .nil, hne => absurd rfl hne
  | _, _, _, level, hblanks, @ReadsItems.cons _ _ items _ head tail, _ => by
    have hhead := head.spells_indented (level + 1)
    have htail := tail.spells_indented level hblanks
    have hline := blank_newline (level + 1)
    cases items with
    | nil =>
      cases tail
      simpa [indentedItems] using SpellsItems.one (.intro hline hhead hblanks)
    | cons k items =>
      rw [indentedItems_cons_cons]
      simpa using SpellsItems.cons (.intro hline hhead blank_nil) (htail (by simp))

theorem ReadsMembers.spells_indented :
    ∀ {members members' : List (Option String × Json)} {blanks : List Char}
    (level : Nat), Blank blanks → ReadsMembers members members' → members ≠ [] →
    SpellsMembers (indentedMembers level members ++ blanks) members'
  | _, _, _, _, _, .nil, hne => absurd rfl hne
  | _, _, _, level, hblanks, @ReadsMembers.cons _ _ members _ key head tail, _ => by
    have hhead := head.spells_indented (level + 1)
    have htail := tail.spells_indented level hblanks
    have hline := blank_newline (level + 1)
    cases members with
    | nil =>
      cases tail
      simpa [indentedMembers, renderText] using
        SpellsMembers.one hline (quoted_quote key) blank_nil (.intro blank_space hhead hblanks)
    | cons m members =>
      rw [indentedMembers_cons_cons]
      simpa [renderText] using
        SpellsMembers.cons hline (quoted_quote key) blank_nil (.intro blank_space hhead blank_nil)
          (htail (by simp))

end

/-- Reading the text of a value over several lines gives the value in the same way. -/
theorem Reads.ofString?_pretty {j j' : Json} (h : Reads j j') :
    Json.ofString? j.pretty = some j' := by
  simpa [Json.ofString?, pretty] using (h.spells_indented 0).padded.ofChars?

end TreeCompiler.Json
