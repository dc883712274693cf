/-
The grammar of JSON, and that the reader reads all of it.

`Literal` is about what stands between the quotes of a string, and `Spells` about values, with any
blanks between their tokens.  A number is whatever the reader of numbers takes to its end; what that
is stands with the numbers.

The reader of values is given fuel, and its three parts call each other with less of it.  They are
followed in the same way: `Enough` says of an amount of fuel that all three read a text that is
short enough for it.
-/
import TreeCompiler.Proofs.Json.Numbers

namespace TreeCompiler.Json

/-! ### Strings -/

/-- What stands between the quotes of a string, and the units it is made of. -/
inductive Literal : List Char → List StringUnit → Prop where
  | nil : Literal [] []
  | plain {c : Char} {cs : List Char} {units : List StringUnit} (hc : 0x20 ≤ c.toNat)
      (hquote : c ≠ '"') (hslash : c ≠ '\\') (h : Literal cs units) :
      Literal (c :: cs) (.char c :: units)
  | escape {e c : Char} {cs : List Char} {units : List StringUnit} (hc : shortEscape? e = some c)
      (h : Literal cs units) : Literal ('\\' :: e :: cs) (.char c :: units)
  | code {a b c d : Char} {n : Nat} {cs : List Char} {units : List StringUnit}
      (hn : hexValue4? a b c d = some n) (h : Literal cs units) :
      Literal ('\\' :: 'u' :: a :: b :: c :: d :: cs) (.code n :: units)

/-- A string with its quotes, and the text it denotes, if any. -/
inductive Quoted : List Char → Option String → Prop where
  | intro {cs : List Char} {units : List StringUnit} (h : Literal cs units) :
    Quoted ('"' :: (cs ++ ['"'])) ((decodeUnits units).map String.ofList)

/-- A two-character escape is read as the character it stands for. -/
theorem readUnits_shortEscape {e c : Char} (h : shortEscape? e = some c) (cs : List Char) :
    readUnits ('\\' :: e :: cs) = (readUnits cs).map fun q => (.char c :: q.1, q.2) := by
  have hu : e ≠ 'u' := by
    rintro rfl
    simp [shortEscape?] at h
  rw [readUnits.eq_4 e cs fun _ _ _ _ _ he _ => hu he, h]
  cases readUnits cs <;> rfl

theorem readUnits_plain {c : Char} (hc : 0x20 ≤ c.toNat) (hquote : c ≠ '"') (hslash : c ≠ '\\')
    (cs : List Char) :
    readUnits (c :: cs) = (readUnits cs).map fun q => (.char c :: q.1, q.2) := by
  rw [readUnits.eq_5 c cs (fun h => hquote h) (fun _ _ _ _ _ h _ => hslash h)
    (fun _ _ h _ => hslash h)]
  rw [if_neg (by simpa using ⟨hc, hslash⟩)]
  cases readUnits cs <;> rfl

theorem Literal.readUnits {cs : List Char} {units : List StringUnit} (h : Literal cs units)
    (rest : List Char) :
    readUnits (cs ++ '"' :: rest) = some (units, rest) := by
  induction h with
  | nil => rfl
  | plain hc hquote hslash _ ih =>
    rw [List.cons_append, readUnits_plain hc hquote hslash, ih, Option.map_some]
  | escape hc _ ih =>
    rw [List.cons_append, List.cons_append, readUnits_shortEscape hc, ih, Option.map_some]
  | code hn _ ih => simp [Json.readUnits, hn, ih]

theorem Quoted.readString {cs : List Char} {s : Option String} (h : Quoted cs s)
    (rest : List Char) :
    ∃ text, cs ++ rest = '"' :: text ∧ readString text = some (s, rest) := by
  obtain @⟨body, units, hbody⟩ := h
  refine ⟨body ++ '"' :: rest, by simp, ?_⟩
  simp [Json.readString, hbody.readUnits]

/-! ### Values -/

/-- Only characters that may stand between tokens. -/
def Blank (cs : List Char) : Prop := ∀ c ∈ cs, isBlank c = true

mutual

/-- The text of a value, from its first character to its last. -/
inductive Spells : List Char → Json → Prop where
  | null : Spells "null".toList .null
  | bool (b : Bool) : Spells (toString b).toList (.bool b)
  | num {cs : List Char} {n : Number} (h : readNumber cs = some (n, [])) : Spells cs (.num n)
  | str {cs : List Char} {s : Option String} (h : Quoted cs s) : Spells cs (.str s)
  | arr_nil {cs : List Char} (h : Blank cs) : Spells ('[' :: (cs ++ [']'])) (.arr [])
  | arr {cs : List Char} {items : List Json} (h : SpellsItems cs items) :
      Spells ('[' :: (cs ++ [']'])) (.arr items)
  | obj_nil {cs : List Char} (h : Blank cs) : Spells ('\x7b' :: (cs ++ ['\x7d'])) (.obj [])
  | obj {cs : List Char} {members : List (Option String × Json)} (h : SpellsMembers cs members) :
    Spells ('\x7b' :: (cs ++ ['\x7d'])) (.obj members)

/-- The text of a value with blanks on both sides. -/
inductive Padded : List Char → Json → Prop where
  | intro {before cs after : List Char} {j : Json} (hbefore : Blank before) (h : Spells cs j)
      (hafter : Blank after) :
    Padded (before ++ (cs ++ after)) j

/-- The text of one or more items of an array. -/
inductive SpellsItems : List Char → List Json → Prop where
  | one {cs : List Char} {j : Json} (h : Padded cs j) : SpellsItems cs [j]
  | cons {cs rest : List Char} {j : Json} {items : List Json} (h : Padded cs j)
      (tail : SpellsItems rest items) :
    SpellsItems (cs ++ ',' :: rest) (j :: items)

/-- The text of one or more members of an object. -/
inductive SpellsMembers : List Char → List (Option String × Json) → Prop where
  | one {before name after cs : List Char} {key : Option String} {j : Json} (hbefore : Blank before)
      (hkey : Quoted name key) (hafter : Blank after) (h : Padded cs j) :
    SpellsMembers (before ++ (name ++ (after ++ ':' :: cs))) [(key, j)]
  | cons {before name after cs rest : List Char} {key : Option String} {j : Json}
      {members : List (Option String × Json)} (hbefore : Blank before) (hkey : Quoted name key)
      (hafter : Blank after) (h : Padded cs j) (tail : SpellsMembers rest members) :
    SpellsMembers (before ++ (name ++ (after ++ ':' :: (cs ++ ',' :: rest)))) ((key, j) :: members)

end

/-! ### Blanks -/

theorem skipBlanks_cons {c : Char} (hc : isBlank c = false) (cs : List Char) :
    skipBlanks (c :: cs) = c :: cs :=
  List.dropWhile_cons_of_neg (by simp [hc])

theorem isBlank_of_number {c : Char} (hc : c = '-' ∨ c.isDigit = true) : isBlank c = false := by
  rcases hc with rfl | hc
  · decide
  · cases hblank : isBlank c with
    | false => rfl
    | true =>
      simp only [isBlank, Bool.or_eq_true, decide_eq_true_eq] at hblank
      rcases hblank with ((rfl | rfl) | rfl) | rfl <;> simp at hc

theorem skipBlanks_append {blanks : List Char} (h : Blank blanks) (cs : List Char) :
    skipBlanks (blanks ++ cs) = skipBlanks cs :=
  List.dropWhile_append_of_pos h

/-- A blank ends a number. -/
theorem Stops.append {blanks rest : List Char} (hblanks : Blank blanks) (hrest : Stops rest) :
    Stops (blanks ++ rest) := by
  cases blanks with
  | nil => exact hrest
  | cons c blanks =>
    rintro d ⟨⟩
    have hc := hblanks c List.mem_cons_self
    simp only [isBlank, Bool.or_eq_true, decide_eq_true_eq] at hc
    rcases hc with ((rfl | rfl) | rfl) | rfl <;> simp

/-- The text of a value starts with neither a blank nor a closing bracket. -/
theorem Spells.head {cs : List Char} {j : Json} (h : Spells cs j) :
    ∃ c tail, cs = c :: tail ∧ isBlank c = false ∧ c ≠ ']' := by
  cases h with
  | null => exact ⟨_, _, rfl, by decide, by decide⟩
  | bool b => cases b <;> exact ⟨_, _, rfl, by decide, by decide⟩
  | num hnum =>
    obtain ⟨c, tail, hcs, hc⟩ := readNumber_head hnum
    refine ⟨c, tail, hcs, isBlank_of_number hc, ?_⟩
    rintro rfl
    simp at hc
  | str hquoted =>
    cases hquoted
    exact ⟨_, _, rfl, by decide, by decide⟩
  | arr_nil _ => exact ⟨_, _, rfl, by decide, by decide⟩
  | arr _ => exact ⟨_, _, rfl, by decide, by decide⟩
  | obj_nil _ => exact ⟨_, _, rfl, by decide, by decide⟩
  | obj _ => exact ⟨_, _, rfl, by decide, by decide⟩

theorem Padded.head {cs : List Char} {j : Json} (h : Padded cs j) (rest : List Char) :
    ∃ c tail, skipBlanks (cs ++ rest) = c :: tail ∧ isBlank c = false ∧ c ≠ ']' := by
  obtain @⟨before, text, after, _, hbefore, hspells, -⟩ := h
  obtain ⟨c, tail, rfl, hblank, hclose⟩ := hspells.head
  refine ⟨c, tail ++ (after ++ rest), ?_, hblank, hclose⟩
  rw [List.append_assoc, skipBlanks_append hbefore, List.append_assoc, List.cons_append,
    skipBlanks_cons hblank]

theorem SpellsItems.head {cs : List Char} {items : List Json} (h : SpellsItems cs items)
    (rest : List Char) :
    ∃ c tail, skipBlanks (cs ++ rest) = c :: tail ∧ isBlank c = false ∧ c ≠ ']' := by
  cases h with
  | one h => exact h.head rest
  | @cons cs more j items h tail =>
    rw [List.append_assoc]
    exact h.head _

theorem Quoted.head {cs : List Char} {s : Option String} (h : Quoted cs s) (rest : List Char) :
    ∃ tail, skipBlanks (cs ++ rest) = '"' :: tail := by
  cases h
  exact ⟨_, rfl⟩

theorem SpellsMembers.head {cs : List Char} {members : List (Option String × Json)}
    (h : SpellsMembers cs members) (rest : List Char) :
    ∃ tail, skipBlanks (cs ++ rest) = '"' :: tail := by
  cases h with
  | one hbefore hkey _ _ =>
    rw [List.append_assoc, skipBlanks_append hbefore, List.append_assoc]
    exact hkey.head _
  | cons hbefore hkey _ _ _ =>
    rw [List.append_assoc, skipBlanks_append hbefore, List.append_assoc]
    exact hkey.head _

/-! ### Reading a text of the grammar -/

/-- A text that is a number is read as a value in the same way. -/
theorem readValue_number {cs r : List Char} {n : Number} (fuel : Nat)
    (h : readNumber cs = some (n, r)) :
    readValue (fuel + 1) cs = some (.num n, r) := by
  obtain ⟨c, tail, rfl, hc⟩ := readNumber_head h
  have hne : ∀ d : Char, d ≠ '-' → d.isDigit = false → c ≠ d := by
    rintro d hminus hdigit rfl
    simp [hminus, hdigit] at hc
  unfold readValue
  split
  iterate 6
    rename_i heq
    cases heq
    exact absurd rfl (hne _ (by decide) (by decide))
  rw [h]
  rfl

/-- With this much fuel the three readers read a text of the grammar. -/
structure Enough (fuel : Nat) : Prop where
  value : ∀ {cs : List Char} {j : Json} (rest : List Char), Spells cs j → Stops rest →
    2 * cs.length ≤ fuel →
    readValue fuel (cs ++ rest) = some (j, rest)
  items : ∀ {cs : List Char} {items : List Json} (rest : List Char), SpellsItems cs items →
    2 * cs.length < fuel →
    readItems fuel (skipBlanks (cs ++ ']' :: rest)) = some (items, rest)
  members : ∀ {cs : List Char} {members : List (Option String × Json)} (rest : List Char),
    SpellsMembers cs members → 2 * cs.length < fuel →
    readMembers fuel (skipBlanks (cs ++ '\x7d' :: rest)) = some (members, rest)

namespace Enough

variable {fuel : Nat}

theorem zero : Enough 0 where
  value _ h _ hfuel := by
    obtain ⟨c, tail, rfl, -⟩ := h.head
    simp at hfuel
  items _ _ hfuel := absurd hfuel (Nat.not_lt_zero _)
  members _ _ hfuel := absurd hfuel (Nat.not_lt_zero _)

/-- A value with blanks on both sides is read, and what follows it is left. -/
theorem padded (ih : Enough fuel) {cs rest : List Char} {j : Json} (h : Padded cs j)
    (hrest : Stops rest) (hskip : skipBlanks rest = rest) (hfuel : 2 * cs.length ≤ fuel) :
    ∃ left, readValue fuel (skipBlanks (cs ++ rest)) = some (j, left) ∧ skipBlanks left = rest := by
  obtain @⟨before, text, after, _, hbefore, hspells, hafter⟩ := h
  refine ⟨after ++ rest, ?_, by rw [skipBlanks_append hafter, hskip]⟩
  have hvalue := ih.value (after ++ rest) hspells (.append hafter hrest) (by
    simp only [List.length_append] at hfuel
    omega)
  obtain ⟨c, tail, rfl, hblank, -⟩ := hspells.head
  rw [List.append_assoc, skipBlanks_append hbefore, List.append_assoc]
  rwa [List.cons_append, skipBlanks_cons hblank]

/-- The same before a separator or a closing bracket. -/
theorem padded_cons (ih : Enough fuel) {cs : List Char} {j : Json} (h : Padded cs j) {c : Char}
    (hc : c ∈ [',', ']', '\x7d']) (rest : List Char) (hfuel : 2 * cs.length ≤ fuel) :
    ∃ left, readValue fuel (skipBlanks (cs ++ c :: rest)) = some (j, left) ∧
      skipBlanks left = c :: rest := by
  have hblank : isBlank c = false := by
    simp only [List.mem_cons, List.not_mem_nil, or_false] at hc
    rcases hc with rfl | rfl | rfl <;> rfl
  exact ih.padded h (stops_cons hc rest) (skipBlanks_cons hblank rest) hfuel

theorem value_succ (ih : Enough fuel) {cs : List Char} {j : Json} (rest : List Char)
    (h : Spells cs j) (hrest : Stops rest) (hfuel : 2 * cs.length ≤ fuel + 1) :
    readValue (fuel + 1) (cs ++ rest) = some (j, rest) := by
  cases h with
  | null => rfl
  | bool b => cases b <;> rfl
  | num hnum => exact readValue_number fuel (readNumber_append hrest hnum)
  | str hquoted =>
    obtain ⟨text, htext, hread⟩ := hquoted.readString rest
    rw [htext]
    simp [readValue, hread]
  | @arr_nil cs hblank =>
    have hskip : skipBlanks (cs ++ ']' :: rest) = ']' :: rest := by
      rw [skipBlanks_append hblank, skipBlanks_cons rfl]
    simp [readValue, hskip]
  | @arr cs items hitems =>
    have hread := ih.items rest hitems (by
      simp only [List.length_cons, List.length_append] at hfuel
      omega)
    obtain ⟨c, tail, hcs, -, hclose⟩ := hitems.head (']' :: rest)
    rw [hcs] at hread
    simp [readValue, hcs, hclose, hread]
  | @obj_nil cs hblank =>
    have hskip : skipBlanks (cs ++ '\x7d' :: rest) = '\x7d' :: rest := by
      rw [skipBlanks_append hblank, skipBlanks_cons rfl]
    simp [readValue, hskip]
  | @obj cs members hmembers =>
    have hread := ih.members rest hmembers (by
      simp only [List.length_cons, List.length_append] at hfuel
      omega)
    obtain ⟨tail, hcs⟩ := hmembers.head ('\x7d' :: rest)
    rw [hcs] at hread
    simp [readValue, hcs, hread]

theorem items_succ (ih : Enough fuel) {cs : List Char} {items : List Json} (rest : List Char)
    (h : SpellsItems cs items) (hfuel : 2 * cs.length < fuel + 1) :
    readItems (fuel + 1) (skipBlanks (cs ++ ']' :: rest)) = some (items, rest) := by
  cases h with
  | one h =>
    obtain ⟨left, hread, hleft⟩ := ih.padded_cons h (c := ']') (by simp) rest (by omega)
    simp [readItems, hread, hleft]
  | @cons cs more j items h tail =>
    simp only [List.length_append, List.length_cons] at hfuel
    obtain ⟨left, hread, hleft⟩ :=
      ih.padded_cons h (c := ',') (by simp) (more ++ ']' :: rest) (by omega)
    have htail := ih.items rest tail (by omega)
    simp [readItems, hread, hleft, htail]

/-- A key is read up to its colon. -/
theorem readString_key {before name after : List Char} {key : Option String}
    (hbefore : Blank before) (hkey : Quoted name key) (hafter : Blank after) (tail : List Char) :
    ∃ text left,
      skipBlanks (before ++ (name ++ (after ++ ':' :: tail))) = '"' :: text ∧
      readString text = some (key, left) ∧ skipBlanks left = ':' :: tail := by
  obtain ⟨text, htext, hread⟩ := hkey.readString (after ++ ':' :: tail)
  refine ⟨text, after ++ ':' :: tail, ?_, hread, ?_⟩
  · rw [skipBlanks_append hbefore, htext, skipBlanks_cons rfl]
  · rw [skipBlanks_append hafter, skipBlanks_cons rfl]

theorem members_succ (ih : Enough fuel) {cs : List Char} {members : List (Option String × Json)}
    (rest : List Char) (h : SpellsMembers cs members) (hfuel : 2 * cs.length < fuel + 1) :
    readMembers (fuel + 1) (skipBlanks (cs ++ '\x7d' :: rest)) = some (members, rest) := by
  cases h with
  | @one before name after cs key j hbefore hkey hafter h =>
    simp only [List.length_append, List.length_cons] at hfuel
    obtain ⟨text, left, htext, hread, hcolon⟩ :=
      readString_key hbefore hkey hafter (cs ++ '\x7d' :: rest)
    obtain ⟨left', hvalue, hleft⟩ := ih.padded_cons h (c := '\x7d') (by simp) rest (by omega)
    simp only [List.append_assoc, List.cons_append, htext]
    simp [readMembers, hread, hcolon, hvalue, hleft]
  | @cons before name after cs more key j members hbefore hkey hafter h tail =>
    simp only [List.length_append, List.length_cons] at hfuel
    obtain ⟨text, left, htext, hread, hcolon⟩ := readString_key hbefore hkey hafter
      (cs ++ ',' :: (more ++ '\x7d' :: rest))
    obtain ⟨left', hvalue, hleft⟩ :=
      ih.padded_cons h (c := ',') (by simp) (more ++ '\x7d' :: rest) (by omega)
    have htail := ih.members rest tail (by omega)
    simp only [List.append_assoc, List.cons_append, htext]
    simp [readMembers, hread, hcolon, hvalue, hleft, htail]

end Enough

theorem enough (fuel : Nat) : Enough fuel := by
  induction fuel with
  | zero => exact .zero
  | succ fuel ih => exact ⟨ih.value_succ, ih.items_succ, ih.members_succ⟩

/-- Every text of the grammar is read as the value it is a text of. -/
theorem Padded.ofChars? {cs : List Char} {j : Json} (h : Padded cs j) :
    Json.ofChars? cs = some j := by
  obtain ⟨left, hread, hleft⟩ := (enough (2 * cs.length + 2)).padded h stops_nil rfl (by omega)
  rw [List.append_nil] at hread
  simp [Json.ofChars?, hread, hleft]

end TreeCompiler.Json
