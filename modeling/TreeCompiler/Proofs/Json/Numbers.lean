/-
Written numbers are read to their end.

Every decimal has a text, with a point or an exponent in it, and every such text follows the grammar
of numbers: the digits before the point do not start with a zero unless there is only that, there is
a digit on either side of the point, and the exponent has its sign.  So the reader takes all of it.
Which decimal it finds there is not said: the same number can be written down in many ways.

The readers of parts leave what they did not use.  A number is read in the same way whatever stands
behind it, as long as that does not go on with the number (`Stops`).
-/
import Mathlib.Data.List.TakeWhile
import TreeCompiler.Json.Printer
import TreeCompiler.Json.Reader

namespace TreeCompiler.Json

open Decimal (digitsValue readDigits readSigned readExponent significantDigits
  positional scientific)

variable {cs ds r rest : List Char}

/-! ### What follows a number -/

/-- What follows a number and does not go on with it. -/
def Stops (rest : List Char) : Prop :=
  ∀ c ∈ rest.head?, c.isDigit = false ∧ c ≠ '.' ∧ c ≠ 'e' ∧ c ≠ 'E'

theorem stops_nil : Stops [] := by
  simp [Stops]

/-- A separator or a closing bracket ends a number. -/
theorem stops_cons {c : Char} (hc : c ∈ [',', ']', '\x7d']) (rest : List Char) :
    Stops (c :: rest) := by
  have hall : ∀ d ∈ [',', ']', '\x7d'], d.isDigit = false ∧ d ≠ '.' ∧ d ≠ 'e' ∧ d ≠ 'E' := by simp
  rintro d ⟨⟩
  exact hall c hc

/-- The digits that are read are the longest run there is. -/
theorem readDigits_eq_some_iff : readDigits cs = some (ds, r) ↔
    cs = ds ++ r ∧ ds ≠ [] ∧ (∀ c ∈ ds, c.isDigit = true) ∧ ∀ c ∈ r.head?, c.isDigit = false := by
  constructor
  · intro h
    have hparts : ds = cs.takeWhile Char.isDigit ∧ ds ≠ [] ∧ r = cs.dropWhile Char.isDigit := by
      unfold readDigits at h
      split at h
      · cases h
      · rename_i hne
        cases h
        exact ⟨rfl, hne, rfl⟩
    obtain ⟨hds, hne, rfl⟩ := hparts
    refine ⟨by rw [hds, List.takeWhile_append_dropWhile], hne, fun c hc => ?_, fun c hc => ?_⟩
    · rw [hds] at hc
      exact List.mem_takeWhile_imp hc
    · have hhead := List.head?_dropWhile_not Char.isDigit cs
      rw [hc] at hhead
      simpa using hhead
  · rintro ⟨rfl, hne, hall, hstop⟩
    have htake : r.takeWhile Char.isDigit = [] := by
      cases r with
      | nil => rfl
      | cons c r => simp [hstop c rfl]
    have hdrop : r.dropWhile Char.isDigit = r := by
      cases r with
      | nil => rfl
      | cons c r => simp [hstop c rfl]
    unfold readDigits
    rw [List.takeWhile_append_of_pos hall, List.dropWhile_append_of_pos hall, htake, hdrop,
      List.append_nil]
    cases ds with
    | nil => exact absurd rfl hne
    | cons d ds => rfl

theorem readDigits_append (hrest : Stops rest) (h : readDigits cs = some (ds, r)) :
    readDigits (cs ++ rest) = some (ds, r ++ rest) := by
  obtain ⟨rfl, hne, hall, hstop⟩ := readDigits_eq_some_iff.mp h
  refine readDigits_eq_some_iff.mpr ⟨List.append_assoc .., hne, hall, fun c hc => ?_⟩
  cases r with
  | nil => exact (hrest c hc).1
  | cons d r => exact hstop c hc

theorem readWhole_append (hrest : Stops rest) (h : readWhole cs = some (ds, r)) :
    readWhole (cs ++ rest) = some (ds, r ++ rest) := by
  unfold readWhole at h ⊢
  rcases hread : readDigits cs with _ | ⟨ds', r'⟩
  · simp [hread] at h
  · rw [readDigits_append hrest hread]
    rw [hread] at h
    split at h
    · cases h
    · rename_i hne
      cases h
      split
      · rename_i heq
        cases heq
        exact absurd rfl (hne _ _ _)
      · rfl

theorem readFraction_append (hrest : Stops rest) (h : readFraction cs = some (ds, r)) :
    readFraction (cs ++ rest) = some (ds, r ++ rest) := by
  unfold readFraction at h ⊢
  split at h
  · exact readDigits_append hrest h
  · rename_i hdot
    cases h
    cases cs with
    | nil =>
      split
      · exact absurd rfl (hrest '.' (by simp_all)).2.1
      · rfl
    | cons c cs =>
      split
      · rename_i heq
        cases heq
        exact absurd rfl (hdot cs)
      · rfl

theorem readSigned_append {e : Int} (hrest : Stops rest) (h : readSigned cs = some (e, r)) :
    readSigned (cs ++ rest) = some (e, r ++ rest) := by
  have hmap : ∀ {cs : List Char} (f : Nat → Int),
      (readDigits cs).map (fun q => (f (digitsValue q.1), q.2)) = some (e, r) →
      (readDigits (cs ++ rest)).map (fun q => (f (digitsValue q.1), q.2))
        = some (e, r ++ rest) := by
    intro cs f hf
    obtain ⟨q, hq, heq⟩ := Option.map_eq_some_iff.mp hf
    cases heq
    rw [readDigits_append hrest hq]
    rfl
  cases cs with
  | nil => cases h
  | cons c cs =>
    by_cases hminus : c = '-'
    · subst hminus
      exact hmap (fun n => -(n : Int)) h
    by_cases hplus : c = '+'
    · subst hplus
      exact hmap (fun n => (n : Int)) h
    rw [Decimal.readSigned.eq_3 (c :: cs) (by simp [hminus]) (by simp [hplus])] at h
    rw [Decimal.readSigned.eq_3 (c :: cs ++ rest) (by simp [hminus]) (by simp [hplus])]
    exact hmap (fun n => (n : Int)) h

theorem readExponent_append {e : Option Int} (hrest : Stops rest)
    (h : readExponent cs = some (e, r)) :
    readExponent (cs ++ rest) = some (e, r ++ rest) := by
  have hmap : ∀ {cs : List Char}, (readSigned cs).map (fun q => (some q.1, q.2)) = some (e, r) →
      (readSigned (cs ++ rest)).map (fun q => (some q.1, q.2)) = some (e, r ++ rest) := by
    intro cs hcs
    obtain ⟨q, hq, heq⟩ := Option.map_eq_some_iff.mp hcs
    cases heq
    rw [readSigned_append hrest hq]
    rfl
  cases cs with
  | nil =>
    cases h
    have hstop : ∀ c tail, rest = c :: tail → c ≠ 'e' ∧ c ≠ 'E' := by
      rintro c tail rfl
      exact (hrest c rfl).2.2
    exact Decimal.readExponent.eq_3 rest (fun tail heq => (hstop _ tail heq).1 rfl)
      fun tail heq => (hstop _ tail heq).2 rfl
  | cons c cs =>
    by_cases hlower : c = 'e'
    · subst hlower
      exact hmap h
    by_cases hupper : c = 'E'
    · subst hupper
      exact hmap h
    rw [Decimal.readExponent.eq_3 (c :: cs) (by simp [hlower]) (by simp [hupper])] at h
    rw [Decimal.readExponent.eq_3 (c :: cs ++ rest) (by simp [hlower]) (by simp [hupper])]
    cases h
    rfl

theorem readMagnitude_append {negative : Bool} {n : Number} (hrest : Stops rest)
    (h : readMagnitude negative cs = some (n, r)) :
    readMagnitude negative (cs ++ rest) = some (n, r ++ rest) := by
  unfold readMagnitude at h ⊢
  simp only [Option.bind_eq_bind, Option.bind_eq_some_iff] at h
  obtain ⟨⟨whole, r₁⟩, hwhole, ⟨fraction, r₂⟩, hfraction, ⟨exponent, r₃⟩, hexponent, hlast⟩ := h
  simp only [Option.bind_eq_bind, readWhole_append hrest hwhole,
    readFraction_append hrest hfraction, readExponent_append hrest hexponent, Option.bind_some]
  cases fraction with
  | nil => cases exponent <;> (cases hlast; rfl)
  | cons d ds =>
    cases hlast
    rfl

/-- A number is read in the same way whatever follows it. -/
theorem readNumber_append {n : Number} (hrest : Stops rest) (h : readNumber cs = some (n, r)) :
    readNumber (cs ++ rest) = some (n, r ++ rest) := by
  cases cs with
  | nil => cases h
  | cons c cs =>
    by_cases hminus : c = '-'
    · subst hminus
      exact readMagnitude_append hrest h
    · rw [readNumber.eq_2 (c :: cs) (by simp [hminus])] at h
      rw [readNumber.eq_2 (c :: cs ++ rest) (by simp [hminus])]
      exact readMagnitude_append hrest h

/-- The text of a number starts with a sign or a digit. -/
theorem readNumber_head {n : Number} (h : readNumber cs = some (n, r)) :
    ∃ c tail, cs = c :: tail ∧ (c = '-' ∨ c.isDigit = true) := by
  cases cs with
  | nil => cases h
  | cons c cs =>
    refine ⟨c, cs, rfl, ?_⟩
    by_cases hminus : c = '-'
    · exact .inl hminus
    refine .inr ?_
    rw [readNumber.eq_2 (c :: cs) (by simp [hminus])] at h
    cases hdigit : c.isDigit with
    | true => rfl
    | false => simp [readMagnitude, readWhole, readDigits, hdigit] at h

/-! ### Texts that are numbers -/

/-- A run of digits that does not start with a superfluous zero is the whole part of a number. -/
theorem readWhole_of_run {d : Char} (hall : ∀ c ∈ d :: ds, c.isDigit = true)
    (hzero : d = '0' → ds = []) (hrest : ∀ c ∈ rest.head?, c.isDigit = false) :
    readWhole (d :: ds ++ rest) = some (d :: ds, rest) := by
  unfold readWhole
  rw [readDigits_eq_some_iff.mpr ⟨rfl, by simp, hall, hrest⟩]
  split
  · rename_i heq
    cases heq
    cases hzero rfl
  · rfl

/-- The digits of a number do not start with a zero, but for those of zero itself. -/
theorem toDigits_eq_cons (n : Nat) :
    ∃ d ds, Nat.toDigits 10 n = d :: ds ∧ (d = '0' → n = 0 ∧ ds = []) := by
  induction n using Nat.strongRecOn with
  | ind n ih =>
    by_cases hlt : n < 10
    · have hdigit : ∀ m < 10, m.digitChar = '0' → m = 0 := by decide
      exact ⟨n.digitChar, [], Nat.toDigits_of_lt_base hlt, fun h => ⟨hdigit n hlt h, rfl⟩⟩
    · obtain ⟨d, ds, hds, hd⟩ := ih (n / 10) (by omega)
      refine ⟨d, ds ++ [(n % 10).digitChar], ?_, fun h => ?_⟩
      · rw [Nat.toDigits_of_base_le (by decide) (Nat.not_lt.mp hlt), hds]
        rfl
      · have hzero := (hd h).1
        omega

theorem isDigit_toDigits {n : Nat} {c : Char} (hc : c ∈ Nat.toDigits 10 n) : c.isDigit = true :=
  Nat.isDigit_of_mem_toDigits (by decide) (by decide) hc

theorem digitsValue_toDigits (n : Nat) : digitsValue (Nat.toDigits 10 n) = n :=
  Nat.ofDigitChars_ten_toDigits

theorem readMagnitude_toDigits (negative : Bool) (n : Nat) :
    readMagnitude negative (Nat.toDigits 10 n) = some (.integer negative n, []) := by
  have hwhole : readWhole (Nat.toDigits 10 n) = some (Nat.toDigits 10 n, []) := by
    have hall := @isDigit_toDigits n
    obtain ⟨d, ds, hds, hzero⟩ := toDigits_eq_cons n
    rw [hds] at hall ⊢
    rw [← List.append_nil (d :: ds),
      readWhole_of_run (fun _ => hall) (fun h => (hzero h).2) (by simp), List.append_nil]
  simp [readMagnitude, hwhole, readFraction, readExponent, digitsValue_toDigits]

/-- A number that starts with a digit has no sign. -/
theorem readNumber_of_readMagnitude {c : Char} {n : Number} (hc : c.isDigit = true)
    (h : readMagnitude false (c :: cs) = some (n, r)) : readNumber (c :: cs) = some (n, r) := by
  rw [← h]
  refine readNumber.eq_2 _ fun tail heq => ?_
  cases heq
  exact absurd hc (by decide)

/-- An integer is read as the integer it is, with the sign it is written with. -/
theorem readNumber_integer (negative : Bool) (n : Nat) :
    readNumber (Number.integer negative n).render = some (.integer negative n, []) := by
  cases negative with
  | true => exact readMagnitude_toDigits true n
  | false =>
    have hread := readMagnitude_toDigits false n
    have hall := @isDigit_toDigits n
    obtain ⟨d, ds, hds, -⟩ := toDigits_eq_cons n
    show readNumber (Nat.toDigits 10 n) = _
    rw [hds] at hread hall ⊢
    exact readNumber_of_readMagnitude (hall List.mem_cons_self) hread

/-! ### Decimals -/

/-- The exponent of a number is read as it was written. -/
theorem readSigned_toString (e : Int) : readSigned (toString e).toList = some (e, []) := by
  have hdigits : ∀ n : Nat, readDigits (Nat.toDigits 10 n) = some (Nat.toDigits 10 n, []) := by
    intro n
    exact readDigits_eq_some_iff.mpr ⟨(List.append_nil _).symm, Nat.toDigits_ne_nil,
      fun _ => isDigit_toDigits, by simp⟩
  cases e with
  | ofNat n =>
    have htext : (toString (Int.ofNat n)).toList = Nat.toDigits 10 n := by
      simp [toString, Int.repr, Nat.repr]
    have hsign : ∀ c : Char, c.isDigit = false → ∀ tail, Nat.toDigits 10 n ≠ c :: tail := by
      intro c hc tail heq
      have hmem : c ∈ Nat.toDigits 10 n := heq ▸ List.mem_cons_self
      rw [isDigit_toDigits hmem] at hc
      cases hc
    rw [htext, Decimal.readSigned.eq_3 _ (hsign _ (by decide)) (hsign _ (by decide)), hdigits]
    simp [digitsValue_toDigits]
  | negSucc n =>
    have htext : (toString (Int.negSucc n)).toList = '-' :: Nat.toDigits 10 (n + 1) := by
      simp [toString, Int.repr, Nat.repr]
    rw [htext, Decimal.readSigned.eq_1, hdigits]
    simp [digitsValue_toDigits, Int.negSucc_eq]

/-- The digits a decimal is written with: none is in front of the first that counts. -/
theorem significantDigits_eq (n : Nat) : ∃ d ds, significantDigits n = d :: ds ∧
    (∀ c ∈ d :: ds, c.isDigit = true) ∧ (d = '0' → n = 0 ∧ ds = []) := by
  have hall := @isDigit_toDigits n
  obtain ⟨d, ds, hds, hzero⟩ := toDigits_eq_cons n
  unfold significantDigits
  rw [hds] at hall ⊢
  by_cases hd : d = '0'
  · obtain ⟨hn, rfl⟩ := hzero hd
    subst hd
    exact ⟨'0', [], rfl, fun _ => hall, fun _ => ⟨hn, rfl⟩⟩
  · -- the first digit is no zero, so the zeros that are dropped from the end stop before it
    have hdrop : (d :: ds).reverse.dropWhile (· = '0') = ds.reverse.dropWhile (· = '0') ++ [d] := by
      rw [List.reverse_cons, List.dropWhile_append]
      split
      · rename_i hnil
        rw [List.isEmpty_iff.mp hnil]
        simp [hd]
      · rfl
    refine ⟨d, (ds.reverse.dropWhile (· = '0')).reverse, ?_, fun c hc => ?_, fun h => absurd h hd⟩
    · rw [hdrop]
      split
      · simp_all
      · simp
    · rcases List.mem_cons.mp hc with rfl | hc
      · exact hall List.mem_cons_self
      · have hmem := (List.dropWhile_sublist _).mem (List.mem_reverse.mp hc)
        exact hall (List.mem_cons_of_mem _ (List.mem_reverse.mp hmem))

/-- Written without an exponent, a decimal has digits on either side of a point. -/
theorem positional_eq {d : Char} {e : Int} (hall : ∀ c ∈ d :: ds, c.isDigit = true)
    (hzero : d = '0' → ds = [] ∧ e = 0) : ∃ first whole fraction,
      positional (d :: ds) e = first :: whole ++ '.' :: fraction ∧
      (∀ c ∈ first :: whole, c.isDigit = true) ∧ (first = '0' → whole = []) ∧
      fraction ≠ [] ∧ ∀ c ∈ fraction, c.isDigit = true := by
  have hpadded : ∀ n, ∀ c ∈ ds ++ List.replicate n '0', c.isDigit = true := by
    intro n c hc
    rcases List.mem_append.mp hc with hc | hc
    · exact hall c (List.mem_cons_of_mem d hc)
    · rw [List.eq_of_mem_replicate hc]
      rfl
  unfold positional
  split
  · refine ⟨'0', [], _, rfl, by simp, fun _ => rfl, by simp, fun c hc => ?_⟩
    rcases List.mem_append.mp hc with hc | hc
    · rw [List.eq_of_mem_replicate hc]
      rfl
    · exact hall c hc
  · simp only [List.cons_append, List.drop_succ_cons, List.take_succ_cons]
    generalize e.toNat + 1 - (d :: ds).length = n
    refine ⟨d, (ds ++ List.replicate n '0').take e.toNat, ?_⟩
    have hwhole : ∀ c ∈ d :: (ds ++ List.replicate n '0').take e.toNat, c.isDigit = true := by
      intro c hc
      rcases List.mem_cons.mp hc with rfl | hc
      · exact hall c List.mem_cons_self
      · exact hpadded n c (List.mem_of_mem_take hc)
    have hlone : d = '0' → (ds ++ List.replicate n '0').take e.toNat = [] := by
      intro hd
      rw [(hzero hd).2]
      rfl
    split
    · exact ⟨['0'], rfl, hwhole, hlone, by simp, by simp⟩
    · rename_i hne
      exact ⟨_, rfl, hwhole, hlone, hne, fun c hc => hpadded n c (List.mem_of_mem_drop hc)⟩

theorem readMagnitude_of_parts (negative : Bool) {whole fraction t₁ t₂ : List Char}
    {exponent : Option Int} (hwhole : readWhole cs = some (whole, t₁))
    (hfraction : readFraction t₁ = some (fraction, t₂))
    (hexponent : readExponent t₂ = some (exponent, [])) :
    ∃ n, readMagnitude negative cs = some (n, []) := by
  unfold readMagnitude
  simp only [Option.bind_eq_bind, hwhole, hfraction, hexponent, Option.bind_some]
  split <;> exact ⟨_, rfl⟩

theorem readMagnitude_positional (negative : Bool) {d : Char} {e : Int}
    (hall : ∀ c ∈ d :: ds, c.isDigit = true) (hzero : d = '0' → ds = [] ∧ e = 0) :
    ∃ c tail n, positional (d :: ds) e = c :: tail ∧ c.isDigit = true ∧
      readMagnitude negative (c :: tail) = some (n, []) := by
  obtain ⟨first, whole, fraction, htext, hwhole, hlone, hne, hfraction⟩ := positional_eq hall hzero
  have hread : readWhole (first :: whole ++ '.' :: fraction)
      = some (first :: whole, '.' :: fraction) :=
    readWhole_of_run hwhole hlone (by simp)
  obtain ⟨n, hn⟩ := readMagnitude_of_parts negative hread
    (readDigits_eq_some_iff.mpr ⟨(List.append_nil fraction).symm, hne, hfraction, by simp⟩) rfl
  exact ⟨first, whole ++ '.' :: fraction, n, htext, hwhole _ List.mem_cons_self, hn⟩

theorem readMagnitude_scientific (negative : Bool) {d : Char} (e : Int)
    (hall : ∀ c ∈ d :: ds, c.isDigit = true) (hd : d ≠ '0') :
    ∃ tail n, scientific (d :: ds) e = d :: tail ∧
      readMagnitude negative (d :: tail) = some (n, []) := by
  have hexponent : readExponent ('e' :: (toString e).toList) = some (some e, []) := by
    rw [Decimal.readExponent.eq_1, readSigned_toString]
    rfl
  have hwhole : ∀ rest : List Char, (∀ c ∈ rest.head?, c.isDigit = false) →
      readWhole ([d] ++ rest) = some ([d], rest) := fun rest hrest =>
    readWhole_of_run (by simpa using hall d List.mem_cons_self) (fun h => absurd h hd) hrest
  cases ds with
  | nil =>
    obtain ⟨n, hn⟩ := readMagnitude_of_parts negative
      (hwhole ('e' :: (toString e).toList) (by simp)) rfl hexponent
    exact ⟨_, n, rfl, hn⟩
  | cons f fraction =>
    obtain ⟨n, hn⟩ := readMagnitude_of_parts negative
      (hwhole ('.' :: ((f :: fraction) ++ 'e' :: (toString e).toList)) (by simp))
      (readDigits_eq_some_iff.mpr
        ⟨rfl, by simp, fun c hc => hall c (List.mem_cons_of_mem d hc), by simp⟩) hexponent
    exact ⟨_, n, rfl, hn⟩

/-- The text of a decimal is a number. -/
theorem readNumber_decimal (d : Decimal) :
    ∃ n, readNumber (Number.decimal d).render = some (n, []) := by
  obtain ⟨c, ds, hds, hall, hzero⟩ := significantDigits_eq d.digits
  have hbody : ∃ first tail n,
      (if numberLayout.leastPositional ≤ d.leadingExponent ∧
          d.leadingExponent ≤ numberLayout.greatestPositional then
        positional (c :: ds) d.leadingExponent
      else scientific (c :: ds) d.leadingExponent) = first :: tail ∧
      first.isDigit = true ∧ readMagnitude d.negative (first :: tail) = some (n, []) := by
    split
    · refine readMagnitude_positional d.negative hall fun hc => ⟨(hzero hc).2, ?_⟩
      simp [Decimal.leadingExponent, (hzero hc).1]
    · rename_i hfar
      have hc : c ≠ '0' := by
        intro hc
        refine hfar ?_
        simp [Decimal.leadingExponent, (hzero hc).1, numberLayout]
      obtain ⟨tail, n, htext, hread⟩ :=
        readMagnitude_scientific d.negative d.leadingExponent hall hc
      exact ⟨c, tail, n, htext, hall c List.mem_cons_self, hread⟩
  obtain ⟨first, tail, n, htext, hfirst, hread⟩ := hbody
  refine ⟨n, ?_⟩
  show readNumber (d.render numberLayout) = _
  unfold Decimal.render
  simp only [hds, htext]
  cases hsign : d.negative with
  | true =>
    rw [hsign] at hread
    exact hread
  | false =>
    rw [hsign] at hread
    exact readNumber_of_readMagnitude hfirst hread

end TreeCompiler.Json
