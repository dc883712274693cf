/-
Doubles that are integers.

An integer of at most 53 bits is a double, and as long as nothing larger comes up, adding one and
comparing are what they are for integers (`ieee_counts`).  This is why a loop can count with
doubles.

The operations are those of the standard, which unpack their arguments, compute exactly, and round.
So there are three things to show.  Rounding does not depend on how many zeros a number is written
with (`round_eq`); a number whose mantissa has full length is not changed by it (`round_of_normal`),
nor by packing and unpacking (`unpack_pack_of_normal`); and an integer of 53 bits can be written in
this way (`round_nat`).
-/
import Mathlib
import TreeCompiler.Decimal.Double
import TreeCompiler.Proofs.Semantics.Machine

namespace TreeCompiler.Binary64

open Float.Model (Format UnpackedFloat totalExponent)
open Float.Model.UnpackedFloat

/-! ### Rounding -/

section Rounding

variable {spec : Format} {s : Sign} {m : Nat} {e : Int}

theorem shiftRight_succ (em : ExtendedMantissa) (n : Nat) :
    em >>> (n + 1) = (em >>> n).shiftRightOne := rfl

/-- Bits that are zero are shifted out without a trace. -/
theorem shiftRight_mul_two_pow (m j k : Nat) :
    ExtendedMantissa.ofMantissaAndAccuracy (m * 2 ^ k) .exact >>> (j + k)
      = ExtendedMantissa.ofMantissaAndAccuracy m .exact >>> j := by
  induction j with
  | zero =>
    induction k generalizing m with
    | zero => simp
    | succ k ih =>
      have hdouble : m * 2 ^ (k + 1) = m * 2 * 2 ^ k := by
        rw [Nat.pow_succ, Nat.mul_comm (2 ^ k), Nat.mul_assoc]
      rw [hdouble, ← Nat.add_assoc, shiftRight_succ, ih]
      show ExtendedMantissa.mk (m * 2 / 2) (m * 2 % 2 != 0) false
        = ExtendedMantissa.mk m false false
      simp
  | succ j ih => rw [Nat.add_right_comm, shiftRight_succ, ih, shiftRight_succ]

theorem log2_mul_two_pow (hm : 0 < m) (k : Nat) : (m * 2 ^ k).log2 = m.log2 + k := by
  induction k with
  | zero => simp
  | succ k ih =>
    have hpos : 0 < m * 2 ^ k := Nat.mul_pos hm (Nat.two_pow_pos k)
    rw [Nat.pow_succ, ← Nat.mul_assoc, Nat.mul_comm, Nat.log2_two_mul (Nat.ne_of_gt hpos), ih,
      Nat.add_assoc]

/-- The position of the first digit depends on the number and not on how it is written. -/
theorem totalExponent_mul_two_pow (hm : 0 < m) (k : Nat) :
    totalExponent (m * 2 ^ k) (e - k) = totalExponent m e := by
  unfold totalExponent
  rw [log2_mul_two_pow hm]
  omega

theorem roundWithAccuracy_mul_two_pow (hm : 0 < m)
    (he : e ≤ spec.targetExponent (totalExponent m e)) (k : Nat) :
    roundWithAccuracy spec s (m * 2 ^ k) (e - k) .exact = roundWithAccuracy spec s m e .exact := by
  have hshift : shiftToTargetExponent spec (m * 2 ^ k) (e - k) .exact
      = shiftToTargetExponent spec m e .exact := by
    unfold shiftToTargetExponent
    rw [totalExponent_mul_two_pow hm]
    generalize spec.targetExponent (totalExponent m e) = target at he
    have hamount : (target - (e - k)).toNat = (target - e).toNat + k := by omega
    simp only [shiftToExponent, hamount, shiftRight_mul_two_pow, Prod.mk.injEq, true_and]
    omega
  unfold roundWithAccuracy
  rw [hshift]

/-- Zeros may be added at the end of a number before it is rounded. -/
theorem round_eq (hm : 0 < m) (k : Nat) (hk : e - k ≤ spec.targetExponent (totalExponent m e)) :
    UnpackedFloat.round spec s m e = roundWithAccuracy spec s (m * 2 ^ k) (e - k) .exact := by
  simp only [UnpackedFloat.round, decreaseExponent, Nat.shiftLeft_eq]
  generalize htarget : spec.targetExponent (totalExponent m e) = target at hk
  generalize hj : (e - target).toNat = j
  have hpos : 0 < m * 2 ^ j := Nat.mul_pos hm (Nat.two_pow_pos j)
  have hfits : e - j ≤ spec.targetExponent (totalExponent (m * 2 ^ j) (e - j)) := by
    rw [totalExponent_mul_two_pow hm, htarget]
    omega
  obtain ⟨i, rfl⟩ := Nat.exists_eq_add_of_le (show j ≤ k by omega)
  rw [← roundWithAccuracy_mul_two_pow hpos hfits i, Nat.mul_assoc, ← Nat.pow_add, Int.natCast_add,
    Int.sub_sub]

end Rounding

/-! ### Numbers that need no rounding -/

section Binary64

variable {s : Sign} {m : Nat} {e : Int}

theorem targetExponent_eq (t : Int) : Format.binary64.targetExponent t = max (t - 53) (-1074) := rfl

/-- A mantissa of full length is where it belongs. -/
theorem targetExponent_of_normal (hm : 2 ^ 52 ≤ m) (hm' : m < 2 ^ 53) (he : -1074 ≤ e) :
    Format.binary64.targetExponent (totalExponent m e) = e := by
  have hlog : m.log2 = 52 := (Nat.log2_eq_iff (by omega)).mpr ⟨hm, hm'⟩
  rw [targetExponent_eq, totalExponent, hlog]
  omega

theorem round_of_normal (hm : 2 ^ 52 ≤ m) (hm' : m < 2 ^ 53) (he : -1074 ≤ e) :
    UnpackedFloat.round Format.binary64 s m e = .finite s m e (by omega) := by
  have htarget := targetExponent_of_normal hm hm' he
  have hshift : shiftToTargetExponent Format.binary64 m e .exact
      = (ExtendedMantissa.ofMantissaAndAccuracy m .exact, e) := by
    simp only [shiftToTargetExponent, shiftToExponent, htarget, Int.sub_self]
    exact Prod.ext rfl (Int.add_zero e)
  have hround : UnpackedFloat.round Format.binary64 s m e
      = roundWithAccuracy Format.binary64 s m e .exact := by
    simpa using round_eq (show 0 < m by omega) 0 (by rw [htarget]; omega)
  rw [hround]
  have hrounded : (ExtendedMantissa.ofMantissaAndAccuracy m .exact).roundedMantissa = m := rfl
  simp only [roundWithAccuracy, hshift, hrounded]
  exact dif_neg (show m ≠ 0 by omega)

/-- An integer of 53 bits is the double with the same value, which has all 53 bits. -/
theorem round_nat {n : Nat} (hn : 0 < n) (hle : n ≤ 2 ^ 53) (s : Sign) :
    ∃ (m k : Nat) (hm : 0 < m), UnpackedFloat.round Format.binary64 s n 0 = .finite s m
      ((k : Int) - 52) hm ∧
      2 ^ 52 ≤ m ∧ m < 2 ^ 53 ∧ k ≤ 53 ∧ m * 2 ^ k = n * 2 ^ 52 := by
  obtain ⟨hlow, hhigh⟩ := (Nat.log2_eq_iff (Nat.ne_of_gt hn)).mp (rfl : n.log2 = n.log2)
  have hlog : n.log2 ≤ 53 := by
    by_contra h
    have := Nat.pow_le_pow_right (show 0 < 2 by decide) (show 54 ≤ n.log2 by omega)
    omega
  generalize hk : n.log2 = k at *
  obtain ⟨m, hm, hm', hvalue⟩ : ∃ m, 2 ^ 52 ≤ m ∧ m < 2 ^ 53 ∧ m * 2 ^ k = n * 2 ^ 52 := by
    rcases Nat.lt_or_ge k 53 with hlt | hge
    · have hsplit : ∀ j, 2 ^ (j + k) * 2 ^ (52 - k) = 2 ^ (52 + j) := by
        intro j
        rw [← Nat.pow_add]
        congr 1
        omega
      refine ⟨n * 2 ^ (52 - k), ?_, ?_, ?_⟩
      · rw [← hsplit 0, Nat.zero_add]
        exact Nat.mul_le_mul_right _ hlow
      · rw [show 53 = 52 + 1 from rfl, ← hsplit 1, Nat.add_comm 1]
        exact Nat.mul_lt_mul_of_pos_right hhigh (Nat.two_pow_pos _)
      · rw [Nat.mul_assoc, Nat.mul_comm (2 ^ (52 - k)), ← hsplit 0, Nat.zero_add]
    · obtain rfl : k = 53 := by omega
      obtain rfl : n = 2 ^ 53 := by omega
      exact ⟨2 ^ 52, Nat.le_refl _, by decide, by decide⟩
  refine ⟨m, k, by omega, ?_, hm, hm', hlog, hvalue⟩
  have hnormal := round_of_normal (s := s) hm hm' (show -1074 ≤ (k : Int) - 52 by omega)
  rw [← hnormal, round_eq (show 0 < m by omega) k, round_eq hn 52, hvalue]
  · congr 1
    omega
  · rw [targetExponent_eq, totalExponent, hk]
    omega
  · rw [targetExponent_of_normal hm hm' (by omega)]
    omega

/-- A normal number is read back from its bits. -/
theorem unpack_pack_of_normal (hm : 2 ^ 52 ≤ m) (hm' : m < 2 ^ 53) (he : -1074 ≤ e) (he' : e ≤ 971)
    (hpos : 0 < m) :
    unpack Format.binary64 (pack Format.binary64 (.finite s m e hpos)) = .finite s m e hpos := by
  obtain ⟨field, hfield⟩ := Int.eq_ofNat_of_zero_le (show 0 ≤ e + 1075 by omega)
  have hlog : m.log2 = 52 := (Nat.log2_eq_iff (by omega)).mpr ⟨hm, hm'⟩
  have hbiased : (e + (1023 : Nat) + (52 : Nat)).toNat = field := by omega
  have hpack : pack Format.binary64 (.finite s m e hpos)
      = packComponents Format.binary64 s (BitVec.ofNat 11 field) (BitVec.ofNat 52 m) := by
    simp only [pack, hlog, show Format.binary64.exponentBias = 1023 from rfl, hbiased]
    rw [if_neg (by omega), if_pos (by rfl)]
  have hexp : (BitVec.ofNat 11 field).toNat = field := Nat.mod_eq_of_lt (by omega)
  have hmantissa : (1#1 ++ BitVec.ofNat 52 m).toNat = m := by
    rw [BitVec.toNat_append, ← Nat.shiftLeft_add_eq_or_of_lt (BitVec.isLt _)]
    simp only [BitVec.toNat_ofNat, Nat.shiftLeft_eq]
    omega
  have hones : BitVec.ofNat 11 field ≠ -1#11 := by
    intro h
    have := congrArg BitVec.toNat h
    rw [hexp] at this
    simp at this
    omega
  have hzero : BitVec.ofNat 11 field ≠ 0#11 := by
    intro h
    have := congrArg BitVec.toNat h
    rw [hexp] at this
    simp at this
    omega
  rw [hpack, unpack]
  simp only [unpackMantissa_packComponents, unpackExponent_packComponents,
    unpackSign_packComponents, Sign.ofBitVec_toBitVec, hones, hzero, if_false, hmantissa, hexp]
  congr 1
  rw [show Format.binary64.exponentBias = 1023 from rfl]
  omega

end Binary64

/-! ### Integers -/

/-- An unpacked double that is an integer.  A number other than zero has a mantissa of full
length. -/
inductive Stands : UnpackedFloat → Int → Prop
  | zero : Stands (.zero .positive) 0
  | finite (s : Sign) {m n k : Nat} (hm : 0 < m) (hn : 0 < n) (low : 2 ^ 52 ≤ m) (high : m < 2 ^ 53)
      (hk : k ≤ 53) (value : m * 2 ^ k = n * 2 ^ 52) :
      Stands (.finite s m ((k : Int) - 52) hm) (s.apply n)

variable {x y : UnpackedFloat} {a b : Int}

theorem Stands.unpack_pack (h : Stands x a) :
    unpack Format.binary64 (pack Format.binary64 x) = x := by
  cases h with
  | zero => rfl
  | finite s hm hn low high hk value =>
    exact unpack_pack_of_normal low high (by omega) (by omega) hm

theorem normalize_apply {spec : Format} (s : Sign) {n : Nat} (hn : 0 < n) (e : Int) :
    UnpackedFloat.normalize spec (s.apply n) e .positive = UnpackedFloat.round spec s n e := by
  cases s with
  | negative =>
    have hlt : compare (-(n : Int)) 0 = .lt := by
      rw [Int.compare_eq_lt]
      omega
    simp [UnpackedFloat.normalize, Sign.apply, hlt]
  | positive =>
    have hgt : compare (n : Int) 0 = .gt := by
      rw [Int.compare_eq_gt]
      omega
    simp [UnpackedFloat.normalize, Sign.apply, hgt]

theorem exists_apply (a : Int) (ha : a ≠ 0) : ∃ (s : Sign) (n : Nat), 0 < n ∧ a = s.apply n := by
  rcases Int.lt_or_gt_of_ne ha with hlt | hgt
  · exact ⟨.negative, (-a).toNat, by omega, by simp only [Sign.apply]; omega⟩
  · exact ⟨.positive, a.toNat, by omega, by simp only [Sign.apply]; omega⟩

theorem natAbs_apply (s : Sign) (n : Nat) : (s.apply n).natAbs = n := by
  cases s <;> simp [Sign.apply]

theorem stands_ofInt (ha : a.natAbs ≤ 2 ^ 53) :
    Stands (UnpackedFloat.ofInt Format.binary64 a) a := by
  by_cases hzero : a = 0
  · subst hzero
    exact .zero
  · obtain ⟨s, n, hn, rfl⟩ := exists_apply a hzero
    rw [natAbs_apply] at ha
    obtain ⟨m, k, hm, hround, hlow, hhigh, hk, hvalue⟩ := round_nat hn ha s
    rw [UnpackedFloat.ofInt, normalize_apply s hn, hround]
    exact .finite s hm hn hlow hhigh hk hvalue

theorem apply_mul (s : Sign) (n k : Nat) : s.apply n * k = s.apply (n * k : Nat) := by
  cases s <;> simp only [Sign.apply, Int.neg_mul, Int.natCast_mul]

/-- An integer with zeros at its end. -/
theorem normalize_mul_two_pow (ha : a.natAbs ≤ 2 ^ 53) :
    UnpackedFloat.normalize Format.binary64 (a * (2 ^ 52 : Nat)) (-52) .positive
      = UnpackedFloat.ofInt Format.binary64 a := by
  by_cases hzero : a = 0
  · subst hzero
    rfl
  · obtain ⟨s, n, hn, rfl⟩ := exists_apply a hzero
    have hpos : 0 < n * 2 ^ 52 := Nat.mul_pos hn (by decide)
    have hfits : (-52 : Int) ≤ Format.binary64.targetExponent (totalExponent n 0) := by
      rw [targetExponent_eq, totalExponent]
      omega
    have hfits' : Format.binary64.targetExponent (totalExponent (n * 2 ^ 52) (-52))
        = Format.binary64.targetExponent (totalExponent n 0) := by
      exact congrArg _ (totalExponent_mul_two_pow (e := 0) hn 52)
    rw [apply_mul, normalize_apply s hpos, UnpackedFloat.ofInt, normalize_apply s hn,
      round_eq hn 52 (by simpa using hfits), round_eq hpos 0 (by rw [hfits']; simpa using hfits)]
    simp

theorem Stands.add_one (h : Stands x a) (ha : a.natAbs < 2 ^ 53) :
    UnpackedFloat.add Format.binary64 x (UnpackedFloat.ofInt Format.binary64 1)
      = UnpackedFloat.ofInt Format.binary64 (a + 1) := by
  have hone : UnpackedFloat.ofInt Format.binary64 1
      = .finite .positive (2 ^ 52) (-52) (by decide) := by
    rfl
  cases h with
  | zero =>
    rw [hone]
    rfl
  | @finite s m n k hm hn low high hk value =>
    have hsum : s.apply n * (2 ^ 52 : Nat) + (2 ^ 52 : Nat) = (s.apply n + 1) * (2 ^ 52 : Nat) := by
      rw [Int.add_mul, Int.one_mul]
    have hless : min ((k : Int) - 52) (-52) = -52 := by omega
    have hshift : ((k : Int) - 52 - -52).toNat = k := by omega
    rw [hone, ← normalize_mul_two_pow (show (s.apply n + 1).natAbs ≤ 2 ^ 53 by omega),
      ← hsum, apply_mul, ← value]
    simp only [UnpackedFloat.add, decreaseExponent, hless, hshift, Nat.shiftLeft_eq]
    rfl

/-- Of two mantissas of full length the one with the larger exponent is the larger number. -/
theorem lt_of_normal {m m' n n' k k' : Nat} (high : m < 2 ^ 53) (low' : 2 ^ 52 ≤ m')
    (value : m * 2 ^ k = n * 2 ^ 52) (value' : m' * 2 ^ k' = n' * 2 ^ 52)
    (h : k < k' ∨ k = k' ∧ m < m') : n < n' := by
  refine Nat.lt_of_mul_lt_mul_right (a := 2 ^ 52) ?_
  rw [← value, ← value']
  rcases h with hk | ⟨rfl, hm⟩
  · calc m * 2 ^ k < 2 ^ 53 * 2 ^ k := Nat.mul_lt_mul_of_pos_right high (Nat.two_pow_pos k)
      _ = 2 ^ 52 * 2 ^ (k + 1) := by rw [Nat.pow_succ 2 k]; omega
      _ ≤ m' * 2 ^ k' := Nat.mul_le_mul low' (Nat.pow_le_pow_right (by decide) hk)
  · exact Nat.mul_lt_mul_of_pos_right hm (Nat.two_pow_pos k)

theorem compare_of_normal {m m' n n' k k' : Nat} (low : 2 ^ 52 ≤ m) (high : m < 2 ^ 53)
    (low' : 2 ^ 52 ≤ m') (high' : m' < 2 ^ 53) (value : m * 2 ^ k = n * 2 ^ 52)
    (value' : m' * 2 ^ k' = n' * 2 ^ 52) :
    (compare ((k : Int) - 52) ((k' : Int) - 52)).then (compare m m') = compare (n : Int) n' := by
  have hlt := lt_of_normal high low' value value'
  have hgt := lt_of_normal high' low value' value
  rcases Nat.lt_trichotomy k k' with hk | rfl | hk
  · rw [Int.compare_eq_lt.mpr (by omega), Int.compare_eq_lt.mpr (by omega)]
    rfl
  · rw [Int.compare_eq_eq.mpr rfl, Ordering.eq_then]
    rcases Nat.lt_trichotomy m m' with hm | rfl | hm
    · rw [Nat.compare_eq_lt.mpr hm, Int.compare_eq_lt.mpr (by omega)]
    · rw [Nat.compare_eq_eq.mpr rfl, Int.compare_eq_eq.mpr (by omega)]
    · rw [Nat.compare_eq_gt.mpr hm, Int.compare_eq_gt.mpr (by omega)]
  · rw [Int.compare_eq_gt.mpr (by omega), Int.compare_eq_gt.mpr (by omega)]
    rfl

theorem Stands.compare (h : Stands x a) (h' : Stands y b) :
    x.compare y = some (Ord.compare a b) := by
  cases h with
  | zero =>
    cases h' with
    | zero => rfl
    | finite s' hm' hn' low' high' hk' value' =>
      cases s' with
      | negative =>
        exact congrArg some (Int.compare_eq_gt.mpr (by simp only [Sign.apply]; omega)).symm
      | positive =>
        exact congrArg some (Int.compare_eq_lt.mpr (by simp only [Sign.apply]; omega)).symm
  | finite s hm hn low high hk value =>
    cases h' with
    | zero =>
      cases s with
      | negative =>
        exact congrArg some (Int.compare_eq_lt.mpr (by simp only [Sign.apply]; omega)).symm
      | positive =>
        exact congrArg some (Int.compare_eq_gt.mpr (by simp only [Sign.apply]; omega)).symm
    | finite s' hm' hn' low' high' hk' value' =>
      have hcompare := compare_of_normal low high low' high' value value'
      cases s with
      | negative =>
        cases s' with
        | negative =>
          refine congrArg some ?_
          rw [hcompare, Int.compare_swap]
          simp only [Sign.apply, Int.compare_eq_ite_lt, Int.neg_lt_neg_iff]
        | positive =>
          exact congrArg some (Int.compare_eq_lt.mpr (by simp only [Sign.apply]; omega)).symm
      | positive =>
        cases s' with
        | negative =>
          exact congrArg some (Int.compare_eq_gt.mpr (by simp only [Sign.apply]; omega)).symm
        | positive => exact congrArg some hcompare

theorem Stands.le (h : Stands x a) (h' : Stands y b) : x.le y = decide (a ≤ b) := by
  rw [UnpackedFloat.le, h.compare h', Option.any_some]
  exact Bool.eq_iff_iff.mpr (by simp [Int.isLE_compare])

/-- A double is read back from its bits. -/
theorem Stands.model (h : Stands x a) : (Float.Model.pack x).unpack = x := h.unpack_pack

end TreeCompiler.Binary64

namespace TreeCompiler

/-- The double as a number to compute with. -/
def Double.toFloat (x : Double) : Float := .ofBits x.bits

/-- The double nearest to an integer. -/
def Double.ofInt (n : Int) : Double := .ofFloat (.ofModel (.ofInt n))

namespace Semantics

/-- Operations on doubles as the standard has them. -/
def Primitives.ieee (print : List Val → Option String) : Primitives where
  add x y := .ofFloat (x.toFloat + y.toFloat)
  sub x y := .ofFloat (x.toFloat - y.toFloat)
  mul x y := .ofFloat (x.toFloat * y.toFloat)
  lt x y := x.toFloat < y.toFloat
  gt x y := y.toFloat < x.toFloat
  le x y := x.toFloat ≤ y.toFloat
  print := print

open Binary64

variable {a b : Int}

/-- An integer is read back from its bits. -/
theorem unpack_ofInt (ha : a.natAbs ≤ 2 ^ 53) :
    (Double.ofInt a).toFloat.toModel.unpack = .ofInt .binary64 a := by
  rw [show (Double.ofInt a).toFloat = .ofModel (.ofInt a) from Float.ofBits_toBits _]
  exact (stands_ofInt ha).model

/-- The operations on doubles count as those on integers do, up to what 53 bits hold. -/
structure Primitives.Counts (p : Primitives) : Prop where
  add_one : ∀ {a : Int}, a.natAbs < 2 ^ 53 → p.add (.ofInt a) .one = .ofInt (a + 1)
  le : ∀ {a b : Int}, a.natAbs ≤ 2 ^ 53 → b.natAbs ≤ 2 ^ 53 →
    p.le (.ofInt a) (.ofInt b) = decide (a ≤ b)

theorem ieee_counts (print : List Val → Option String) : (Primitives.ieee print).Counts where
  add_one := by
    intro a ha
    rw [show Double.one = Double.ofInt 1 from rfl]
    show Double.ofFloat (.ofModel (.pack (Float.Model.UnpackedFloat.add _
      (Double.ofInt a).toFloat.toModel.unpack (Double.ofInt 1).toFloat.toModel.unpack))) = _
    rw [unpack_ofInt (by omega), unpack_ofInt (by decide), (stands_ofInt (by omega)).add_one ha]
    rfl
  le := by
    intro a b ha hb
    refine decide_eq_decide.mpr ?_
    show Float.le _ _ = true ↔ a ≤ b
    have hle : ∀ x y : Float, x.le y = x.toModel.unpack.le y.toModel.unpack := by
      intro x y
      refine Bool.eq_iff_iff.mpr ?_
      exact decide_eq_true_iff
    rw [hle, unpack_ofInt ha, unpack_ofInt hb, (stands_ofInt ha).le (stands_ofInt hb),
      decide_eq_true_iff]

end Semantics

end TreeCompiler
