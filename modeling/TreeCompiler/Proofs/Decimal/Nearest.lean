/-
The double nearest to a decimal is a number.

It may be too large, and then it is an infinity.  But it is never a NaN: that comes out of an
operation only if one of its arguments is a NaN, or if zero meets zero or an infinity, and a decimal
is computed from a natural number and a power of ten.
-/
import Mathlib
import TreeCompiler.Decimal.Basic

namespace TreeCompiler

namespace Binary64

open Float.Model (Format UnpackedFloat)
open Float.Model.UnpackedFloat

variable {spec : Format} {x y : UnpackedFloat}

/-! ### Operations on unpacked numbers -/

theorem roundWithAccuracy_ne_nan (s : Sign) (m : Nat) (e : Int) (accuracy : Accuracy) :
    roundWithAccuracy spec s m e accuracy ≠ .notANumber := by
  unfold roundWithAccuracy
  dsimp only
  split <;> simp

theorem mul_ne_nan (hx : x ≠ .notANumber) (s : Sign) {m : Nat} (e : Int) (hm : 0 < m) :
    mul spec x (.finite s m e hm) ≠ .notANumber := by
  cases x with
  | notANumber => exact absurd rfl hx
  | finite s' m' e' hm' => exact roundWithAccuracy_ne_nan _ _ _ _
  | _ => simp [mul]

theorem div_ne_nan (hx : x ≠ .notANumber) (s : Sign) {m : Nat} (e : Int) (hm : 0 < m) :
    div spec x (.finite s m e hm) ≠ .notANumber := by
  cases x with
  | notANumber => exact absurd rfl hx
  | finite s' m' e' hm' => exact roundWithAccuracy_ne_nan _ _ _ _
  | _ => simp [div]

theorem ofScientific_ne_nan (m : Nat) (e : Int) : ofScientific spec m e ≠ .notANumber := by
  unfold ofScientific
  split
  · simp
  split
  · simp
  split
  · simp
  split
  · refine mul_ne_nan ?_ _ _ _
    simp
  · refine div_ne_nan ?_ _ _ _
    simp

theorem ofNat_ne_nan (n : Nat) : UnpackedFloat.ofNat spec n ≠ .notANumber := by
  unfold UnpackedFloat.ofNat UnpackedFloat.ofInt UnpackedFloat.normalize
  split
  · exact roundWithAccuracy_ne_nan _ _ _ _
  · simp
  · exact roundWithAccuracy_ne_nan _ _ _ _

/-! ### Packing -/

theorem unpack_ne_nan {b : BitVec spec.numBits}
    (h : unpackExponent b = -1#_ → unpackMantissa b = 0#_) :
    unpack spec b ≠ .notANumber := by
  unfold unpack
  dsimp only
  split
  · rename_i hexponent
    rw [if_pos (h hexponent)]
    simp
  · split
    · split <;> simp
    · simp

/-- The bits of a number are the bits of a number. -/
theorem unpack_pack_ne_nan (hx : x ≠ .notANumber) :
    unpack Format.binary64 (pack Format.binary64 x) ≠ .notANumber := by
  refine unpack_ne_nan ?_
  cases x with
  | notANumber => exact absurd rfl hx
  | infinity s => simp [pack, packedInfinity]
  | zero s => simp [pack, packedZero]
  | finite s m e hm =>
    unfold pack
    dsimp only
    split
    · simp [packedInfinity]
    · rename_i hsmall
      split
      · rw [unpackExponent_packComponents]
        intro hexponent
        have hfield := congrArg BitVec.toNat hexponent
        simp at hfield
        omega
      · simp

end Binary64

/-! ### The bits of a double -/

namespace Double

open Float.Model (Format)
open Float.Model.UnpackedFloat

/-- Whether a double is no number. -/
def isNan (x : Double) : Bool :=
  match x.value with
  | .nan _ => true
  | _ => false

theorem isNan_iff (x : Double) :
    x.isNan = true ↔ x.bits.toNat / normalBound % 2048 = 2047 ∧ x.bits.toNat % normalBound ≠ 0 := by
  unfold isNan value
  by_cases hfield : x.bits.toNat / normalBound % 2048 = 2047
  · by_cases hfraction : x.bits.toNat % normalBound = 0 <;> simp [hfield, hfraction]
  · by_cases hzero : x.bits.toNat / normalBound % 2048 = 0 <;> simp [hfield, hzero]

theorem isNan_negate (x : Double) : x.negate.isNan = x.isNan := by
  rw [Bool.eq_iff_iff, isNan_iff, isNan_iff]
  have hbits : x.negate.bits.toNat = x.bits.toNat ^^^ 2 ^ 63 := UInt64.toNat_xor ..
  -- the sign is above the field and the fraction
  have hfield : x.negate.bits.toNat / normalBound % 2048 = x.bits.toNat / normalBound % 2048 := by
    rw [hbits, show normalBound = 2 ^ 52 from rfl, show 2048 = 2 ^ 11 from rfl, Nat.xor_div_two_pow,
      Nat.xor_mod_two_pow]
    simp
  have hfraction : x.negate.bits.toNat % normalBound = x.bits.toNat % normalBound := by
    rw [hbits, show normalBound = 2 ^ 52 from rfl, Nat.xor_mod_two_pow]
    simp
  rw [hfield, hfraction]

theorem isNan_signed (negative : Bool) (x : Double) : (x.signed negative).isNan = x.isNan := by
  cases negative with
  | true => exact isNan_negate x
  | false => rfl

/-- A double that has been computed is a NaN only if the result of the computation is. -/
theorem isNan_ofFloat {x : Float} (hx : x.toModel.unpack ≠ .notANumber) :
    (ofFloat x).isNan = false := by
  cases hnan : (ofFloat x).isNan with
  | false => rfl
  | true =>
    obtain ⟨hfield, hfraction⟩ := (isNan_iff (ofFloat x)).mp hnan
    rw [show (ofFloat x).bits = x.toBits from rfl, show normalBound = 4503599627370496 from rfl]
      at hfield hfraction
    refine absurd ?_ hx
    have hexponent : @unpackExponent Format.binary64 x.toBits.toBitVec = -1#11 := by
      refine BitVec.eq_of_toNat_eq ?_
      simpa [unpackExponent, Nat.shiftRight_eq_div_pow] using hfield
    have hmantissa : @unpackMantissa Format.binary64 x.toBits.toBitVec ≠ 0#52 := by
      intro hzero
      refine hfraction ?_
      simpa [unpackMantissa] using congrArg BitVec.toNat hzero
    show unpack Format.binary64 x.toBits.toBitVec = .notANumber
    unfold unpack
    rw [if_pos hexponent, if_neg hmantissa]

end Double

/-! ### Decimals -/

namespace Decimal

open Float.Model (Format UnpackedFloat)
open Binary64

/-- Whether an unpacked number is neither zero nor infinite. -/
def isProper : UnpackedFloat → Bool
  | .finite .. => true
  | _ => false

/-- The powers of ten that are kept as doubles. -/
theorem isProper_powersOfTen :
    ∀ p ∈ Float.exactlyRepresentablePowersOfTen.toList, isProper p.toModel.unpack = true := by
  decide

theorem unpack_ofScientific_ne_nan (m : Nat) (s : Bool) (e : Nat) :
    (Float.ofScientific m s e).toModel.unpack ≠ .notANumber := by
  unfold Float.ofScientific
  split
  · rename_i hfast
    have hsize : e < Float.exactlyRepresentablePowersOfTen.size := Nat.lt_succ_of_le hfast.2
    have hproper := isProper_powersOfTen _ (Array.mem_toList_iff.mpr (Array.getElem_mem hsize))
    have hnat : (m.toUInt64.toFloat).toModel.unpack ≠ .notANumber :=
      unpack_pack_ne_nan (ofNat_ne_nan _)
    dsimp only
    rcases hp : (Float.exactlyRepresentablePowersOfTen[e]).toModel.unpack
      with _ | _ | _ | ⟨t, n, k, hn⟩
    iterate 3
      rw [hp] at hproper
      cases hproper
    split
    · refine unpack_pack_ne_nan ?_
      rw [hp]
      exact div_ne_nan hnat t k hn
    · refine unpack_pack_ne_nan ?_
      rw [hp]
      exact mul_ne_nan hnat t k hn
  · exact unpack_pack_ne_nan (ofScientific_ne_nan _ _)

theorem isNan_toDouble (d : Decimal) : d.toDouble.isNan = false := by
  unfold toDouble
  rw [Double.isNan_signed]
  unfold magnitude
  dsimp only
  split
  · decide
  split
  · decide
  split
  · decide
  split
  · exact Double.isNan_ofFloat (unpack_ofScientific_ne_nan _ _ _)
  · exact Double.isNan_ofFloat (unpack_ofScientific_ne_nan _ _ _)

/-- The double nearest to a decimal is finite unless it is too large. -/
theorem isFinite_toDouble {d : Decimal} (h : d.toDouble.isInfinite = false) :
    d.toDouble.isFinite = true := by
  have hnan := d.isNan_toDouble
  unfold Double.isInfinite at h
  unfold Double.isNan at hnan
  unfold Double.isFinite
  cases hvalue : d.toDouble.value with
  | nan _ => simp [hvalue] at hnan
  | infinite _ => simp [hvalue] at h
  | finite _ _ _ => rfl

end Decimal

end TreeCompiler
