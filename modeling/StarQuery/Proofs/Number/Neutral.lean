import Mathlib
import StarQuery.Proofs.Number.Text

/-!
# Neutral and absorbing doubles

Zero is neutral for sums of doubles, but for negative zero, which it turns into zero (`zero_add_or`); one is neutral for products
(`one_mul_eq`). What is not finite absorbs whatever is added to it or multiplied with it.
-/

namespace StarQuery

open Float.Model (Format UnpackedFloat totalExponent)
open Float.Model.UnpackedFloat (Sign Accuracy ExtendedMantissa add mul roundWithAccuracy shiftToExponent shiftToTargetExponent
  unpackExponent unpackMantissa)

/-! ## Unpacked doubles -/

/-- A double is what its parts are packed into. -/
theorem eq_of_unpack {x : Float} {u : UnpackedFloat} (h : x.toModel.unpack = u) : x = Float.ofModel (Float.Model.pack u) := by
  have hbits : UnpackedFloat.pack Format.binary64 x.toModel.unpack = x.toModel.toBits.toBitVec :=
    UnpackedFloat.pack_unpack_of_valid x.toModel.valid
  rw [← h]
  apply float_eq_of_toBits
  exact (congrArg BitVec.toNat hbits).symm

/-- The mantissa of a finite double has 53 bits, or fewer at the least exponent. -/
theorem bounds_of_unpack {x : Float} {s : Sign} {m : Nat} {e : Int} {h : 0 < m} (hx : x.toModel.unpack = .finite s m e h) :
    m < 2 ^ 53 ∧ -1074 ≤ e ∧ (2 ^ 52 ≤ m ∨ e = -1074) := by
  let bits : BitVec Format.binary64.numBits := x.toModel.toBits.toBitVec
  have hfraction : (unpackMantissa bits).toNat < 2 ^ 52 := (unpackMantissa bits).isLt
  have hbias : (Format.binary64.exponentBias : Int) + Format.binary64.mantissaBitsWithoutImplicit = 1075 := by decide
  change UnpackedFloat.unpack Format.binary64 bits = _ at hx
  unfold UnpackedFloat.unpack at hx
  simp only at hx
  split at hx
  · split at hx <;> cases hx
  split at hx
  · split at hx
    · cases hx
    · rename_i hzero _
      cases hx
      rw [hzero]
      exact ⟨by omega, by decide, .inr (by decide)⟩
  · rename_i hnormal
    cases hx
    have hexponent : (unpackExponent bits).toNat ≠ 0 := fun hzero => hnormal (BitVec.eq_of_toNat_eq hzero)
    have hmantissa : (1#1 ++ unpackMantissa bits).toNat = 2 ^ 52 + (unpackMantissa bits).toNat := by
      rw [BitVec.toNat_append, ← Nat.shiftLeft_add_eq_or_of_lt hfraction]
      rfl
    rw [hbias, hmantissa]
    exact ⟨by omega, by omega, .inl (by omega)⟩

/-! ## Neutral operands -/

/-- Zero and a double add up to the double, but for negative zero. -/
theorem zero_add_or (x : Float) : x = Float.ofBits 0x8000000000000000 ∨ Float.ofInt 0 + x = x := by
  have hsum : Float.ofInt 0 + x = Float.ofModel (Float.Model.pack (add Format.binary64 (.zero .positive) x.toModel.unpack)) := rfl
  cases hx : x.toModel.unpack with
  | infinity s | notANumber | finite s m e h =>
    rw [hsum, hx]
    exact .inr (eq_of_unpack hx).symm
  | zero s =>
    cases s with
    | positive =>
      rw [hsum, hx]
      exact .inr (eq_of_unpack hx).symm
    | negative => exact .inl ((eq_of_unpack hx).trans (by decide +kernel))

/-- Shifting zeros out of a mantissa loses nothing. -/
theorem shiftRight_mul_two_pow (m k : Nat) : (⟨m * 2 ^ k, false, false⟩ : ExtendedMantissa) >>> k = ⟨m, false, false⟩ := by
  induction k generalizing m with
  | zero => simp [HShiftRight.hShiftRight, Nat.repeat]
  | succ k ih =>
    change ExtendedMantissa.shiftRightOne ((⟨m * 2 ^ (k + 1), false, false⟩ : ExtendedMantissa) >>> k) = _
    have hsplit : m * 2 ^ (k + 1) = m * 2 * 2 ^ k := by ring
    rw [hsplit, ih, ExtendedMantissa.shiftRightOne]
    simp

/-- Zeros behind a mantissa add to its length. -/
theorem log2_mul_two_pow {m : Nat} (hm : 0 < m) (k : Nat) : (m * 2 ^ k).log2 = m.log2 + k := by
  rw [Nat.log2_eq_iff (by positivity), pow_add, show m.log2 + k + 1 = m.log2 + 1 + k by omega, pow_add]
  constructor
  · exact Nat.mul_le_mul_right _ (Nat.log2_self_le hm.ne')
  · exact Nat.mul_lt_mul_of_pos_right Nat.lt_log2_self (by positivity)

/-- The mantissa of a double with zeros behind it is shifted back to where it was. -/
theorem shiftToTargetExponent_mul_two_pow {m : Nat} {e : Int} (hpos : 0 < m) (hm : m < 2 ^ 53) (he : -1074 ≤ e)
    (hfull : 2 ^ 52 ≤ m ∨ e = -1074) (k : Nat) :
    shiftToTargetExponent Format.binary64 (m * 2 ^ k) (e - k) .exact = (⟨m, false, false⟩, e) := by
  have hbits : m.log2 ≤ 52 := Nat.lt_succ_iff.1 ((Nat.log2_lt hpos.ne').2 hm)
  have hallBits : 2 ^ 52 ≤ m → 52 ≤ m.log2 := (Nat.le_log2 hpos.ne').2
  have htarget : Format.binary64.targetExponent (totalExponent (m * 2 ^ k) (e - k)) = e := by
    change max (((m * 2 ^ k).log2 + 1 + (e - k)) - 53) (-1074) = e
    rw [log2_mul_two_pow hpos]
    push_cast
    omega
  have hshift : (e - (e - k)).toNat = k := by omega
  simp only [shiftToTargetExponent, htarget, shiftToExponent, hshift, ExtendedMantissa.ofMantissaAndAccuracy,
    shiftRight_mul_two_pow, Int.sub_add_cancel]

/-- One times a double is the double. -/
theorem one_mul_eq (x : Float) : Float.ofInt 1 * x = x := by
  have hproduct : Float.ofInt 1 * x = Float.ofModel (Float.Model.pack
      (mul Format.binary64 (.finite .positive (2 ^ 52) (-52) (by decide)) x.toModel.unpack)) := rfl
  have hsign : ∀ s : Sign, Sign.positive * s = s := by
    intro s
    cases s <;> rfl
  rw [hproduct]
  cases hx : x.toModel.unpack with
  | notANumber => exact (eq_of_unpack hx).symm
  | infinity s | zero s =>
    rw [mul, hsign]
    exact (eq_of_unpack hx).symm
  | finite s m e hm =>
    -- the product has 52 zeros behind the mantissa of the double, and rounding shifts them out again
    obtain ⟨hlt, he, hfull⟩ := bounds_of_unpack hx
    have hfirst := shiftToTargetExponent_mul_two_pow hm hlt he hfull 52
    have hsecond := shiftToTargetExponent_mul_two_pow hm hlt he hfull 0
    rw [Nat.mul_comm] at hfirst
    rw [pow_zero, Nat.mul_one, Int.natCast_zero, Int.sub_zero] at hsecond
    have hexponent : (-52 : Int) + e = e - (52 : Nat) := by omega
    have hrounded : roundWithAccuracy Format.binary64 s (2 ^ 52 * m) (-52 + e) .exact = .finite s m e hm := by
      simp only [roundWithAccuracy, hexponent, hfirst, ExtendedMantissa.roundedMantissa, ExtendedMantissa.accuracy,
        Accuracy.roundToNearestEven, hsecond, hm.ne', dite_false]
    rw [mul, hsign, hrounded]
    exact (eq_of_unpack hx).symm

/-! ## Absorbing operands -/

/-- An infinity, or no number at all. -/
def Unbounded : UnpackedFloat → Prop
  | .infinity _ | .notANumber => True
  | .zero _ | .finite .. => False

/-- A double without an exact value is an infinity, or no number. -/
theorem unbounded_of_ofFloat?_eq_none {x : Float} (h : Scaled.ofFloat? x = none) : Unbounded x.toModel.unpack := by
  rcases not_finite_cases h with rfl | rfl | rfl
  · exact trivial
  · exact trivial
  · exact trivial

namespace Unbounded

/-- Neither an infinity nor what is no number has an exact value. -/
theorem ofFloat?_eq_none {u : UnpackedFloat} (h : Unbounded u) :
    Scaled.ofFloat? (Float.ofModel (Float.Model.pack u)) = none := by
  cases u with
  | infinity s => cases s <;> decide +kernel
  | notANumber => decide +kernel
  | zero | finite => cases h

/-- What is not finite stays so, whatever is added to it. -/
theorem add {u : UnpackedFloat} (h : Unbounded u) (w : UnpackedFloat) : Unbounded (add Format.binary64 u w) := by
  cases u with
  | infinity s =>
    cases w with
    | infinity s' => cases s <;> cases s' <;> trivial
    | _ => trivial
  | notANumber => cases w <;> trivial
  | zero | finite => cases h

/-- What is not finite stays so, whatever it is multiplied with. -/
theorem mul {u : UnpackedFloat} (h : Unbounded u) (w : UnpackedFloat) : Unbounded (mul Format.binary64 u w) := by
  cases u with
  | infinity s => cases w <;> trivial
  | notANumber => cases w <;> trivial
  | zero | finite => cases h

end Unbounded

/-- A sum is not finite if one of its terms is not. -/
theorem ofFloat?_add_eq_none {x : Float} (h : Scaled.ofFloat? x = none) (y : Float) : Scaled.ofFloat? (x + y) = none :=
  ((unbounded_of_ofFloat?_eq_none h).add y.toModel.unpack).ofFloat?_eq_none

/-- A product is not finite if one of its factors is not. -/
theorem ofFloat?_mul_eq_none {x : Float} (h : Scaled.ofFloat? x = none) (y : Float) : Scaled.ofFloat? (x * y) = none :=
  ((unbounded_of_ofFloat?_eq_none h).mul y.toModel.unpack).ofFloat?_eq_none

end StarQuery
