import Mathlib
import Drafting.Angle
import Drafting.Binary64

/-!
# Finite values stay finite when scaled down

A finite value has a mantissa of 53 bits at most and an exponent of 971 at most, and a
result overflows only by an exponent above that. Rounding moves the leading bit of a number
up by one place at most, so a product or a quotient whose leading bit stays a place below
the top of the range is finite.

The units of angles and fractions scale numbers down, a degree to a part of a radian and a
percent to a part of the whole, so what is read with a unit is as finite as what is read
without.
-/

namespace Drafting
namespace Binary64

open Float.Model (Format UnpackedFloat totalExponent)
open Float.Model.UnpackedFloat

def greatestExponent : Int := 971

/-- A number that is zero or has an exponent within the format. -/
inductive Fits : UnpackedFloat → Prop
  | zero (sign : Sign) : Fits (.zero sign)
  | finite {sign : Sign} {m : Nat} {e : Int} {hm : 0 < m} :
      e ≤ greatestExponent → Fits (.finite sign m e hm)

theorem isFinite_unpack_iff (b : BitVec Format.binary64.numBits) :
    (unpack .binary64 b).isFinite = true ↔ unpackExponent b ≠ -1#_ := by
  simp only [unpack]
  split_ifs with hones
  · exact iff_of_false nofun (not_not_intro hones)
  · exact iff_of_false nofun (not_not_intro hones)
  · exact iff_of_true rfl hones
  · exact iff_of_true rfl hones
  · exact iff_of_true rfl hones

theorem isFinite_unpack_pack {f : UnpackedFloat} (h : Fits f) :
    (unpack .binary64 (pack .binary64 f)).isFinite = true := by
  rw [isFinite_unpack_iff]
  cases h with
  | zero sign =>
    rw [pack, packedZero, unpackExponent_packComponents]
    decide
  | @finite sign m e hm he =>
    have hbias : (Format.binary64.exponentBias : Int) = 1023 := rfl
    have hvalues : 2 ^ Format.binary64.exponentBits = 2048 := rfl
    rw [greatestExponent] at he
    simp only [pack, hbias]
    rw [if_neg (by omega)]
    split_ifs
    · rw [unpackExponent_packComponents]
      -- The stored exponent is at most 2046, and the reserved one is 2047.
      intro hones
      have hnat := congrArg BitVec.toNat hones
      have hreserved : (-1#(Format.binary64.exponentBits)).toNat = 2047 := rfl
      rw [BitVec.toNat_ofNat, hvalues, hreserved] at hnat
      omega
    · rw [unpackExponent_packComponents]
      decide

theorem bounds_of_unpack {b : BitVec Format.binary64.numBits} {sign : Sign} {m : Nat} {e : Int}
    {hm : 0 < m} (h : unpack .binary64 b = .finite sign m e hm) :
    totalExponent m e ≤ 1024 ∧ e ≤ greatestExponent := by
  have hbounds : m < 2 ^ 53 ∧ e ≤ greatestExponent := by
    have hbias : (Format.binary64.exponentBias : Int) = 1023 := rfl
    have hreserved : (-1#(Format.binary64.exponentBits)).toNat = 2047 := rfl
    simp only [unpack] at h
    split_ifs at h with hones _ hzero _
    · have hmantissa : (unpackMantissa b).toNat < 2 ^ 52 := BitVec.isLt _
      obtain ⟨-, rfl, rfl⟩ := UnpackedFloat.finite.inj h
      have hexponent : (unpackExponent b).toNat = 0 := congrArg BitVec.toNat hzero
      rw [greatestExponent]
      omega
    · have hmantissa : (1#1 ++ unpackMantissa b).toNat < 2 ^ 53 := BitVec.isLt _
      have hexponent : (unpackExponent b).toNat < 2 ^ 11 := BitVec.isLt _
      obtain ⟨-, rfl, rfl⟩ := UnpackedFloat.finite.inj h
      have hne : (unpackExponent b).toNat ≠ 2047 := fun he => hones (BitVec.eq_of_toNat_eq he)
      rw [greatestExponent]
      omega
  obtain ⟨hmantissa, hexponent⟩ := hbounds
  have hlog : m.log2 < 53 := (Nat.log2_lt hm.ne').mpr hmantissa
  refine ⟨?_, hexponent⟩
  rw [greatestExponent] at hexponent
  rw [totalExponent]
  omega

theorem log2_le_of_lt {m n : Nat} (h : m < 2 ^ (n + 1)) : m.log2 ≤ n := by
  rcases Nat.eq_zero_or_pos m with rfl | hm
  · rw [Nat.log2_zero]
    exact Nat.zero_le n
  · exact Nat.le_of_lt_succ ((Nat.log2_lt hm.ne').mpr h)

theorem mantissa_shiftRight (em : ExtendedMantissa) (k : Nat) :
    (em >>> k).mantissa = em.mantissa / 2 ^ k := by
  induction k with
  | zero => exact (Nat.div_one _).symm
  | succ k ih =>
    change (em >>> k).mantissa / 2 = em.mantissa / 2 ^ (k + 1)
    rw [ih, Nat.div_div_eq_div_mul, Nat.pow_succ]

theorem mantissa_ofMantissaAndAccuracy (m : Nat) (accuracy : Accuracy) :
    (ExtendedMantissa.ofMantissaAndAccuracy m accuracy).mantissa = m := by
  unfold ExtendedMantissa.ofMantissaAndAccuracy
  split <;> rfl

theorem roundedMantissa_le (em : ExtendedMantissa) : em.roundedMantissa ≤ em.mantissa + 1 := by
  unfold ExtendedMantissa.roundedMantissa Accuracy.roundToNearestEven
  split <;> omega

theorem targetExponent_eq (total : Int) :
    Format.binary64.targetExponent total = max (total - 53) (-1074) := rfl

variable (m : Nat) (e : Int) (accuracy : Accuracy)

theorem exponent_shiftToTargetExponent :
    (shiftToTargetExponent .binary64 m e accuracy).2 =
      max e (max (totalExponent m e - 53) (-1074)) := by
  simp only [shiftToTargetExponent, shiftToExponent, targetExponent_eq]
  omega

/-- Rounding at the target exponent moves the leading bit up by one place at most. -/
theorem totalExponent_roundedMantissa_le :
    let (em, e') := shiftToTargetExponent .binary64 m e accuracy
    totalExponent em.roundedMantissa e' ≤ max (totalExponent m e) (e' + 1) + 1 := by
  simp only [shiftToTargetExponent, shiftToExponent]
  generalize (Format.binary64.targetExponent (totalExponent m e) - e).toNat = k
  have hrounded := roundedMantissa_le (ExtendedMantissa.ofMantissaAndAccuracy m accuracy >>> k)
  rw [mantissa_shiftRight, mantissa_ofMantissaAndAccuracy] at hrounded
  generalize (ExtendedMantissa.ofMantissaAndAccuracy m accuracy >>> k).roundedMantissa = r at *
  have hlog : r.log2 ≤ m.log2 - k + 1 := by
    have hkept : m / 2 ^ k < 2 ^ (m.log2 - k + 1) := by
      rw [Nat.div_lt_iff_lt_mul (Nat.two_pow_pos k), ← Nat.pow_add]
      exact Nat.lt_of_lt_of_le Nat.lt_log2_self (Nat.pow_le_pow_right (by decide) (by omega))
    have hpos := Nat.two_pow_pos (m.log2 - k + 1)
    refine log2_le_of_lt ?_
    rw [Nat.pow_succ]
    omega
  rw [totalExponent, totalExponent]
  omega

/-- A number whose leading bit stays a place below the top of the range is within the format
after rounding. -/
theorem fits_roundWithAccuracy (sign : Sign) (htop : totalExponent m e ≤ 1023)
    (he : e ≤ greatestExponent) : Fits (roundWithAccuracy .binary64 sign m e accuracy) := by
  have hexponent := exponent_shiftToTargetExponent m e accuracy
  have htotal := totalExponent_roundedMantissa_le m e accuracy
  unfold roundWithAccuracy
  dsimp only at htotal ⊢
  split_ifs
  · exact .zero sign
  · refine .finite ?_
    rw [exponent_shiftToTargetExponent]
    rw [greatestExponent] at he ⊢
    omega

theorem totalExponent_mul_le (m₁ m₂ : Nat) (e₁ e₂ : Int) :
    totalExponent (m₁ * m₂) (e₁ + e₂) ≤ totalExponent m₁ e₁ + totalExponent m₂ e₂ := by
  have hlog : (m₁ * m₂).log2 ≤ m₁.log2 + m₂.log2 + 1 := by
    refine log2_le_of_lt ?_
    calc m₁ * m₂ < 2 ^ (m₁.log2 + 1) * 2 ^ (m₂.log2 + 1) :=
          Nat.mul_lt_mul'' Nat.lt_log2_self Nat.lt_log2_self
      _ = 2 ^ (m₁.log2 + m₂.log2 + 1 + 1) := by rw [← Nat.pow_add]; congr 1; omega
  rw [totalExponent, totalExponent, totalExponent]
  omega

theorem totalExponent_div_le (m₁ : Nat) {m₂ : Nat} (hm₂ : m₂ ≠ 0) (e₁ e₂ : Int) (k : Nat) :
    totalExponent ((m₁ <<< k) / m₂) (e₁ - e₂ - k) ≤
      max (totalExponent m₁ e₁ - totalExponent m₂ e₂) (e₁ - e₂ - k) + 1 := by
  have hlog : ((m₁ <<< k) / m₂).log2 ≤ m₁.log2 + k - m₂.log2 := by
    refine log2_le_of_lt ?_
    rw [Nat.div_lt_iff_lt_mul (Nat.pos_of_ne_zero hm₂), Nat.shiftLeft_eq]
    calc m₁ * 2 ^ k < 2 ^ (m₁.log2 + 1) * 2 ^ k :=
          Nat.mul_lt_mul_of_pos_right Nat.lt_log2_self (Nat.two_pow_pos k)
      _ = 2 ^ (m₁.log2 + 1 + k) := (Nat.pow_add ..).symm
      _ ≤ 2 ^ (m₁.log2 + k - m₂.log2 + 1 + m₂.log2) :=
          Nat.pow_le_pow_right (by decide) (by omega)
      _ = 2 ^ (m₁.log2 + k - m₂.log2 + 1) * 2 ^ m₂.log2 := Nat.pow_add ..
      _ ≤ 2 ^ (m₁.log2 + k - m₂.log2 + 1) * m₂ :=
          Nat.mul_le_mul_left _ (Nat.log2_self_le hm₂)
  rw [totalExponent, totalExponent, totalExponent]
  omega

theorem isFinite_cases {x : Float} (hx : x.isFinite = true) :
    (∃ sign, x.toModel.unpack = .zero sign) ∨
      ∃ sign m e hm, x.toModel.unpack = .finite sign m e hm ∧
        totalExponent m e ≤ 1024 ∧ e ≤ greatestExponent := by
  have hfinite : x.toModel.unpack.isFinite = true := hx
  cases hunpack : x.toModel.unpack with
  | infinity sign =>
    rw [hunpack] at hfinite
    cases hfinite
  | notANumber =>
    rw [hunpack] at hfinite
    cases hfinite
  | zero sign => exact .inl ⟨sign, rfl⟩
  | finite sign m e hm => exact .inr ⟨sign, m, e, hm, rfl, bounds_of_unpack hunpack⟩

section

variable {x y : Float} {sign : Sign} {m : Nat} {e : Int} {hm : 0 < m}

/-- A finite value times a value below one half is finite. -/
theorem isFinite_mul (hx : x.isFinite = true) (hy : y.toModel.unpack = .finite sign m e hm)
    (htotal : totalExponent m e ≤ -1) : (x * y).isFinite = true := by
  refine isFinite_unpack_pack ?_
  obtain ⟨s, hzero⟩ | ⟨s, m₁, e₁, hm₁, hfinite, htop, he⟩ := isFinite_cases hx
  · rw [hzero, hy]
    exact .zero _
  · rw [hfinite, hy]
    have hle := totalExponent_mul_le m₁ m e₁ e
    refine fits_roundWithAccuracy _ _ _ _ (by omega) ?_
    rw [greatestExponent] at he ⊢
    rw [totalExponent] at htotal
    omega

/-- A finite value divided by a value of two or more is finite. -/
theorem isFinite_div (hx : x.isFinite = true) (hy : y.toModel.unpack = .finite sign m e hm)
    (htotal : 2 ≤ totalExponent m e) : (x / y).isFinite = true := by
  refine isFinite_unpack_pack ?_
  obtain ⟨s, hzero⟩ | ⟨s, m₁, e₁, hm₁, hfinite, htop, he⟩ := isFinite_cases hx
  · rw [hzero, hy]
    exact .zero _
  · rw [hfinite, hy]
    simp only [div, divCore, targetExponent_eq]
    generalize ht : min (e₁ - e) (max (totalExponent m₁ e₁ - totalExponent m e - 53) (-1074)) = t
    have hk : e₁ - e - (e₁ - e - t).toNat = t := by omega
    have hle := totalExponent_div_le m₁ hm.ne' e₁ e (e₁ - e - t).toNat
    rw [hk] at hle
    refine fits_roundWithAccuracy _ _ _ _ (by omega) ?_
    rw [greatestExponent]
    omega

end

set_option maxRecDepth 10000 in
theorem isFinite_radians {v : Float} (h : Scalar.isFinite v = true) :
    Scalar.isFinite (Angle.ofDegrees v).radians = true :=
  isFinite_mul (y := Scalar.pi / 180) (m := 5030569068109113) (e := -58) h rfl (by decide)

theorem isFinite_percent {v : Float} (h : Scalar.isFinite v = true) :
    Scalar.isFinite (v / 100) = true :=
  isFinite_div h (y := 100) (m := 7036874417766400) (e := -46) rfl (by decide)

end Binary64
end Drafting
