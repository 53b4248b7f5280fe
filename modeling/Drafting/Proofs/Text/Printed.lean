import Drafting.Proofs.Text.KeyLanguage
import Drafting.Proofs.Text.Trim

/-!
# Printed numbers

The text of a finite scalar is a sign or none, digits, and possibly a point with more digits. So
it belongs to the numbers that keys, angle literals and point literals accept, and no exponent,
blank or delimiter occurs in it. Which numeral is read from it is a matter of the layout alone;
that this numeral stands for the scalar again is a property of the number system, and a scalar
that has it is called legible.
-/

namespace Drafting

namespace Decimal

theorem digits_digitsOf (n : Nat) : Text.Digits (digitsOf n) :=
  ⟨Nat.toDigits_ne_nil, fun _ hc => Nat.isDigit_of_mem_toDigits (by decide) (by decide) hc⟩

theorem ofDigits_eq (ds : List Char) : ofDigits ds = Nat.ofDigitChars 10 ds 0 := by
  simp only [ofDigits, Nat.ofDigitChars_eq_foldl, Nat.mul_comm]

@[simp] theorem ofDigits_digitsOf (n : Nat) : ofDigits (digitsOf n) = n := by
  rw [ofDigits_eq, digitsOf, Nat.ofDigitChars_ten_toDigits]

theorem ofDigits_append_zeros (ds : List Char) (k : Nat) :
    ofDigits (ds ++ List.replicate k '0') = ofDigits ds * 10 ^ k := by
  rw [ofDigits_eq, ofDigits_eq, Nat.ofDigitChars_append, Nat.ofDigitChars_replicate_zero,
    Nat.mul_comm]

theorem ofDigits_zeros_append (k : Nat) (ds : List Char) :
    ofDigits (List.replicate k '0' ++ ds) = ofDigits ds := by
  rw [ofDigits_eq, ofDigits_eq, Nat.ofDigitChars_append, Nat.ofDigitChars_replicate_zero,
    Nat.mul_zero]

/-- The numeral of the positional layout, which has no exponent above zero. -/
def positional (d : Decimal) : Decimal :=
  if 0 ≤ d.exponent then ⟨d.negative, d.digits * 10 ^ d.exponent.toNat, 0⟩ else d

/-- Digits are prolonged by zeros unless they stand for zero, where it makes no difference. -/
theorem digits_padded (n k : Nat) :
    let ds := if n = 0 then digitsOf n else digitsOf n ++ List.replicate k '0'
    Text.Digits ds ∧ ofDigits ds = n * 10 ^ k := by
  have hdigits := digits_digitsOf n
  dsimp only
  split_ifs with hzero
  · simpa [hzero] using digits_digitsOf 0
  · refine ⟨⟨by simp [hdigits.ne_nil], fun c hc => ?_⟩, ?_⟩
    · rcases List.mem_append.mp hc with hc | hc
      · exact hdigits.isDigit c hc
      · rw [List.eq_of_mem_replicate hc]
        decide
    · rw [ofDigits_append_zeros, ofDigits_digitsOf]

theorem exists_mantissa (d : Decimal) : ∃ mantissa whole fraction,
    d.plain.toList = (if d.negative then ['-'] else []) ++ mantissa ∧
      Text.MantissaText mantissa whole fraction ∧
      d.positional = ⟨d.negative, ofDigits (whole ++ fraction), -fraction.length⟩ := by
  have hsign (body : List Char) : (if d.negative then '-' :: body else body) =
      (if d.negative then ['-'] else []) ++ body := by
    cases d.negative <;> rfl
  have hdigits := digits_digitsOf d.digits
  simp only [plain, positional, String.toList_ofList]
  rw [hsign]
  by_cases hexponent : 0 ≤ d.exponent
  · simp only [if_pos hexponent]
    obtain ⟨hwhole, hvalue⟩ := digits_padded d.digits d.exponent.toNat
    refine ⟨_, _, [], rfl, .whole hwhole, ?_⟩
    rw [List.append_nil, hvalue]
    rfl
  · simp only [if_neg hexponent]
    generalize hplaces : d.exponent.natAbs = places
    generalize hpadded : List.replicate (places + 1 - (digitsOf d.digits).length) '0' ++
      digitsOf d.digits = padded
    have hlength : places + 1 ≤ padded.length := by
      rw [← hpadded, List.length_append, List.length_replicate]
      omega
    have hdigit : ∀ c ∈ padded, c.isDigit = true := by
      intro c hc
      rw [← hpadded] at hc
      rcases List.mem_append.mp hc with hc | hc
      · rw [List.eq_of_mem_replicate hc]
        decide
      · exact hdigits.isDigit c hc
    have hfraction : (padded.drop (padded.length - places)).length = places := by
      rw [List.length_drop]
      omega
    refine ⟨_, _, _, rfl, .point ⟨?_, fun c hc => hdigit c (List.mem_of_mem_take hc)⟩
      ⟨?_, fun c hc => hdigit c (List.mem_of_mem_drop hc)⟩, ?_⟩
    · rw [← List.length_pos_iff, List.length_take]
      omega
    · rw [← List.length_pos_iff, hfraction]
      omega
    · rw [List.take_append_drop, hfraction, ← hpadded, ofDigits_zeros_append, ofDigits_digitsOf]
      have hvalue : -(places : Int) = d.exponent := by omega
      rw [hvalue]

/-- Every numeral is laid out as a number, without an exponent. -/
theorem numberText_plain (d : Decimal) : Text.NumberText d.plain.toList d.positional := by
  obtain ⟨mantissa, whole, fraction, htext, hmantissa, hvalue⟩ := d.exists_mantissa
  have hsign : Text.SignText Text.keyNumeral (if d.negative then ['-'] else []) d.negative := by
    cases d.negative with
    | false => exact .none
    | true => exact .minus
  have hnumber := Text.NumberText.mk hsign hmantissa .none
  rwa [List.append_nil, ← htext, Int.zero_sub, ← hvalue] at hnumber

end Decimal

variable {K : Type} [Scalar K]

namespace Scalar

/-- A finite scalar is legible when each numeral that its text can be read as stands for it. -/
def Legible (v : K) : Prop :=
  isFinite v = true → ∀ d, Text.NumberText (text v).toList d → ofDecimal d = v

/-- The text of a legible finite scalar denotes it. -/
theorem Legible.denotes {v : K} (h : Legible v) (hv : isFinite v = true) :
    Text.Denotes (text v).toList v := by
  have hnumber : Text.NumberText (text v).toList (toDecimal v).positional := by
    rw [text, if_pos hv]
    exact (toDecimal v).numberText_plain
  exact ⟨Text.mem_numbers_iff.mpr ⟨_, hnumber⟩, ⟨_, hnumber, h hv _ hnumber⟩, hv⟩

end Scalar

namespace Text

theorem NumberText.mem {number : List Char} {d : Decimal} (h : NumberText number d) {c : Char}
    (hc : c ∈ number) : c.isDigit = true ∨ c ∈ ['-', '+', '.', 'e', 'E'] := by
  have hsign {f : NumeralFormat} {sign : List Char} {negative : Bool}
      (h : SignText f sign negative) (hc : c ∈ sign) : c ∈ ['-', '+', '.', 'e', 'E'] := by
    cases h with
    | none => cases hc
    | minus =>
      cases List.mem_singleton.mp hc
      decide
    | plus =>
      cases List.mem_singleton.mp hc
      decide
  cases h with
  | mk hs hm he =>
    rcases List.mem_append.mp hc with hc | hc
    · rcases List.mem_append.mp hc with hc | hc
      · exact .inr (hsign hs hc)
      · cases hm with
        | whole hw => exact .inl (hw.isDigit c hc)
        | point hw hf =>
          rcases List.mem_append.mp hc with hc | hc
          · exact .inl (hw.isDigit c hc)
          · rcases List.mem_cons.mp hc with rfl | hc
            · exact .inr (by decide)
            · exact .inl (hf.isDigit c hc)
        | leadingPoint hf =>
          rcases List.mem_cons.mp hc with rfl | hc
          · exact .inr (by decide)
          · exact .inl (hf.isDigit c hc)
    · cases he with
      | none => cases hc
      | mk hletter hs hds =>
        rcases List.mem_cons.mp hc with rfl | hc
        · rcases hletter with rfl | rfl
          · exact .inr (by decide)
          · exact .inr (by decide)
        · rcases List.mem_append.mp hc with hc | hc
          · exact .inr (hsign hs hc)
          · exact .inl (hds.isDigit c hc)

theorem isBlank_of_isDigit {c : Char} (h : c.isDigit = true) : isBlank c = false := by
  refine Name.isBlank_of_isConstituent ?_
  simp [Name.isConstituent, Name.isInitial, Char.isAlphanum, h]

variable {number : List Char} {v : K}

theorem Denotes.isBlank (h : Denotes number v) : ∀ c ∈ number, isBlank c = false := by
  obtain ⟨d, hd, -⟩ := h.value
  intro c hc
  rcases hd.mem hc with hdigit | hmark
  · exact isBlank_of_isDigit hdigit
  · have hmarks : ∀ c ∈ ['-', '+', '.', 'e', 'E'], Text.isBlank c = false := by
      simp [Text.isBlank]
    exact hmarks c hmark

theorem Denotes.notMem (h : Denotes number v) {c : Char} (hdigit : c.isDigit = false)
    (hmark : c ∉ ['-', '+', '.', 'e', 'E']) : c ∉ number := by
  obtain ⟨d, hd, -⟩ := h.value
  intro hc
  rcases hd.mem hc with h | h
  · rw [hdigit] at h
    cases h
  · exact hmark h

end Text

end Drafting
