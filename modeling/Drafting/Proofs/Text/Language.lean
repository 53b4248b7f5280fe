import Mathlib.Computability.Language
import Drafting.Name
import Drafting.Proofs.Text.Numeral

/-!
# Numbers and names as regular languages

The numbers of keys and angle literals are the language `-?(D+(.D+)?|.D+)([eE][+-]?D+)?` over
the ASCII digits `D`, and names are the language `[A-Za-z0-9_][A-Za-z0-9_-]*`. The first is that
of the grammar that the scanner is compared with, part by part: sign, mantissa and exponent.
-/

namespace Drafting

open scoped Computability

namespace Text

variable {cs : List Char} {P Q : Char → Prop}

def oneOf (P : Char → Prop) : Language Char := {cs | ∃ c, cs = [c] ∧ P c}

def char (c : Char) : Language Char := oneOf (· = c)

def range (first last : Char) : Language Char := oneOf fun c => first ≤ c ∧ c ≤ last

def optional (l : Language Char) : Language Char := 1 + l

theorem mem_oneOf : cs ∈ oneOf P ↔ ∃ c, cs = [c] ∧ P c := Iff.rfl

theorem mem_char {c : Char} : cs ∈ char c ↔ cs = [c] := by
  simp [char, mem_oneOf]

theorem mem_optional {l : Language Char} : cs ∈ optional l ↔ cs = [] ∨ cs ∈ l := by
  rw [optional, Language.mem_add, Language.mem_one]

theorem oneOf_add (P Q : Char → Prop) : oneOf P + oneOf Q = oneOf fun c => P c ∨ Q c := by
  ext cs
  simp only [Language.mem_add, mem_oneOf, ← exists_or, ← and_or_left]

theorem mem_kstar_oneOf : cs ∈ (oneOf P)∗ ↔ ∀ c ∈ cs, P c := by
  rw [Language.mem_kstar]
  constructor
  · rintro ⟨texts, rfl, htexts⟩ c hc
    obtain ⟨text, htext, hc⟩ := List.mem_flatten.mp hc
    obtain ⟨d, rfl, hd⟩ := htexts text htext
    rwa [List.mem_singleton.mp hc]
  · intro h
    refine ⟨cs.map fun c => [c], ?_, ?_⟩
    · rw [← List.flatMap_def, List.flatMap_singleton']
    · rw [List.forall_mem_map]
      exact fun c hc => ⟨c, rfl, h c hc⟩

theorem mem_oneOf_mul_kstar {cs : List Char} : cs ∈ oneOf P * (oneOf Q)∗ ↔
    ∃ c rest, cs = c :: rest ∧ P c ∧ ∀ d ∈ rest, Q d := by
  rw [Language.mem_mul]
  constructor
  · rintro ⟨-, ⟨c, rfl, hc⟩, rest, hrest, rfl⟩
    exact ⟨c, rest, rfl, hc, mem_kstar_oneOf.mp hrest⟩
  · rintro ⟨c, rest, rfl, hc, hrest⟩
    exact ⟨[c], ⟨c, rfl, hc⟩, rest, mem_kstar_oneOf.mpr hrest, rfl⟩

def digits : Language Char := range '0' '9' * (range '0' '9')∗

/-- The language `-?(D+(.D+)?|.D+)([eE][+-]?D+)?`. -/
def numbers : Language Char :=
  optional (char '-') *
    (digits * optional (char '.' * digits) + char '.' * digits) *
      optional ((char 'e' + char 'E') * (optional (char '+' + char '-') * digits))

theorem isDigit_iff {c : Char} : c.isDigit = true ↔ '0' ≤ c ∧ c ≤ '9' := by
  have hrange : c.isDigit = (decide ('0' ≤ c) && decide (c ≤ '9')) := rfl
  simp [hrange]

theorem mem_digits : cs ∈ digits ↔ Digits cs := by
  rw [digits, range, mem_oneOf_mul_kstar]
  simp only [← isDigit_iff]
  constructor
  · rintro ⟨c, rest, rfl, hc, hrest⟩
    exact ⟨List.cons_ne_nil c rest, List.forall_mem_cons.mpr ⟨hc, hrest⟩⟩
  · rintro ⟨hne, hdigit⟩
    obtain ⟨c, rest, rfl⟩ := List.exists_cons_of_ne_nil hne
    obtain ⟨hc, hrest⟩ := List.forall_mem_cons.mp hdigit
    exact ⟨c, rest, rfl, hc, hrest⟩

theorem mem_minus : cs ∈ optional (char '-') ↔ ∃ negative, SignText keyNumeral cs negative := by
  rw [mem_optional, mem_char]
  constructor
  · rintro (rfl | rfl)
    · exact ⟨false, .none⟩
    · exact ⟨true, .minus⟩
  · rintro ⟨negative, h⟩
    cases h with
    | none => exact .inl rfl
    | minus => exact .inr rfl
    | plus h => cases h

theorem mem_sign : cs ∈ optional (char '+' + char '-') ↔
    ∃ negative, SignText coordinateNumeral cs negative := by
  rw [mem_optional, Language.mem_add, mem_char, mem_char]
  constructor
  · rintro (rfl | rfl | rfl)
    · exact ⟨false, .none⟩
    · exact ⟨false, .plus rfl⟩
    · exact ⟨true, .minus⟩
  · rintro ⟨negative, h⟩
    cases h with
    | none => exact .inl rfl
    | minus => exact .inr (.inr rfl)
    | plus h => exact .inr (.inl rfl)

theorem mem_mantissa : cs ∈ digits * optional (char '.' * digits) + char '.' * digits ↔
    ∃ whole fraction, MantissaText cs whole fraction := by
  simp only [Language.mem_add, Language.mem_mul, mem_optional, mem_char, mem_digits]
  constructor
  · rintro (⟨w, hw, -, rfl | ⟨-, rfl, f, hf, rfl⟩, rfl⟩ | ⟨-, rfl, f, hf, rfl⟩)
    · exact ⟨w, [], by simpa using .whole hw⟩
    · exact ⟨w, f, .point hw hf⟩
    · exact ⟨[], f, .leadingPoint hf⟩
  · rintro ⟨whole, fraction, h⟩
    cases h with
    | whole hw => exact .inl ⟨_, hw, [], .inl rfl, List.append_nil _⟩
    | point hw hf => exact .inl ⟨_, hw, _, .inr ⟨_, rfl, _, hf, rfl⟩, rfl⟩
    | leadingPoint hf => exact .inr ⟨_, rfl, _, hf, rfl⟩

theorem mem_exponent :
    cs ∈ optional ((char 'e' + char 'E') * (optional (char '+' + char '-') * digits)) ↔
      ∃ e, ExponentText cs e := by
  rw [mem_optional]
  simp only [Language.mem_mul, mem_sign, Language.mem_add, mem_char, mem_digits]
  constructor
  · rintro (rfl | ⟨-, rfl | rfl, -, ⟨sign, ⟨negative, hsign⟩, ds, hds, rfl⟩, rfl⟩)
    · exact ⟨0, .none⟩
    · have hexponent := ExponentText.mk (c := 'e') (.inl rfl) hsign hds
      exact ⟨_, hexponent⟩
    · have hexponent := ExponentText.mk (c := 'E') (.inr rfl) hsign hds
      exact ⟨_, hexponent⟩
  · rintro ⟨e, h⟩
    cases h with
    | none => exact .inl rfl
    | mk hc hsign hds =>
      refine .inr ⟨[_], ?_, _, ⟨_, ⟨_, hsign⟩, _, hds, rfl⟩, rfl⟩
      rcases hc with rfl | rfl
      · exact .inl rfl
      · exact .inr rfl

/-- The regular language is that of the grammar. -/
theorem mem_numbers_iff : cs ∈ numbers ↔ ∃ d, NumberText cs d := by
  rw [numbers, Language.mem_mul]
  constructor
  · rintro ⟨body, hbody, exponent, hexponent, rfl⟩
    obtain ⟨sign, hsign, mantissa, hmantissa, rfl⟩ := Language.mem_mul.mp hbody
    obtain ⟨negative, hsign⟩ := mem_minus.mp hsign
    obtain ⟨whole, fraction, hmantissa⟩ := mem_mantissa.mp hmantissa
    obtain ⟨e, hexponent⟩ := mem_exponent.mp hexponent
    exact ⟨_, .mk hsign hmantissa hexponent⟩
  · rintro ⟨d, hsign, hmantissa, hexponent⟩
    refine ⟨_, Language.mem_mul.mpr ⟨_, mem_minus.mpr ⟨_, hsign⟩, _, ?_, rfl⟩, _, ?_, rfl⟩
    · exact mem_mantissa.mpr ⟨_, _, hmantissa⟩
    · exact mem_exponent.mpr ⟨_, hexponent⟩

end Text

namespace Name

open Text

/-- The language `[A-Za-z0-9_][A-Za-z0-9_-]*`. -/
def names : Language Char :=
  let initial := range 'A' 'Z' + range 'a' 'z' + range '0' '9' + char '_'
  initial * (initial + char '-')∗

theorem isInitial_iff {c : Char} : isInitial c = true ↔
    ((('A' ≤ c ∧ c ≤ 'Z') ∨ 'a' ≤ c ∧ c ≤ 'z') ∨ '0' ≤ c ∧ c ≤ '9') ∨ c = '_' := by
  have hclasses : isInitial c =
      (((decide ('A' ≤ c ∧ c ≤ 'Z') || (decide ('a' ≤ c) && decide (c ≤ 'z'))) ||
        (decide ('0' ≤ c) && decide (c ≤ '9'))) || c == '_') := rfl
  simp [hclasses]

theorem isValidList_iff {cs : List Char} : isValidList cs = true ↔ cs ∈ names := by
  simp only [names, range, char, oneOf_add, mem_oneOf_mul_kstar, ← isInitial_iff]
  cases cs with
  | nil => simp [isValidList]
  | cons c cs => simp [isValidList, isConstituent]

end Name

end Drafting
