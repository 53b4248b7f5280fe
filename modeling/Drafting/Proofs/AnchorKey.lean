import Drafting.AnchorKey
import Drafting.Proofs.Text.Numeral
import Drafting.Proofs.Text.Trim

/-!
# Names read as keys

The language of numeric keys, and what a name means when it is read as a key. Names
may begin with a digit, so some of them are numbers, and numbers are tried first: such
a name never denotes the explicit anchor of that name.
-/

namespace Drafting

namespace Name

theorem toNat_of_isConstituent {c : Char} (h : isConstituent c = true) :
    0x2D ≤ c.toNat ∧ c.toNat ≤ 0x7A := by
  have hrange {a b : Char} (hab : (decide (a.val ≤ c.val) && decide (c.val ≤ b.val)) = true) :
      a.toNat ≤ c.toNat ∧ c.toNat ≤ b.toNat := by
    rw [Bool.and_eq_true, decide_eq_true_eq, decide_eq_true_eq] at hab
    exact hab
  simp only [isConstituent, isInitial, Bool.or_eq_true, beq_iff_eq] at h
  rcases h with (h | rfl) | rfl
  · rcases (Bool.or_eq_true _ _).mp h with h | h
    · rcases (Bool.or_eq_true _ _).mp h with h | h
      · obtain ⟨h₁, h₂⟩ : 0x41 ≤ c.toNat ∧ c.toNat ≤ 0x5A := of_decide_eq_true h
        omega
      · obtain ⟨h₁, h₂⟩ : 0x61 ≤ c.toNat ∧ c.toNat ≤ 0x7A := hrange h
        omega
    · obtain ⟨h₁, h₂⟩ : 0x30 ≤ c.toNat ∧ c.toNat ≤ 0x39 := hrange h
      omega
  · decide
  · decide

theorem isBlank_of_isConstituent {c : Char} (h : isConstituent c = true) :
    Text.isBlank c = false := by
  obtain ⟨h₁, h₂⟩ := toNat_of_isConstituent h
  simp only [Text.isBlank, Bool.or_eq_false_iff, Bool.and_eq_false_iff, decide_eq_false_iff_not,
    beq_eq_false_iff_ne]
  omega

theorem isConstituent_of_isValidList {cs : List Char} (h : isValidList cs = true) :
    ∀ c ∈ cs, isConstituent c = true := by
  cases cs with
  | nil => cases h
  | cons c cs =>
    simp only [isValidList, Bool.and_eq_true, List.all_eq_true] at h
    intro d hd
    cases hd with
    | head => simp [isConstituent, h.1]
    | tail _ hd => exact h.2 d hd

theorem trim_of_isValid {s : String} (h : isValid s = true) : Text.trim s.toList = s.toList :=
  Text.trim_eq_self fun c hc =>
    isBlank_of_isConstituent (isConstituent_of_isValidList h c hc)

end Name

namespace AnchorKey

variable {K : Type} [Scalar K]

inductive UnitText : List Char → Prop
  | length : UnitText []
  | percent : UnitText ['%']
  | degrees : UnitText ['d', 'e', 'g']
  | radians : UnitText ['r', 'a', 'd']

/-- The texts of numeric keys: a number within the range of the scalars, and a unit. -/
def IsNumericText (K : Type) [Scalar K] (cs : List Char) : Prop :=
  ∃ number unit d, cs = number ++ unit ∧ Text.NumberText number d ∧ UnitText unit ∧
    Scalar.isFinite (Scalar.ofDecimal d : K) = true

theorem UnitText.stops {unit : List Char} (h : UnitText unit) : Text.Stops unit := by
  cases h <;> constructor <;> simp [Text.NoDigit, Text.IsExponentLetter]

theorem UnitText.isSome_ofNumber? {unit : List Char} (h : UnitText unit) (v : K) :
    (ofNumber? v unit).isSome = true := by
  cases h <;> rfl

theorem unitText_of_ofNumber? {v : K} {unit : List Char} {key : AnchorKey K}
    (h : ofNumber? v unit = some key) : UnitText unit ∧ ∀ name, key ≠ .custom name := by
  unfold ofNumber? at h
  split at h
  · cases h
    exact ⟨.length, nofun⟩
  · cases h
    exact ⟨.percent, nofun⟩
  · unfold Angle.ofUnit? at h
    split at h
    · cases h
      exact ⟨.degrees, nofun⟩
    · cases h
      exact ⟨.radians, nofun⟩
    · cases h

/-- A numeric key is read from the texts of numeric keys only, and is no explicit
anchor. -/
theorem isNumericText_of_ofNumeral? {cs : List Char} {key : AnchorKey K}
    (h : ofNumeral? cs = some key) : IsNumericText K cs ∧ ∀ name, key ≠ .custom name := by
  unfold ofNumeral? Text.scanScalar? at h
  cases hs : Text.scanNumeral? Text.keyNumeral cs with
  | none => simp [hs] at h
  | some r =>
    obtain ⟨d, unit⟩ := r
    obtain ⟨number, hcs, hd⟩ := Text.numberText_of_scanNumeral? hs
    by_cases hf : Scalar.isFinite (Scalar.ofDecimal d : K) = true
    · simp only [hs, hf, if_true] at h
      obtain ⟨hu, hkey⟩ := unitText_of_ofNumber? h
      exact ⟨⟨number, unit, d, hcs, hd, hu, hf⟩, hkey⟩
    · simp [hs, hf] at h

theorem isSome_ofNumeral? {cs : List Char} (h : IsNumericText K cs) :
    (ofNumeral? cs : Option (AnchorKey K)).isSome = true := by
  obtain ⟨number, unit, d, rfl, hd, hu, hf⟩ := h
  simp only [ofNumeral?, Text.scanScalar?, Text.scanNumeral?_of_numberText hd hu.stops, hf, if_true]
  exact hu.isSome_ofNumber? _

omit [Scalar K] in
theorem lookup_builtins {name : String} (h : isBuiltinName name = false) :
    (builtins : List (String × AnchorKey K)).lookup name = none := by
  have hfst : (builtins : List (String × AnchorKey K)).map Prod.fst = builtinNames := rfl
  have hn : name ∉ builtinNames := by simpa [isBuiltinName] using h
  rw [List.lookup_eq_none_iff]
  intro p hp
  have hm : p.1 ∈ builtinNames := hfst ▸ List.mem_map_of_mem hp
  rw [bne_iff_ne]
  intro he
  exact hn (he ▸ hm)

/-- A name that is no builtin one is read as a number or as itself. -/
theorem parse_of_isValid {name : String} (hv : Name.isValid name = true)
    (hb : isBuiltinName name = false) :
    (parse name : AnchorKey K) = (ofNumeral? name.toList).getD (.custom name) := by
  simp only [parse, Name.trim_of_isValid hv, String.ofList_toList, lookup_builtins hb]
  cases (ofNumeral? name.toList : Option (AnchorKey K)) <;> rfl

/-- A name that is no builtin one denotes its explicit anchor exactly when it is not
the text of a numeric key. -/
theorem parse_eq_custom_iff {name : String} (hv : Name.isValid name = true)
    (hb : isBuiltinName name = false) :
    (parse name : AnchorKey K) = .custom name ↔ ¬ IsNumericText K name.toList := by
  rw [parse_of_isValid hv hb]
  cases h : (ofNumeral? name.toList : Option (AnchorKey K)) with
  | none =>
    refine iff_of_true rfl fun hn => ?_
    have := isSome_ofNumeral? hn
    rw [h] at this
    cases this
  | some key =>
    obtain ⟨hn, hkey⟩ := isNumericText_of_ofNumeral? h
    exact iff_of_false (hkey name) (not_not_intro hn)

end AnchorKey

end Drafting
