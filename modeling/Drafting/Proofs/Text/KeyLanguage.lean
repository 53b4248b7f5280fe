import Drafting.Proofs.AnchorKey
import Drafting.Proofs.Text.Language

/-!
# The languages of keys, angle literals and names

A key is a number with one of three units or none, one of the eight builtin names, or any other
text. Which of these a text is can be told from its language alone: no unit prolongs a number,
so a text is a number with a unit in one way at most, and no builtin name is a number. A number
out of range makes its text a custom key, as if it were no number.
-/

namespace Drafting

variable {K : Type} [Scalar K]

namespace Text

/-- The text is a number, and the scalar it stands for is finite. -/
structure Denotes (number : List Char) (v : K) : Prop where
  mem : number ∈ numbers
  value : ∃ d, NumberText number d ∧ Scalar.ofDecimal d = v
  isFinite : Scalar.isFinite v = true

variable {cs number rest : List Char} {v : K}

theorem denotes_of_scanScalar? (h : scanScalar? cs = some (v, rest)) :
    ∃ number, cs = number ++ rest ∧ Denotes number v := by
  unfold scanScalar? at h
  split at h
  · next d rest' hscan =>
    dsimp only at h
    split_ifs at h with hfinite
    cases h
    obtain ⟨number, hcs, hd⟩ := numberText_of_scanNumeral? hscan
    exact ⟨number, hcs, mem_numbers_iff.mpr ⟨d, hd⟩, ⟨d, hd, rfl⟩, hfinite⟩
  · cases h

theorem Denotes.scanScalar? (h : Denotes number v) (hr : Stops rest) :
    scanScalar? (number ++ rest) = some (v, rest) := by
  obtain ⟨-, ⟨d, hd, rfl⟩, hfinite⟩ := h
  simp only [Text.scanScalar?, scanNumeral?_of_numberText hd hr, hfinite, if_true]

end Text

namespace AnchorKey

open Text (Denotes)

variable {cs number unit : List Char} {v : K} {key : AnchorKey K}

/-- A number with a unit or none, and the key that the two make. -/
inductive Numeric : List Char → AnchorKey K → Prop
  | length {number : List Char} {v : K} : Denotes number v → Numeric number (.length v)
  | fraction {number : List Char} {v : K} :
      Denotes number v → Numeric (number ++ ['%']) (.fraction (v / 100))
  | degrees {number : List Char} {v : K} :
      Denotes number v → Numeric (number ++ ['d', 'e', 'g']) (.angle (Angle.ofDegrees v))
  | radians {number : List Char} {v : K} :
      Denotes number v → Numeric (number ++ ['r', 'a', 'd']) (.angle ⟨v⟩)

theorem numeric_of_ofNumber? (h : Denotes number v) (hkey : ofNumber? v unit = some key) :
    Numeric (number ++ unit) key := by
  unfold ofNumber? at hkey
  split at hkey
  · cases hkey
    rw [List.append_nil]
    exact .length h
  · cases hkey
    exact .fraction h
  · unfold Angle.ofUnit? at hkey
    split at hkey
    · cases hkey
      exact .degrees h
    · cases hkey
      exact .radians h
    · cases hkey

theorem ofNumeral?_eq_some_iff : ofNumeral? cs = some key ↔ Numeric cs key := by
  constructor
  · intro h
    unfold ofNumeral? at h
    split at h
    · next v unit hscan =>
      obtain ⟨number, rfl, hnumber⟩ := Text.denotes_of_scanScalar? hscan
      exact numeric_of_ofNumber? hnumber h
    · cases h
  · intro h
    cases h with
    | length h =>
      have hscan := h.scanScalar? UnitText.length.stops
      rw [List.append_nil] at hscan
      rw [ofNumeral?, hscan]
      rfl
    | fraction h =>
      rw [ofNumeral?, h.scanScalar? UnitText.percent.stops]
      rfl
    | degrees h =>
      rw [ofNumeral?, h.scanScalar? UnitText.degrees.stops]
      rfl
    | radians h =>
      rw [ofNumeral?, h.scanScalar? UnitText.radians.stops]
      rfl

/-- The texts of numeric keys, whatever their meaning. -/
theorem exists_numeric_iff : (∃ key : AnchorKey K, Numeric cs key) ↔
    ∃ unit ∈ ["", "%", "deg", "rad"], ∃ number, ∃ v : K,
      Denotes number v ∧ cs = number ++ unit.toList := by
  constructor
  · rintro ⟨key, h⟩
    cases h with
    | length h => exact ⟨"", by simp, _, _, h, (List.append_nil _).symm⟩
    | fraction h => exact ⟨"%", by simp, _, _, h, rfl⟩
    | degrees h => exact ⟨"deg", by simp, _, _, h, rfl⟩
    | radians h => exact ⟨"rad", by simp, _, _, h, rfl⟩
  · rintro ⟨unit, hunit, number, v, h, rfl⟩
    simp only [List.mem_cons, List.not_mem_nil, or_false] at hunit
    rcases hunit with rfl | rfl | rfl | rfl
    · exact ⟨_, numeric_of_ofNumber? h rfl⟩
    · exact ⟨_, .fraction h⟩
    · exact ⟨_, .degrees h⟩
    · exact ⟨_, .radians h⟩

theorem numeric_length_iff {l : K} : Numeric cs (.length l) ↔ Denotes cs l := by
  refine ⟨fun h => ?_, .length⟩
  cases h with
  | length h => exact h

theorem numeric_fraction_iff {t : K} : Numeric cs (.fraction t) ↔
    ∃ number v, Denotes number v ∧ cs = number ++ "%".toList ∧ t = v / 100 := by
  constructor
  · intro h
    cases h with
    | fraction h => exact ⟨_, _, h, rfl, rfl⟩
  · rintro ⟨number, v, h, rfl, rfl⟩
    exact .fraction h

theorem numeric_angle_iff {a : Angle K} : Numeric cs (.angle a) ↔ ∃ number v, Denotes number v ∧
    (cs = number ++ "deg".toList ∧ a = .ofDegrees v ∨ cs = number ++ "rad".toList ∧ a = ⟨v⟩) := by
  constructor
  · intro h
    cases h with
    | degrees h => exact ⟨_, _, h, .inl ⟨rfl, rfl⟩⟩
    | radians h => exact ⟨_, _, h, .inr ⟨rfl, rfl⟩⟩
  · rintro ⟨number, v, h, ⟨rfl, rfl⟩ | ⟨rfl, rfl⟩⟩
    · exact .degrees h
    · exact .radians h

theorem not_numeric_builtin : ∀ entry ∈ (builtins : List (String × AnchorKey K)),
    ∀ key : AnchorKey K, ¬ Numeric entry.1.toList key := by
  have hnone : ∀ entry ∈ (builtins : List (String × AnchorKey K)),
      (ofNumeral? entry.1.toList : Option (AnchorKey K)) = none := by
    simp only [builtins, List.forall_mem_cons, List.not_mem_nil, false_implies, implies_true,
      and_true]
    exact ⟨rfl, rfl, rfl, rfl, rfl, rfl, rfl, rfl⟩
  intro entry hentry key h
  have hsome := ofNumeral?_eq_some_iff.mpr h
  rw [hnone entry hentry] at hsome
  cases hsome

theorem Numeric.not_mem_builtins (h : Numeric cs key) (name : String) : (name, key) ∉ builtins := by
  cases h <;> simp [builtins]

theorem Numeric.ne_custom (h : Numeric cs key) (name : String) : key ≠ .custom name := by
  cases h <;> simp

omit [Scalar K] in
/-- No two builtin names are alike, so looking one up finds its own key. -/
theorem lookup_builtins_eq_some_iff {name : String} :
    (builtins : List (String × AnchorKey K)).lookup name = some key ↔ (name, key) ∈ builtins := by
  constructor
  · intro h
    obtain ⟨front, back, hsplit, -⟩ := List.lookup_eq_some_iff.mp h
    rw [hsplit]
    exact List.mem_append_right front List.mem_cons_self
  · have hfinds : ∀ entry ∈ (builtins : List (String × AnchorKey K)),
        builtins.lookup entry.1 = some entry.2 := by
      simp only [builtins, List.forall_mem_cons, List.not_mem_nil, false_implies, implies_true,
        and_true]
      exact ⟨rfl, rfl, rfl, rfl, rfl, rfl, rfl, rfl⟩
    exact hfinds (name, key)

omit [Scalar K] in
theorem name_eq_of_mem_builtins : ∀ entry ∈ (builtins : List (String × AnchorKey K)),
    ∀ entry' ∈ builtins, entry.2 = entry'.2 → entry.1 = entry'.1 := by
  simp [builtins]

theorem parse_of_numeric {s : String} (h : Numeric (Text.trim s.toList) key) : parse s = key := by
  simp only [parse, ofNumeral?_eq_some_iff.mpr h]

theorem parse_of_not_numeric {s : String}
    (h : ∀ key : AnchorKey K, ¬ Numeric (Text.trim s.toList) key) :
    (parse s : AnchorKey K) = (builtins.lookup (String.ofList (Text.trim s.toList))).getD
      (.custom (String.ofList (Text.trim s.toList))) := by
  have hnone : (ofNumeral? (Text.trim s.toList) : Option (AnchorKey K)) = none := by
    rw [Option.eq_none_iff_forall_ne_some]
    exact fun key hkey => h key (ofNumeral?_eq_some_iff.mp hkey)
  simp only [parse, hnone]

/-- A text is numeric, or else builtin, or else custom. -/
theorem parse_cases (s : String) :
    Numeric (Text.trim s.toList) (parse s : AnchorKey K) ∨
      (∀ key : AnchorKey K, ¬ Numeric (Text.trim s.toList) key) ∧
        ((String.ofList (Text.trim s.toList), (parse s : AnchorKey K)) ∈ builtins ∨
          (∀ entry ∈ (builtins : List (String × AnchorKey K)),
            Text.trim s.toList ≠ entry.1.toList) ∧
          (parse s : AnchorKey K) = .custom (String.ofList (Text.trim s.toList))) := by
  by_cases hnumeric : ∃ key : AnchorKey K, Numeric (Text.trim s.toList) key
  · obtain ⟨key, h⟩ := hnumeric
    exact .inl (parse_of_numeric h ▸ h)
  · have hnot := not_exists.mp hnumeric
    refine .inr ⟨hnot, ?_⟩
    rw [parse_of_not_numeric hnot]
    cases hlookup : (builtins : List (String × AnchorKey K)).lookup
        (String.ofList (Text.trim s.toList)) with
    | some key => exact .inl (lookup_builtins_eq_some_iff.mp hlookup)
    | none =>
      refine .inr ⟨fun entry hentry hk => ?_, rfl⟩
      rw [hk, String.ofList_toList, lookup_builtins_eq_some_iff.mpr hentry] at hlookup
      cases hlookup

theorem parse_eq_numeric_iff {s : String} (hbuiltin : ∀ name, (name, key) ∉ builtins)
    (hcustom : ∀ name, key ≠ .custom name) :
    parse s = key ↔ Numeric (Text.trim s.toList) key := by
  refine ⟨fun h => ?_, parse_of_numeric⟩
  subst h
  obtain h | ⟨-, h | ⟨-, h⟩⟩ := parse_cases (K := K) s
  · exact h
  · exact absurd h (hbuiltin _)
  · exact absurd h (hcustom _)

theorem parse_eq_length_iff {s : String} {l : K} :
    parse s = .length l ↔ Numeric (Text.trim s.toList) (.length l) :=
  parse_eq_numeric_iff (fun name => by simp [builtins]) nofun

theorem parse_eq_angle_iff {s : String} {a : Angle K} :
    parse s = .angle a ↔ Numeric (Text.trim s.toList) (.angle a) :=
  parse_eq_numeric_iff (fun name => by simp [builtins]) nofun

theorem parse_eq_builtin_iff {s : String} {entry : String × AnchorKey K}
    (hentry : entry ∈ builtins) :
    parse s = entry.2 ↔ Text.trim s.toList = entry.1.toList := by
  constructor
  · intro h
    obtain hnumeric | ⟨-, hbuiltin | ⟨-, hcustom⟩⟩ := parse_cases (K := K) s
    · rw [h] at hnumeric
      exact absurd hentry (hnumeric.not_mem_builtins entry.1)
    · have hname := name_eq_of_mem_builtins _ hbuiltin entry hentry h
      rw [← hname, String.toList_ofList]
    · have hmem : (entry.1, custom (String.ofList (Text.trim s.toList))) ∈
          (builtins : List (String × AnchorKey K)) := by
        rw [← hcustom, h]
        exact hentry
      simp [builtins] at hmem
  · intro hk
    rw [parse_of_not_numeric (hk ▸ not_numeric_builtin entry hentry), hk, String.ofList_toList,
      lookup_builtins_eq_some_iff.mpr hentry]
    rfl

theorem parse_eq_customName_iff {s name : String} : (parse s : AnchorKey K) = .custom name ↔
    name = String.ofList (Text.trim s.toList) ∧
      (∀ entry ∈ (builtins : List (String × AnchorKey K)), Text.trim s.toList ≠ entry.1.toList) ∧
      ¬ ∃ key : AnchorKey K, Numeric (Text.trim s.toList) key := by
  constructor
  · intro h
    obtain hnumeric | ⟨hnot, hbuiltin | ⟨hother, hcustom⟩⟩ := parse_cases (K := K) s
    · exact absurd h (hnumeric.ne_custom name)
    · rw [h] at hbuiltin
      simp [builtins] at hbuiltin
    · rw [h] at hcustom
      cases hcustom
      exact ⟨rfl, hother, not_exists.mpr hnot⟩
  · rintro ⟨rfl, hother, hnot⟩
    obtain hnumeric | ⟨-, hbuiltin | ⟨-, hcustom⟩⟩ := parse_cases (K := K) s
    · exact absurd ⟨_, hnumeric⟩ hnot
    · have hk := hother _ hbuiltin
      rw [String.toList_ofList] at hk
      exact absurd rfl hk
    · exact hcustom

theorem ofNumber?_eq_angle_iff {a : Angle K} :
    ofNumber? v unit = some (.angle a) ↔ Angle.ofUnit? v unit = some a := by
  unfold ofNumber?
  split
  · simp [Angle.ofUnit?]
  · simp [Angle.ofUnit?]
  · cases Angle.ofUnit? v unit <;> simp

theorem ofNumber?_eq_length_iff {l : K} :
    ofNumber? v unit = some (.length l) ↔ unit = [] ∧ v = l := by
  unfold ofNumber?
  split
  · simp
  · simp
  · next hne _ => cases Angle.ofUnit? v unit <;> simpa using fun h => absurd h hne

theorem angle_parse?_eq_some_iff {s : String} {a : Angle K} :
    Angle.parse? s = some a ↔ parse s = .angle a ∨ parse s = .length a.radians := by
  rw [parse_eq_angle_iff, parse_eq_length_iff, ← ofNumeral?_eq_some_iff, ← ofNumeral?_eq_some_iff,
    Angle.parse?, ofNumeral?]
  cases (Text.scanScalar? (Text.trim s.toList) : Option (K × List Char)) with
  | none => simp
  | some scanned =>
    obtain ⟨v, unit⟩ := scanned
    dsimp only
    rw [ofNumber?_eq_angle_iff, ofNumber?_eq_length_iff]
    cases unit with
    | nil => simp [Angle.ofUnit?, Angle.ext_iff]
    | cons c unit => simp

/-- Which texts are names, and what every text means as an angle literal and as a key. -/
theorem parse_language (s : String) :
    (Name.isValid s = true ↔ s.toList ∈ Name.names) ∧
    (∀ a : Angle K, Angle.parse? s = some a ↔ parse s = .angle a ∨ parse s = .length a.radians) ∧
    let k := Text.trim s.toList
    (∀ l : K, parse s = .length l ↔ Denotes k l) ∧
    (∀ t : K, parse s = .fraction t ↔
      ∃ number v, Denotes number v ∧ k = number ++ "%".toList ∧ t = v / 100) ∧
    (∀ a : Angle K, parse s = .angle a ↔ ∃ number v, Denotes number v ∧
      (k = number ++ "deg".toList ∧ a = .ofDegrees v ∨ k = number ++ "rad".toList ∧ a = ⟨v⟩)) ∧
    (∀ entry ∈ (builtins : List (String × AnchorKey K)),
      parse s = entry.2 ↔ k = entry.1.toList) ∧
    ∀ name, (parse s : AnchorKey K) = .custom name ↔ name = String.ofList k ∧
      (∀ entry ∈ (builtins : List (String × AnchorKey K)), k ≠ entry.1.toList) ∧
      ∀ unit ∈ ["", "%", "deg", "rad"], ∀ number, ∀ v : K,
        Denotes number v → k ≠ number ++ unit.toList := by
  refine ⟨Name.isValidList_iff, fun a => angle_parse?_eq_some_iff, fun l => ?_, fun t => ?_,
    fun a => ?_, fun entry => parse_eq_builtin_iff, fun name => ?_⟩
  · rw [parse_eq_length_iff, numeric_length_iff]
  · rw [← numeric_fraction_iff]
    exact parse_eq_numeric_iff (fun name => by simp [builtins]) nofun
  · rw [parse_eq_angle_iff, numeric_angle_iff]
  · rw [parse_eq_customName_iff, exists_numeric_iff]
    simp only [not_exists, not_and, ne_eq]

end AnchorKey

end Drafting
