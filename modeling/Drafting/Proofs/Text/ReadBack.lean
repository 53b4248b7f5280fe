import Drafting.Binary64
import Drafting.Proofs.Text.Printed

/-!
# Texts read back

Angles, points and anchor keys are printed in the form they are read in. An angle and a point are
read back as they were, and so is a key that is a builtin name, a length or a custom name. The
number of a percentage or of a direction is rounded before it is printed, so that such a key need
not come back the same, but it comes back as a key of its kind exactly when the rounded number is
finite. The rounding multiplies first, and where that leaves the range of the scalars the text
holds a word in place of a number and means a custom anchor.
-/

namespace Drafting

variable {K : Type} [Scalar K]

open Text (Denotes)

theorem Text.Denotes.trim_append {number unit : List Char} {v : K} (h : Denotes number v)
    (hunit : ∀ c ∈ unit, Text.isBlank c = false) : trim (number ++ unit) = number ++ unit := by
  refine trim_eq_self fun c hc => ?_
  rcases List.mem_append.mp hc with hc | hc
  · exact h.isBlank c hc
  · exact hunit c hc

theorem Angle.parse_text {a : Angle K} (hfinite : Scalar.isFinite a.radians = true)
    (h : Scalar.Legible a.radians) : parse a.text = .ok a := by
  have hdenotes := h.denotes hfinite
  have htext : a.text.toList = (Scalar.text a.radians).toList ++ ['r', 'a', 'd'] := by
    rw [text, String.toList_append]
    rfl
  have hkey : AnchorKey.parse a.text = .angle a := by
    rw [AnchorKey.parse_eq_angle_iff, htext, hdenotes.trim_append (by simp [Text.isBlank])]
    exact .radians hdenotes
  rw [parse, AnchorKey.angle_parse?_eq_some_iff.mpr (.inl hkey)]

namespace Point

theorem coordinate?_of_denotes {cs number : List Char} {v : K} (h : Denotes number v)
    (hcs : Text.trim cs = number) : coordinate? cs = some v := by
  obtain ⟨d, hd, rfl⟩ := h.value
  have hscan : Text.scanNumeral? Text.coordinateNumeral (number ++ []) = some (d, []) :=
    Text.scanNumeral?_of_numberText hd AnchorKey.UnitText.length.stops
  rw [List.append_nil] at hscan
  simp only [coordinate?, hcs, Text.numeral?, hscan, h.isFinite, if_true]

theorem stripParentheses_of_notMem {cs : List Char} (hleft : '(' ∉ cs) (hright : ')' ∉ cs) :
    stripParentheses ('(' :: (cs ++ [')'])) = cs := by
  have hfront : (cs ++ [')']).dropWhile (· == '(') = cs ++ [')'] := by
    refine Text.dropWhile_of_forall fun c hc => beq_eq_false_iff_ne.mpr ?_
    rintro rfl
    simp [hleft] at hc
  have hback : cs.reverse.dropWhile (· == ')') = cs.reverse := by
    refine Text.dropWhile_of_forall fun c hc => beq_eq_false_iff_ne.mpr ?_
    rintro rfl
    exact hright (List.mem_reverse.mp hc)
  rw [stripParentheses, List.dropWhile_cons_of_pos (by decide), hfront, List.reverse_append,
    List.reverse_singleton, List.singleton_append, List.dropWhile_cons_of_pos (by decide), hback,
    List.reverse_reverse]

theorem splitComma?_append {left : List Char} (h : ',' ∉ left) (right : List Char) :
    splitComma? (left ++ ',' :: right) = some (left, right) := by
  have hleft : ∀ c ∈ left, (c != ',') = true := by
    intro c hc
    rw [bne_iff_ne]
    rintro rfl
    exact h hc
  rw [splitComma?, List.dropWhile_append_of_pos hleft, List.takeWhile_append_of_pos hleft,
    List.dropWhile_cons_of_neg (by decide), List.takeWhile_cons_of_neg (by decide),
    List.append_nil]

theorem parse_text {p : Point K} (hx : Scalar.isFinite p.x = true)
    (hy : Scalar.isFinite p.y = true) (hlx : Scalar.Legible p.x) (hly : Scalar.Legible p.y) :
    parse p.text = .ok p := by
  have hdx := hlx.denotes hx
  have hdy := hly.denotes hy
  have htext : p.text.toList =
      '(' :: ((Scalar.text p.x).toList ++ ',' :: ' ' :: (Scalar.text p.y).toList ++ [')']) := by
    simp [text]
  have htrim : Text.trim p.text.toList = p.text.toList := by
    rw [htext]
    refine Text.trim_of_ends (by decide) fun h => ?_
    simp only [← List.cons_append, List.getLast_concat]
    decide
  have hstrip : Point.stripParentheses p.text.toList =
      (Scalar.text p.x).toList ++ ',' :: ' ' :: (Scalar.text p.y).toList := by
    rw [htext, stripParentheses_of_notMem]
    · simp [hdx.notMem (c := '(') (by decide) (by decide),
        hdy.notMem (c := '(') (by decide) (by decide)]
    · simp [hdx.notMem (c := ')') (by decide) (by decide),
        hdy.notMem (c := ')') (by decide) (by decide)]
  have hleft : coordinate? (Scalar.text p.x).toList = some p.x :=
    coordinate?_of_denotes hdx (Text.trim_eq_self hdx.isBlank)
  have hright : coordinate? (' ' :: (Scalar.text p.y).toList) = some p.y := by
    refine coordinate?_of_denotes hdy ?_
    rw [Text.trim_cons_of_blank (by decide), Text.trim_eq_self hdy.isBlank]
  have hparse : parse? p.text = some p := by
    rw [parse?, htrim, hstrip, splitComma?_append (hdx.notMem (by decide) (by decide))]
    simp [hleft, hright]
  rw [parse, hparse]

end Point

namespace AnchorKey

theorem text_of_mem_builtins : ∀ entry ∈ (builtins : List (String × AnchorKey K)),
    entry.2.text = entry.1 := by
  simp [builtins, text]

theorem parse_text_of_builtin {name : String} {key : AnchorKey K} (h : (name, key) ∈ builtins) :
    parse key.text = key := by
  have hnames : ∀ entry ∈ (builtins : List (String × AnchorKey K)), parse entry.1 = entry.2 := by
    simp only [builtins, List.forall_mem_cons, List.not_mem_nil, false_implies, implies_true,
      and_true]
    exact ⟨rfl, rfl, rfl, rfl, rfl, rfl, rfl, rfl⟩
  rw [text_of_mem_builtins _ h]
  exact hnames _ h

/-- A custom name is a trimmed text already, and is no more a number or builtin than before. -/
theorem parse_text_of_custom {s name : String} (h : (parse s : AnchorKey K) = .custom name) :
    (parse (custom name : AnchorKey K).text : AnchorKey K) = .custom name := by
  obtain ⟨rfl, hbuiltin, hnumeric⟩ := parse_eq_customName_iff.mp h
  rw [text, parse_eq_customName_iff, String.toList_ofList, Text.trim_trim]
  exact ⟨rfl, hbuiltin, hnumeric⟩

theorem parse_text_of_length {s : String} {l : K} (h : parse s = .length l)
    (hl : Scalar.Legible l) : parse (length l).text = .length l := by
  have hfinite := (numeric_length_iff.mp (parse_eq_length_iff.mp h)).isFinite
  have hdenotes := hl.denotes hfinite
  rw [text, parse_eq_length_iff, Text.trim_eq_self hdenotes.isBlank]
  exact .length hdenotes

/-- A word in place of a number makes a custom key, whatever its unit. -/
theorem parse_of_not_isFinite {shown : K} (h : Scalar.isFinite shown = false) :
    ∀ unit ∈ ["%", "deg"], (parse (Scalar.text shown ++ unit) : AnchorKey K) =
      .custom (Scalar.text shown ++ unit) := by
  have hwords : Scalar.text shown ∈ ["NaN", "inf", "-inf"] := by
    rw [Scalar.text, h, if_neg Bool.false_ne_true]
    split_ifs <;> simp
  generalize Scalar.text shown = word at hwords
  simp only [List.mem_cons, List.not_mem_nil, or_false] at hwords
  simp only [List.forall_mem_cons, List.not_mem_nil, false_implies, implies_true, and_true]
  rcases hwords with rfl | rfl | rfl <;> exact ⟨rfl, rfl⟩

theorem exists_parse_iff {α : Type} {key : α → AnchorKey K} {shown : K} {unit : String}
    (hunit : unit ∈ ["%", "deg"]) (hcustom : ∀ a name, key a ≠ .custom name)
    (h : Scalar.Legible shown) (hnumeric : Denotes (Scalar.text shown).toList shown →
      ∃ a, Numeric ((Scalar.text shown).toList ++ unit.toList) (key a)) :
    (∃ a, parse (Scalar.text shown ++ unit) = key a) ↔ Scalar.isFinite shown = true := by
  constructor
  · rintro ⟨a, ha⟩
    by_contra hfinite
    rw [parse_of_not_isFinite (Bool.not_eq_true _ ▸ hfinite) unit hunit] at ha
    exact hcustom a _ ha.symm
  · intro hfinite
    have hdenotes := h.denotes hfinite
    have hblank : ∀ c ∈ unit.toList, Text.isBlank c = false := by
      simp only [List.mem_cons, List.not_mem_nil, or_false] at hunit
      rcases hunit with rfl | rfl <;> simp [Text.isBlank]
    obtain ⟨a, ha⟩ := hnumeric hdenotes
    refine ⟨a, parse_of_numeric ?_⟩
    rwa [String.toList_append, hdenotes.trim_append hblank]

theorem exists_fraction_iff {shown : K} (h : Scalar.Legible shown) :
    (∃ t : K, parse (Scalar.text shown ++ "%") = .fraction t) ↔
      Scalar.isFinite shown = true :=
  exists_parse_iff (by simp) nofun h fun hdenotes => ⟨shown / 100, .fraction hdenotes⟩

theorem exists_angle_iff {shown : K} (h : Scalar.Legible shown) :
    (∃ a : Angle K, parse (Scalar.text shown ++ "deg") = .angle a) ↔
      Scalar.isFinite shown = true :=
  exists_parse_iff (by simp) nofun h fun hdenotes => ⟨.ofDegrees shown, .degrees hdenotes⟩

/-- What is read from the texts of angles, points and keys. Only the key of a percentage or of a
direction can be lost, and it is lost exactly when its rounded number is not finite. -/
theorem texts_read_back :
    (∀ a : Angle K, Scalar.isFinite a.radians = true → Scalar.Legible a.radians →
      Angle.parse a.text = .ok a) ∧
    (∀ p : Point K, p.isFinite = true → Scalar.Legible p.x → Scalar.Legible p.y →
      Point.parse p.text = .ok p) ∧
    ∀ s, let k : AnchorKey K := parse s
      (∀ name, (name, k) ∈ builtins ∨ k = .custom name → parse k.text = k) ∧
      (∀ l, k = .length l → Scalar.Legible l → parse k.text = k) ∧
      (∀ t, k = .fraction t → Scalar.Legible (roundPlaces (t * 100)) →
        ((∃ t' : K, parse k.text = .fraction t') ↔
          Scalar.isFinite (roundPlaces (t * 100)) = true)) ∧
      ∀ a, k = .angle a → Scalar.Legible (roundPlaces a.degrees) →
        ((∃ a' : Angle K, parse k.text = .angle a') ↔
          Scalar.isFinite (roundPlaces a.degrees) = true) := by
  refine ⟨fun a => Angle.parse_text, fun p hp hx hy => ?_, fun s => ?_⟩
  · obtain ⟨hpx, hpy⟩ := (Bool.and_eq_true _ _).mp hp
    exact Point.parse_text hpx hpy hx hy
  intro k
  refine ⟨fun name hname => ?_, fun l hk hl => ?_, fun t hk ht => ?_, fun a hk ha => ?_⟩
  · obtain hbuiltin | hcustom := hname
    · exact parse_text_of_builtin hbuiltin
    · rw [hcustom]
      exact parse_text_of_custom hcustom
  · rw [hk]
    exact parse_text_of_length hk hl
  · rw [hk]
    exact exists_fraction_iff ht
  · rw [hk]
    exact exists_angle_iff ha

/-- One half is legible, and the angle and the point made of it are read back. The percentage
`1e308%` is finite and read as one, but is lost: the rounding multiplies it by a thousand
million first. -/
theorem texts_read_back_lost :
    let t : Float := 1e308 / 100
    Scalar.Legible (0.5 : Float) ∧ Angle.parse (⟨0.5⟩ : Angle Float).text = .ok ⟨0.5⟩ ∧
      Point.parse (⟨0.5, 0.5⟩ : Point Float).text = .ok ⟨0.5, 0.5⟩ ∧
      parse "1e308%" = .fraction t ∧ Scalar.isFinite (t * 100) = true ∧
      ¬ ∃ t' : Float, parse (fraction t).text = .fraction t' := by
  intro t
  have hhalf : Scalar.Legible (0.5 : Float) := by
    intro _ d hd
    have hscan : Text.scanNumeral? Text.keyNumeral ((Scalar.text (0.5 : Float)).toList ++ []) =
        some (d, []) := Text.scanNumeral?_of_numberText hd UnitText.length.stops
    have htext : Text.scanNumeral? Text.keyNumeral ((Scalar.text (0.5 : Float)).toList ++ []) =
        some (⟨false, 5, -1⟩, []) := by decide +kernel
    rw [htext] at hscan
    cases hscan
    decide +kernel
  have hkey : parse "1e308%" = .fraction t := by
    have hscan : Text.scanScalar? (Text.trim "1e308%".toList) = some ((1e308 : Float), ['%']) := by
      decide +kernel
    simp only [parse, ofNumeral?, hscan, ofNumber?, t]
  have hinfinite : Scalar.isFinite (roundPlaces (t * 100)) = false := by decide +kernel
  obtain ⟨hangle, hpoint, hkeys⟩ := texts_read_back (K := Float)
  obtain ⟨-, -, hfraction, -⟩ := hkeys "1e308%"
  rw [hkey] at hfraction
  have hlost := hfraction t rfl fun h => absurd h (by simp [hinfinite])
  refine ⟨hhalf, hangle _ (by decide +kernel) hhalf, hpoint _ (by decide +kernel) hhalf hhalf, hkey,
    by decide +kernel, ?_⟩
  rw [hlost, hinfinite]
  exact Bool.false_ne_true

end AnchorKey

end Drafting
