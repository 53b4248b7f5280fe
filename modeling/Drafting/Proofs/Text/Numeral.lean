import Drafting.Text.Numeral
import Mathlib.Data.List.TakeWhile
import Mathlib.Tactic.SplitIfs

/-!
# The numbers of the key language

The texts that keys and angle literals accept as numbers, as a grammar with the
numeral that each text stands for, and the scanner compared with it. Whatever the
scanner reads is such a text, and it reads one to its end when what follows cannot
prolong it.
-/

namespace Drafting
namespace Text

/-- One or more ASCII digits. -/
structure Digits (ds : List Char) : Prop where
  ne_nil : ds ≠ []
  isDigit : ∀ c ∈ ds, c.isDigit = true

inductive SignText (f : NumeralFormat) : List Char → Bool → Prop
  | none : SignText f [] false
  | minus : SignText f ['-'] true
  | plus : f.plusSign = true → SignText f ['+'] false

/-- The digits of a number around its point. -/
inductive MantissaText : List Char → (whole fraction : List Char) → Prop
  | whole {w : List Char} : Digits w → MantissaText w w []
  | point {w f : List Char} : Digits w → Digits f → MantissaText (w ++ '.' :: f) w f
  | leadingPoint {f : List Char} : Digits f → MantissaText ('.' :: f) [] f

def IsExponentLetter (c : Char) : Prop := c = 'e' ∨ c = 'E'

/-- The exponent of a number. Its sign may be a plus. -/
inductive ExponentText : List Char → Int → Prop
  | none : ExponentText [] 0
  | mk {c : Char} {sign ds : List Char} {negative : Bool} :
      IsExponentLetter c → SignText coordinateNumeral sign negative → Digits ds →
      ExponentText (c :: (sign ++ ds))
        (if negative then -(Decimal.ofDigits ds : Int) else Decimal.ofDigits ds)

/-- The numbers of keys and angle literals, with their numerals. -/
inductive NumberText : List Char → Decimal → Prop
  | mk {sign mantissa exponent whole fraction : List Char} {negative : Bool} {e : Int} :
      SignText keyNumeral sign negative → MantissaText mantissa whole fraction →
      ExponentText exponent e →
      NumberText (sign ++ mantissa ++ exponent)
        ⟨negative, Decimal.ofDigits (whole ++ fraction), e - fraction.length⟩

def NoDigit (cs : List Char) : Prop := ∀ c, cs.head? = some c → c.isDigit = false

theorem splitDigits_of_noDigit {ds rest : List Char} (hd : ∀ c ∈ ds, c.isDigit = true)
    (hr : NoDigit rest) : splitDigits (ds ++ rest) = (ds, rest) := by
  have ht : rest.takeWhile Char.isDigit = [] := by
    cases rest with
    | nil => rfl
    | cons c cs => exact List.takeWhile_cons_of_neg (by simp [hr c rfl])
  have hw : rest.dropWhile Char.isDigit = rest := by
    cases rest with
    | nil => rfl
    | cons c cs => exact List.dropWhile_cons_of_neg (by simp [hr c rfl])
  simp [splitDigits, List.takeWhile_append_of_pos hd, List.dropWhile_append_of_pos hd, ht, hw]

/-- The run of digits at the front, with what follows it. -/
theorem splitDigits_spec (cs : List Char) :
    cs = (splitDigits cs).1 ++ (splitDigits cs).2 ∧ ∀ c ∈ (splitDigits cs).1, c.isDigit = true :=
  ⟨(splitDigits_append cs).symm, fun _ hc => List.mem_takeWhile_imp hc⟩

theorem Digits.head?_ne {ds : List Char} (h : Digits ds) {c : Char} (hc : c.isDigit = false)
    (rest : List Char) : (ds ++ rest).head? ≠ some c := by
  obtain ⟨d, ds, rfl⟩ := List.exists_cons_of_ne_nil h.ne_nil
  intro hd
  cases hd
  rw [h.isDigit c List.mem_cons_self] at hc
  cases hc

theorem splitSign_spec (f : NumeralFormat) (cs : List Char) :
    ∃ sign, cs = sign ++ (splitSign f cs).2 ∧ SignText f sign (splitSign f cs).1 := by
  unfold splitSign
  split
  · exact ⟨['-'], rfl, .minus⟩
  · split_ifs with hp
    · exact ⟨['+'], rfl, .plus hp⟩
    · exact ⟨[], rfl, .none⟩
  · exact ⟨[], rfl, .none⟩

theorem splitSign_of_signText {f : NumeralFormat} {sign body : List Char} {negative : Bool}
    (h : SignText f sign negative) (hm : body.head? ≠ some '-') (hp : body.head? ≠ some '+') :
    splitSign f (sign ++ body) = (negative, body) := by
  cases h with
  | minus => rfl
  | plus hf => simp [splitSign, hf]
  | none =>
    change splitSign f body = _
    unfold splitSign
    split
    · exact absurd rfl hm
    · exact absurd rfl hp
    · rfl

/-- A fraction is read with its point, or nothing is read. -/
theorem splitFraction_spec (cs : List Char) :
    splitFraction keyNumeral cs = ([], cs) ∨
      ∃ f rest, splitFraction keyNumeral cs = (f, rest) ∧ cs = '.' :: (f ++ rest) ∧ Digits f := by
  unfold splitFraction
  split
  · rename_i cs
    obtain ⟨hcs, hd⟩ := splitDigits_spec cs
    by_cases he : (splitDigits cs).1 = []
    · exact .inl (by simp [he, keyNumeral])
    · exact .inr ⟨_, _, by simp [he], congrArg _ hcs, ⟨he, hd⟩⟩
  · exact .inl rfl

theorem splitFraction_point (format : NumeralFormat) {f rest : List Char} (hf : Digits f)
    (hr : NoDigit rest) : splitFraction format ('.' :: (f ++ rest)) = (f, rest) := by
  simp [splitFraction, splitDigits_of_noDigit hf.isDigit hr, hf.ne_nil]

theorem splitFraction_of_head?_ne (format : NumeralFormat) {rest : List Char}
    (hr : rest.head? ≠ some '.') : splitFraction format rest = ([], rest) := by
  unfold splitFraction
  split
  · exact absurd rfl hr
  · rfl

theorem splitExponent_spec (cs : List Char) :
    ∃ x, cs = x ++ (splitExponent cs).2 ∧ ExponentText x (splitExponent cs).1 := by
  cases cs with
  | nil => exact ⟨[], rfl, .none⟩
  | cons c signed =>
    obtain ⟨sign, hsign, hs⟩ := splitSign_spec coordinateNumeral signed
    obtain ⟨hbody, hd⟩ := splitDigits_spec (splitSign coordinateNumeral signed).2
    simp only [splitExponent]
    by_cases hc : c = 'e' ∨ c = 'E'
    · rw [if_pos hc]
      by_cases he : (splitDigits (splitSign coordinateNumeral signed).2).1 = []
      · rw [if_pos (by simpa using he)]
        exact ⟨[], rfl, .none⟩
      · rw [if_neg (by simpa using he)]
        refine ⟨_, ?_, .mk hc hs ⟨he, hd⟩⟩
        simp only [List.cons_append, List.append_assoc]
        rw [← hbody, ← hsign]
    · rw [if_neg hc]
      exact ⟨[], rfl, .none⟩

theorem splitExponent_of_exponentText {x rest : List Char} {e : Int} (h : ExponentText x e)
    (hd : NoDigit rest) (hl : ∀ c, rest.head? = some c → ¬ IsExponentLetter c) :
    splitExponent (x ++ rest) = (e, rest) := by
  cases h with
  | none =>
    cases rest with
    | nil => rfl
    | cons c rest => exact if_neg (hl c rfl)
  | @mk c sign ds negative hc hs hds =>
    have hb : splitSign coordinateNumeral (sign ++ (ds ++ rest)) = (negative, ds ++ rest) :=
      splitSign_of_signText hs (hds.head?_ne (by decide) rest) (hds.head?_ne (by decide) rest)
    have hds' : splitDigits (ds ++ rest) = (ds, rest) := splitDigits_of_noDigit hds.isDigit hd
    simp only [List.cons_append, List.append_assoc, splitExponent, hb, hds']
    exact (if_pos hc).trans (if_neg (by simpa using hds.ne_nil))

/-- What cannot prolong a number: the end, or a character that is no digit, no point
and no exponent letter. -/
structure Stops (rest : List Char) : Prop where
  noDigit : NoDigit rest
  head?_ne_point : rest.head? ≠ some '.'
  noLetter : ∀ c, rest.head? = some c → ¬ IsExponentLetter c

theorem mantissaText_of_split {body : List Char}
    (hne : (splitDigits body).1 ≠ [] ∨ (splitFraction keyNumeral (splitDigits body).2).1 ≠ []) :
    ∃ mantissa, body = mantissa ++ (splitFraction keyNumeral (splitDigits body).2).2 ∧
      MantissaText mantissa (splitDigits body).1
        (splitFraction keyNumeral (splitDigits body).2).1 := by
  obtain ⟨hbody, hd⟩ := splitDigits_spec body
  rcases splitFraction_spec (splitDigits body).2 with hf | ⟨f, rest, hf, hrest, hdf⟩
  · rw [hf] at hne ⊢
    exact ⟨_, hbody, .whole ⟨by simpa using hne, hd⟩⟩
  · rw [hf]
    by_cases hw : (splitDigits body).1 = []
    · rw [hw, List.nil_append, hrest] at hbody
      rw [hw]
      exact ⟨'.' :: f, hbody, .leadingPoint hdf⟩
    · refine ⟨_, ?_, .point ⟨hw, hd⟩ hdf⟩
      rw [List.append_assoc, List.cons_append, ← hrest]
      exact hbody

theorem numberText_of_scanNumeral? {cs rest : List Char} {d : Decimal}
    (h : scanNumeral? keyNumeral cs = some (d, rest)) :
    ∃ number, cs = number ++ rest ∧ NumberText number d := by
  obtain ⟨sign, hcs, hs⟩ := splitSign_spec keyNumeral cs
  simp only [scanNumeral?] at h
  generalize splitSign keyNumeral cs = body at h hcs hs
  split_ifs at h with hne
  obtain ⟨mantissa, hbody, hm⟩ :=
    mantissaText_of_split (by simpa [or_iff_not_imp_left] using hne)
  obtain ⟨x, hx, he⟩ := splitExponent_spec (splitFraction keyNumeral (splitDigits body.2).2).2
  cases h
  refine ⟨sign ++ mantissa ++ x, ?_, .mk hs hm he⟩
  rw [List.append_assoc, List.append_assoc, ← hx, ← hbody, hcs]

theorem IsExponentLetter.isDigit_eq_false {c : Char} (h : IsExponentLetter c) :
    c.isDigit = false := by
  rcases h with rfl | rfl <;> decide

theorem IsExponentLetter.ne_point {c : Char} (h : IsExponentLetter c) : c ≠ '.' := by
  rcases h with rfl | rfl <;> decide

/-- Neither an exponent nor what stops a number prolongs the digits before it. -/
theorem ExponentText.noDigit_append {x rest : List Char} {e : Int} (h : ExponentText x e)
    (hr : Stops rest) : NoDigit (x ++ rest) ∧ (x ++ rest).head? ≠ some '.' := by
  cases h with
  | none => exact ⟨hr.noDigit, hr.head?_ne_point⟩
  | mk hc hs hds =>
    constructor
    · intro c hd
      cases hd
      exact hc.isDigit_eq_false
    · intro hp
      cases hp
      exact hc.ne_point rfl

/-- Both runs of digits are read back when what follows does not prolong them. -/
theorem split_of_mantissaText (format : NumeralFormat) {mantissa whole fraction tail : List Char}
    (h : MantissaText mantissa whole fraction) (hd : NoDigit tail) (hp : tail.head? ≠ some '.') :
    (splitDigits (mantissa ++ tail)).1 = whole ∧
      splitFraction format (splitDigits (mantissa ++ tail)).2 = (fraction, tail) := by
  have hpoint (cs : List Char) : NoDigit ('.' :: cs) := by
    intro c hc
    cases hc
    decide
  cases h with
  | whole hw =>
    rw [splitDigits_of_noDigit hw.isDigit hd]
    exact ⟨rfl, splitFraction_of_head?_ne format hp⟩
  | point hw hf =>
    rw [List.append_assoc, List.cons_append, splitDigits_of_noDigit hw.isDigit (hpoint _)]
    exact ⟨rfl, splitFraction_point format hf hd⟩
  | leadingPoint hf =>
    have hsplit : splitDigits ('.' :: (fraction ++ tail)) = ([], '.' :: (fraction ++ tail)) :=
      splitDigits_of_noDigit (List.forall_mem_nil _) (hpoint _)
    rw [List.cons_append, hsplit]
    exact ⟨rfl, splitFraction_point format hf hd⟩

theorem MantissaText.head?_ne {mantissa whole fraction : List Char}
    (h : MantissaText mantissa whole fraction) {c : Char} (hd : c.isDigit = false) (hc : c ≠ '.')
    (tail : List Char) : (mantissa ++ tail).head? ≠ some c := by
  cases h with
  | whole hw => exact hw.head?_ne hd tail
  | point hw hf =>
    rw [List.append_assoc]
    exact hw.head?_ne hd _
  | leadingPoint hf =>
    intro hp
    cases hp
    exact hc rfl

theorem MantissaText.ne_nil {mantissa whole fraction : List Char}
    (h : MantissaText mantissa whole fraction) : whole ≠ [] ∨ fraction ≠ [] := by
  cases h with
  | whole hw => exact .inl hw.ne_nil
  | point hw hf => exact .inl hw.ne_nil
  | leadingPoint hf => exact .inr hf.ne_nil

theorem SignText.of_keyNumeral {sign : List Char} {negative : Bool}
    (h : SignText keyNumeral sign negative) (format : NumeralFormat) :
    SignText format sign negative := by
  cases h with
  | none => exact .none
  | minus => exact .minus
  | plus h => cases h

/-- The scanner reads a number that cannot be prolonged to its end, in keys and elsewhere. -/
theorem scanNumeral?_of_numberText {format : NumeralFormat} {number rest : List Char} {d : Decimal}
    (h : NumberText number d) (hr : Stops rest) :
    scanNumeral? format (number ++ rest) = some (d, rest) := by
  cases h with
  | @mk sign mantissa x whole fraction negative e hs hm he =>
    obtain ⟨hd, hp⟩ := he.noDigit_append hr
    obtain ⟨hw, hf⟩ := split_of_mantissaText format hm hd hp
    have hsign : splitSign format (sign ++ (mantissa ++ (x ++ rest))) =
        (negative, mantissa ++ (x ++ rest)) :=
      splitSign_of_signText (hs.of_keyNumeral format) (hm.head?_ne (by decide) (by decide) _)
        (hm.head?_ne (by decide) (by decide) _)
    have hne : ¬ (whole.isEmpty && fraction.isEmpty) = true := by
      simpa [or_iff_not_imp_left] using hm.ne_nil
    simp only [List.append_assoc, scanNumeral?, hsign, hw, hf, if_neg hne,
      splitExponent_of_exponentText he hr.noDigit hr.noLetter]

end Text
end Drafting
