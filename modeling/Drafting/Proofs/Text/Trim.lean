import Drafting.Text.Blank
import Mathlib.Data.List.DropRight

/-!
# Trimmed texts

Trimming takes away the blanks at both ends and nothing else. It leaves a text alone that starts
and ends with other characters, so a second trimming changes nothing.
-/

namespace Drafting
namespace Text

variable {cs : List Char}

theorem dropWhile_of_forall {p : Char → Bool} (h : ∀ c ∈ cs, p c = false) :
    cs.dropWhile p = cs := by
  cases cs with
  | nil => rfl
  | cons c cs => exact List.dropWhile_cons_of_neg (by simp [h c List.mem_cons_self])

theorem trim_eq_self (h : ∀ c ∈ cs, isBlank c = false) : trim cs = cs := by
  have hrev : ∀ c ∈ cs.reverse, isBlank c = false := fun c hc => h c (List.mem_reverse.mp hc)
  rw [trim, dropWhile_of_forall h, dropWhile_of_forall hrev, List.reverse_reverse]

/-- Blanks at the end are trimmed away, however the text starts. -/
theorem trim_append_of_blank (cs : List Char) {blanks : List Char}
    (h : ∀ c ∈ blanks, isBlank c = true) : trim (cs ++ blanks) = trim cs := by
  unfold trim
  rw [List.dropWhile_append]
  split_ifs with he
  · rw [List.isEmpty_iff.mp he, List.dropWhile_eq_nil_iff.mpr h]
  · rw [List.reverse_append, List.dropWhile_append_of_pos]
    simpa using h

theorem trim_rdropWhile (cs : List Char) : trim (cs.rdropWhile isBlank) = trim cs := by
  have hcs : cs.rdropWhile isBlank ++ cs.rtakeWhile isBlank = cs :=
    List.rdropWhile_append_rtakeWhile
  calc trim (cs.rdropWhile isBlank)
      = trim (cs.rdropWhile isBlank ++ cs.rtakeWhile isBlank) :=
        (trim_append_of_blank _ fun c hc => List.mem_rtakeWhile_imp hc).symm
    _ = trim cs := by rw [hcs]

theorem trim_of_ends {c : Char} (hc : isBlank c = false)
    (hlast : ∀ h : c :: cs ≠ [], isBlank ((c :: cs).getLast h) = false) :
    trim (c :: cs) = c :: cs := by
  change ((c :: cs).dropWhile isBlank).rdropWhile isBlank = c :: cs
  rw [List.dropWhile_cons_of_neg (by simp [hc]), List.rdropWhile_eq_self_iff]
  intro h
  simp [hlast h]

theorem trim_cons_of_blank {c : Char} (hc : isBlank c = true) : trim (c :: cs) = trim cs := by
  rw [trim, trim, List.dropWhile_cons_of_pos hc]

/-- What is left after trimming starts and ends with other characters. -/
theorem trim_trim (cs : List Char) : trim (trim cs) = trim cs := by
  change trim ((cs.dropWhile isBlank).rdropWhile isBlank) = _
  rw [trim_rdropWhile, trim, trim, List.dropWhile_idempotent]

end Text
end Drafting
