import Drafting.Proofs.Path.Touch
import Drafting.Proofs.Path.Traversal

/-!
# Which queries of a path are answered

A fraction is looked up among the weights of the pieces, of which there is one for each piece,
and every number is found at one of them. So a path with segments answers every fraction
between 0 and 1 and every distance up to its length, and refuses all others as out of range. A
path without segments answers nothing. Whatever the quadrature makes of the lengths, each point
that is answered is that of a piece at a parameter between 0 and 1, and so is each point where
a line crosses the path.
-/

namespace Drafting

variable [ExactTables]

namespace LengthTable

/-- By induction on the weights, the last of which stands for all greater numbers. -/
theorem exists_bracket {ws : List ℝ} (hws : ws ≠ []) (f : ℝ) (k : ℕ) (lower : ℝ) :
    ∃ i l u, bracket f k lower ws = some (k + i, l, u) ∧ i < ws.length := by
  induction ws generalizing k lower with
  | nil => exact absurd rfl hws
  | cons w ws ih =>
    cases ws with
    | nil => exact ⟨0, lower, w, rfl, Nat.one_pos⟩
    | cons next rest =>
      rw [bracket]
      split_ifs
      · exact ⟨0, lower, w, rfl, Nat.succ_pos _⟩
      · obtain ⟨i, l, u, hbracket, hi⟩ := ih (List.cons_ne_nil next rest) (k + 1) w
        refine ⟨i + 1, l, u, ?_, Nat.succ_lt_succ hi⟩
        rw [hbracket, Nat.add_assoc, Nat.add_comm 1 i]

theorem exists_locate {t : LengthTable ℝ} (ht : t.weights ≠ []) (f : ℝ) :
    ∃ i s, t.locate f = some (i, s) ∧ i < t.weights.length ∧ s ∈ Set.Icc (0 : ℝ) 1 := by
  obtain ⟨i, l, u, hbracket, hi⟩ := exists_bracket ht f 0 0
  rw [Nat.zero_add] at hbracket
  refine ⟨i, _, ?_, hi, Scalar.clamp_mem_Icc (if l < u then (f - l) / (u - l) else 0)⟩
  rw [locate, hbracket]

theorem bounds_of_locate {t : LengthTable ℝ} {f s : ℝ} {i : ℕ} (h : t.locate f = some (i, s)) :
    i < t.weights.length ∧ s ∈ Set.Icc (0 : ℝ) 1 := by
  have ht : t.weights ≠ [] := by
    intro ht
    rw [locate, ht] at h
    cases h
  obtain ⟨i', s', hlocate, hbounds⟩ := exists_locate ht f
  rw [h] at hlocate
  cases hlocate
  exact hbounds

end LengthTable

namespace Line

variable {l : Line ℝ} {piece : Piece ℝ} {ps : List (Point ℝ)}

theorem mem_Icc_of_mem_parameters {ts : List ℝ} (h : l.parameters piece = .ok ts) {t : ℝ}
    (ht : t ∈ ts) : t ∈ Set.Icc (0 : ℝ) 1 := by
  unfold parameters at h
  dsimp only at h
  split_ifs at h
  obtain ⟨roots, -, rfl⟩ := map_eq_ok.mp h
  obtain ⟨r, -, rfl⟩ := List.mem_map.mp ht
  exact Scalar.clamp_mem_Icc r

theorem exists_parameter (h : l.crossings piece = .ok ps) {q : Point ℝ} (hq : q ∈ ps) :
    ∃ s ∈ Set.Icc (0 : ℝ) 1, piece.eval s = q := by
  obtain ⟨ts, hts, rfl⟩ := map_eq_ok.mp h
  obtain ⟨t, ht, rfl⟩ := List.mem_map.mp hq
  exact ⟨t, mem_Icc_of_mem_parameters hts ht, rfl⟩

end Line

namespace Path

variable {p : Path ℝ}

def OnCurve (p : Path ℝ) (q : Point ℝ) : Prop :=
  ∃ piece ∈ p.pieces, ∃ s ∈ Set.Icc (0 : ℝ) 1, piece.eval s = q

theorem length_weights (p : Path ℝ) : p.lengthTable.weights.length = p.pieces.length := by
  simp [weights_eq, lengths_eq]

theorem lt_length_of_locate {t s : ℝ} {i : ℕ} (h : p.lengthTable.locate t = some (i, s)) :
    i < p.pieces.length :=
  p.length_weights ▸ (LengthTable.bounds_of_locate h).1

theorem isEmpty_of_nil (hp : p.segments = []) : p.isEmpty = true := by
  rw [isEmpty, topology, hp]
  rfl

theorem onCurve_finish {q : Point ℝ} (hq : p.finish = some q) : p.OnCurve q := by
  rw [finish_eq_getLast?] at hq
  obtain ⟨piece, hpiece, rfl⟩ := Option.map_eq_some_iff.mp hq
  exact ⟨piece, List.mem_of_getLast? hpiece, 1, ⟨zero_le_one, le_rfl⟩, rfl⟩

theorem pointAtFraction_of_nil (hp : p.segments = []) (t : ℝ) :
    p.pointAtFraction t = .error .emptyPath := by
  have hfinish : p.finish = none := by rw [finish, hp, List.getLast?_nil, Option.map_none]
  rw [pointAtFraction, hfinish]

theorem pointAtFraction_of_not_mem (hp : p.segments ≠ []) {t : ℝ} (ht : t ∉ Set.Icc (0 : ℝ) 1) :
    p.pointAtFraction t = .error (.outOfRangeFraction t) := by
  obtain ⟨s, rest, hs⟩ := List.exists_cons_of_ne_nil hp
  have hrange : Scalar.within t 0 1 = false := by
    rwa [← Bool.not_eq_true, Scalar.within_iff]
  simp [pointAtFraction, finish_cons hs, hrange]

theorem exists_pointAtFraction (hp : p.segments ≠ []) {t : ℝ} (ht : t ∈ Set.Icc (0 : ℝ) 1) :
    ∃ q, p.pointAtFraction t = .ok q ∧ p.OnCurve q := by
  by_cases h1 : t = 1
  · obtain ⟨s, rest, hs⟩ := List.exists_cons_of_ne_nil hp
    exact ⟨_, h1 ▸ pointAtFraction_one (finish_cons hs), onCurve_finish (finish_cons hs)⟩
  · have hweights : p.lengthTable.weights ≠ [] := by
      rw [← List.length_pos_iff, length_weights, List.length_pos_iff]
      exact pieces_ne_nil hp
    obtain ⟨i, s, hlocate, -, hs⟩ := LengthTable.exists_locate hweights t
    have hi := lt_length_of_locate hlocate
    exact ⟨_, pointAtFraction_of_locate hp ht h1 hlocate (List.getElem?_eq_getElem hi),
      _, List.getElem_mem hi, s, hs, rfl⟩

/-- A path answers the fractions between 0 and 1, by points on its pieces. -/
theorem of_pointAtFraction {t : ℝ} {q : Point ℝ} (h : p.pointAtFraction t = .ok q) :
    p.segments ≠ [] ∧ t ∈ Set.Icc (0 : ℝ) 1 ∧ p.OnCurve q := by
  have hp : p.segments ≠ [] := by
    intro hp
    rw [pointAtFraction_of_nil hp] at h
    cases h
  have ht : t ∈ Set.Icc (0 : ℝ) 1 := by
    by_contra ht
    rw [pointAtFraction_of_not_mem hp ht] at h
    cases h
  obtain ⟨q', hq', hcurve⟩ := exists_pointAtFraction hp ht
  rw [h] at hq'
  cases hq'
  exact ⟨hp, ht, hcurve⟩

theorem pointAtLength_of_nil (hp : p.segments = []) (d : ℝ) :
    p.pointAtLength d = .error .emptyPath := by
  rw [pointAtLength, if_pos (isEmpty_of_nil hp)]

theorem pointAtLength_of_not_mem (hp : p.segments ≠ []) {d : ℝ} (hd : d ∉ Set.Icc 0 p.length) :
    p.pointAtLength d = .error (.outOfRangeLength d p.length) := by
  have hrange : Scalar.within d 0 p.length = false := by
    rwa [← Bool.not_eq_true, Scalar.within_iff]
  simp [pointAtLength, isEmpty_eq_false hp, hrange]

theorem exists_pointAtLength_eq (hp : p.segments ≠ []) {d : ℝ} (hd : d ∈ Set.Icc 0 p.length) :
    ∃ t ∈ Set.Icc (0 : ℝ) 1, p.pointAtLength d = p.pointAtFraction t := by
  by_cases hpos : 0 < p.length
  · exact ⟨d / p.length, ⟨div_nonneg hd.1 hpos.le, (div_le_one hpos).mpr hd.2⟩,
      pointAtLength_eq hp hpos hd⟩
  · refine ⟨0, ⟨le_rfl, zero_le_one⟩, ?_⟩
    simp [pointAtLength, isEmpty_eq_false hp, Scalar.within_iff.mpr hd, hpos, Scalar.lesser_eq_min]

theorem onCurve_of_pointAtLength {d : ℝ} {q : Point ℝ} (h : p.pointAtLength d = .ok q) :
    p.OnCurve q := by
  by_cases hp : p.segments = []
  · rw [pointAtLength_of_nil hp] at h
    cases h
  · by_cases hd : d ∈ Set.Icc 0 p.length
    · obtain ⟨t, -, ht⟩ := exists_pointAtLength_eq hp hd
      rw [ht] at h
      exact (of_pointAtFraction h).2.2
    · rw [pointAtLength_of_not_mem hp hd] at h
      cases h

variable {l : Line ℝ}

/-- Merging adds no point, so each crossing is one of a piece. -/
theorem onCurve_of_mem_crossings {ps : List (Point ℝ)} (h : p.crossings l = .ok ps) {q : Point ℝ}
    (hq : q ∈ ps) : p.OnCurve q := by
  obtain ⟨found, hfound, hsublist, -⟩ := exists_found h
  obtain ⟨piece, hpiece, hq⟩ := List.mem_flatMap.mp (hsublist.subset hq)
  exact ⟨piece, hpiece, Line.exists_parameter (hfound piece hpiece) hq⟩

end Path

end Drafting
