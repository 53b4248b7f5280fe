import Drafting.Proofs.Path.Solver
import Drafting.Proofs.Path.Touch

/-!
# Which crossings of a piece are found

The parameters a line answers with are roots of its polynomial, moved onto the range from 0
to 1 when they miss it by no more than a small tolerance. Close roots are merged before the
range is looked at, and of two close roots the one found first stays. So a crossing near the
end of the piece is lost when a simple root beyond the end, too far to count as the end but
close enough to be merged with, is found before it.

The formulas name simple roots before double ones, and of two simple roots the one farther
from zero or the greater one. So this is the only way to lose a crossing: near the start of
the piece, where the tolerance for merging is small, and beside a double root none is lost.
-/

namespace Drafting

section

variable [ExactTables]

namespace Scalar

theorem abs_sub_clamp_le {r m : ℝ} (hm : 0 ≤ m) (h : r ∈ Set.Icc (-m) (1 + m)) :
    |r - clamp r 0 1| ≤ m := by
  obtain ⟨hlow, hhigh⟩ := h
  rw [clamp, abs_le]
  split_ifs with h0 h1
  · constructor <;> linarith
  · constructor <;> linarith
  · simpa using hm

end Scalar

namespace Cubic

variable {p : Cubic ℝ} {rs : List ℝ} {r s t : ℝ}

/-- The derivative of a polynomial of degree three by finite differences. -/
theorem derivative_eq (p : Cubic ℝ) (t : ℝ) : p.derivative t =
    (8 * (p.eval (t + 1) - p.eval (t - 1)) - (p.eval (t + 2) - p.eval (t - 2))) / 12 := by
  unfold derivative eval
  ring

/-- Only simple roots are found before other roots. A simple root that is found later is no
greater than what was found before it. -/
def Before (p : Cubic ℝ) (r s : ℝ) : Prop :=
  p.derivative r ≠ 0 ∧ (p.derivative s = 0 ∨ s ≤ |r|)

theorem RootsOf.pairwise_before (h : RootsOf p.eval rs) : rs.Pairwise p.Before := by
  cases h with
  | none => exact .nil
  | one => exact List.pairwise_singleton _ _
  | @two a r s ha h hne hle =>
    have hr : p.derivative r = a * (r - s) := by
      rw [derivative_eq, h, h, h, h]
      ring
    refine List.pairwise_pair.mpr ⟨?_, .inr ((le_abs_self s).trans hle)⟩
    rw [hr]
    exact mul_ne_zero ha (sub_ne_zero.mpr hne)
  | @double a r s ha h hne =>
    have hr : p.derivative r = a * (r - s) ^ 2 := by
      rw [derivative_eq, h, h, h, h]
      ring
    have hs : p.derivative s = 0 := by
      rw [derivative_eq, h, h, h, h]
      ring
    refine List.pairwise_pair.mpr ⟨?_, .inl hs⟩
    rw [hr]
    exact mul_ne_zero ha (pow_ne_zero 2 (sub_ne_zero.mpr hne))
  | @three a r s w ha h hrs hsw =>
    have hr : p.derivative r = a * (r - s) * (r - w) := by
      rw [derivative_eq, h, h, h, h]
      ring
    have hs : p.derivative s = a * (s - r) * (s - w) := by
      rw [derivative_eq, h, h, h, h]
      ring
    have hr0 : p.derivative r ≠ 0 := by
      rw [hr]
      exact mul_ne_zero (mul_ne_zero ha (by linarith)) (by linarith)
    have hs0 : p.derivative s ≠ 0 := by
      rw [hs]
      exact mul_ne_zero (mul_ne_zero ha (by linarith)) (by linarith)
    have hfirst : r ≤ |r| := le_abs_self r
    have hsecond : w ≤ |s| := hsw.le.trans (le_abs_self s)
    refine .cons (fun x hx => ⟨hr0, .inr ?_⟩) (List.pairwise_pair.mpr ⟨hs0, .inr hsecond⟩)
    rcases List.mem_pair.mp hx with rfl | rfl <;> linarith

/-- The root `r` is found before the crossing `t` and close enough to be reported in its
place, but it lies too far beyond the end of the piece to be reported at all. -/
structure Shadows (p : Cubic ℝ) (r t : ℝ) : Prop where
  root : p.eval r = 0
  simple : p.derivative r ≠ 0
  beyond : 1 + 1e-6 < r
  close : r - t ≤ 1e-8 + 1e-5 * r

/-- A root that is not beyond the end of the range and close to a number in the range is in
the range up to the tolerance, and moving it onto the range leaves it close. -/
theorem close_of_approxEq (ht : t ∈ Set.Icc (0 : ℝ) 1) (hr : r ≤ 1 + 1e-6)
    (hclose : |t - r| ≤ 1e-8 + 1e-5 * |r|) :
    r ∈ Set.Icc (-1e-6) (1 + 1e-6) ∧ |t - Scalar.clamp r 0 1| ≤ 1e-8 + 1e-5 := by
  obtain ⟨h0, h1⟩ := ht
  rw [abs_le] at hclose
  rw [Scalar.clamp, abs_le]
  split_ifs with hlow hhigh
  · rw [abs_of_neg hlow] at hclose
    refine ⟨⟨?_, hr⟩, ?_, ?_⟩ <;> linarith
  · rw [abs_of_pos (by linarith)] at hclose
    refine ⟨⟨?_, hr⟩, ?_, ?_⟩ <;> linarith
  · rw [abs_of_nonneg (not_lt.mp hlow)] at hclose
    refine ⟨⟨?_, hr⟩, ?_, ?_⟩ <;> linarith

def ApartBefore (p : Cubic ℝ) (r s : ℝ) : Prop := p.Before r s ∧ ¬ Scalar.approxEq s r = true

theorem apartBefore_of_mem_mergeClose (h : RootsOf p.eval rs) (hr : r ∈ mergeClose rs)
    (hs : s ∈ mergeClose rs) (hne : r ≠ s) : p.ApartBefore r s ∨ p.ApartBefore s r := by
  have hpairs : (mergeClose rs).Pairwise p.ApartBefore :=
    (h.pairwise_before.sublist (mergeClose_sublist rs)).and (pairwise_mergeClose rs)
  have : Std.Symm fun r s => p.ApartBefore r s ∨ p.ApartBefore s r := ⟨fun _ _ => Or.symm⟩
  exact List.Pairwise.forall (R := fun r s => p.ApartBefore r s ∨ p.ApartBefore s r)
    (hpairs.imp .inl) hr hs hne

/-- Merging drops a crossing for the root in whose shadow it lies, unless that root is itself
dropped for a third one near by. -/
theorem not_mem_mergeClose_of_shadows (h : RootsOf p.eval rs)
    (ht : t ∈ Set.Icc (0 : ℝ) 1) (hr : p.Shadows r t)
    (hfar : ∀ s, p.eval s = 0 → s ≠ t → s ≠ r → 3e-5 < |t - s|) : t ∉ mergeClose rs := by
  intro hkept
  have hlt : t < r := by linarith [hr.beyond, ht.2]
  have hrpos : 0 < r := ht.1.trans_lt hlt
  have hclose : Scalar.approxEq t r = true := by
    rw [Scalar.approxEq_iff, abs_of_pos hrpos, abs_of_neg (sub_neg.mpr hlt)]
    linarith [hr.close]
  have hnot : r ∉ mergeClose rs := by
    intro hr'
    rcases apartBefore_of_mem_mergeClose h hkept hr' hlt.ne with
      ⟨⟨-, hsimple | hle⟩, -⟩ | ⟨-, hapart⟩
    · exact hr.simple hsimple
    · rw [abs_of_nonneg ht.1] at hle
      exact hlt.not_ge hle
    · exact hapart hclose
  rcases mem_mergeClose_or_close h.pairwise_before ((h.mem_iff r).mpr hr.root) with
    hr' | ⟨v, hv, ⟨-, hsimple | hle⟩, hrv⟩
  · exact hnot hr'
  · exact hr.simple hsimple
  · -- The third root `v` is at least `r`, so it is neither of the two and not near `t`.
    have hbeyond := hr.beyond
    rw [Scalar.approxEq_iff, abs_le] at hrv
    have hvpos : 0 < v := by
      by_contra hneg
      rw [abs_of_nonpos (not_lt.mp hneg)] at hrv hle
      linarith
    rw [abs_of_pos hvpos] at hrv hle
    have hvt : v ≠ t := by
      rintro rfl
      linarith [ht.2]
    have hvr : v ≠ r := by
      rintro rfl
      exact hnot hv
    have hthird := hfar v ((h.mem_iff v).mp ((mergeClose_sublist rs).subset hv)) hvt hvr
    rw [abs_of_nonpos (by linarith [ht.2])] at hthird
    linarith [hr.close, ht.2]

end Cubic

namespace Line

variable {l : Line ℝ} {P : Piece ℝ} {us : List ℝ} {r t u : ℝ}

/-- The polynomial that is zero where the piece meets the line. -/
noncomputable def polynomial (l : Line ℝ) (P : Piece ℝ) : Cubic ℝ :=
  implicit l.direction (P.relativeTo l.point)

theorem polynomial_eval (l : Line ℝ) (P : Piece ℝ) (t : ℝ) : (l.polynomial P).eval t =
    l.direction.dy * (P.x.eval t - l.point.x) - l.direction.dx * (P.y.eval t - l.point.y) := by
  simp only [polynomial, implicit, Piece.relativeTo, Cubic.eval]
  ring

theorem mem_parameters_iff (h : (l.polynomial P).WellConditioned)
    (hok : l.parameters P = .ok us) :
    u ∈ us ↔ ∃ r ∈ Cubic.mergeClose (l.polynomial P).rootsByDegree,
      r ∈ Set.Icc (-1e-6) (1 + 1e-6) ∧ Scalar.clamp r 0 1 = u := by
  have hroots := h.roots_eq
  rw [polynomial] at hroots
  simp only [parameters, hroots] at hok
  split_ifs at hok
  obtain rfl := Except.ok.inj hok
  simp only [List.mem_map, List.mem_filter, List.mem_mergeSort, Scalar.within_iff, and_assoc]
  exact Iff.rfl

theorem exists_parameters (h : (l.polynomial P).WellConditioned)
    (hlarge : Cubic.coefficientEpsilon * (l.direction.norm *
      Scalar.magnitude (P.relativeTo l.point).coefficients) < (l.polynomial P).magnitude) :
    ∃ us, l.parameters P = .ok us := by
  have hroots := h.roots_eq
  rw [polynomial] at hroots
  simp only [parameters, hroots]
  exact ⟨_, if_neg (not_le.mpr hlarge)⟩

theorem exists_root_of_mem (h : (l.polynomial P).WellConditioned)
    (hok : l.parameters P = .ok us) (hu : u ∈ us) : ∃ r ∈ Set.Icc (-1e-6) (1 + 1e-6),
      (l.polynomial P).eval r = 0 ∧ u = Scalar.clamp r 0 1 := by
  obtain ⟨r, hr, hrange, hclamp⟩ := (mem_parameters_iff h hok).mp hu
  exact ⟨r, hrange, (h.rootsOf.mem_iff r).mp ((Cubic.mergeClose_sublist _).subset hr), hclamp.symm⟩

/-- A crossing is reported, or a root in whose place it would be is too far out. -/
theorem exists_close_or_shadows (h : (l.polynomial P).WellConditioned)
    (hok : l.parameters P = .ok us) (ht : t ∈ Set.Icc (0 : ℝ) 1)
    (hroot : (l.polynomial P).eval t = 0) :
    (∃ u ∈ us, |t - u| ≤ 1e-8 + 1e-5) ∨ ∃ r, (l.polynomial P).Shadows r t := by
  have hmem := (h.rootsOf.mem_iff t).mpr hroot
  rcases Cubic.mem_mergeClose_or_close h.rootsOf.pairwise_before hmem with
    hkept | ⟨r, hr, hbefore, hclose⟩
  · refine .inl ⟨t, (mem_parameters_iff h hok).mpr ⟨t, hkept, ?_, Scalar.clamp_of_mem ht⟩, ?_⟩
    · exact Set.Icc_subset_Icc (by norm_num) (by norm_num) ht
    · norm_num
  · have hreal := (h.rootsOf.mem_iff r).mp ((Cubic.mergeClose_sublist _).subset hr)
    rw [Scalar.approxEq_iff] at hclose
    by_cases hbeyond : 1 + 1e-6 < r
    · rw [abs_of_pos (by linarith : 0 < r)] at hclose
      have hle := (neg_le_abs (t - r)).trans hclose
      exact .inr ⟨r, hreal, hbefore.1, hbeyond, by linarith⟩
    · -- Near zero there is almost no tolerance, so `r` is in the range too.
      obtain ⟨hrange, hle⟩ := Cubic.close_of_approxEq ht (not_lt.mp hbeyond) hclose
      exact .inl ⟨_, (mem_parameters_iff h hok).mpr ⟨r, hr, hrange, rfl⟩, hle⟩

/-- In the shadow of a root, and with no other root near, a crossing is lost. -/
theorem not_close_of_shadows (h : (l.polynomial P).WellConditioned)
    (hok : l.parameters P = .ok us) (ht : t ∈ Set.Icc (0 : ℝ) 1)
    (hr : (l.polynomial P).Shadows r t)
    (hfar : ∀ s, (l.polynomial P).eval s = 0 → s ≠ t → s ≠ r → 3e-5 < |t - s|) (hu : u ∈ us) :
    1e-8 + 1e-5 < |t - u| := by
  obtain ⟨s, hs, hrange, rfl⟩ := (mem_parameters_iff h hok).mp hu
  have hmove := Scalar.abs_sub_clamp_le (m := 1e-6) (by norm_num) (by simpa using hrange)
  have hsr : s ≠ r := by
    rintro rfl
    exact hrange.2.not_gt hr.beyond
  have hst : s ≠ t := by
    rintro rfl
    exact Cubic.not_mem_mergeClose_of_shadows h.rootsOf ht hr hfar hs
  have hreal := (h.rootsOf.mem_iff s).mp ((Cubic.mergeClose_sublist _).subset hs)
  have hs := hfar s hreal hst hsr
  have htriangle := abs_sub_le t (Scalar.clamp s 0 1) s
  rw [abs_sub_comm (Scalar.clamp s 0 1) s] at htriangle
  linarith

/-- The parameters are those of crossings and of roots that miss the range by no more than
the tolerance. A crossing is near one of them unless it lies in the shadow of a root, and
in such a shadow, with no other root near, it is lost. -/
theorem crossing_found_or_shadowed (h : (l.polynomial P).WellConditioned)
    (hok : l.parameters P = .ok us) :
    (∀ t, (l.polynomial P).eval t =
      l.direction.dy * (P.x.eval t - l.point.x) - l.direction.dx * (P.y.eval t - l.point.y)) ∧
    (∀ u ∈ us, u ∈ Set.Icc (0 : ℝ) 1 ∧ ∃ r ∈ Set.Icc (-1e-6) (1 + 1e-6),
      (l.polynomial P).eval r = 0 ∧ u = Scalar.clamp r 0 1) ∧
    ∀ t ∈ Set.Icc (0 : ℝ) 1, (l.polynomial P).eval t = 0 →
      ((∃ u ∈ us, |t - u| ≤ 1e-8 + 1e-5) ∨ ∃ r, (l.polynomial P).Shadows r t) ∧
      ∀ r, (l.polynomial P).Shadows r t →
        (∀ s, (l.polynomial P).eval s = 0 → s ≠ t → s ≠ r → 3e-5 < |t - s|) →
        ∀ u ∈ us, 1e-8 + 1e-5 < |t - u| := by
  refine ⟨l.polynomial_eval P, fun u hu => ?_, fun t ht hroot =>
    ⟨exists_close_or_shadows h hok ht hroot, fun r hr hfar u hu =>
      not_close_of_shadows h hok ht hr hfar hu⟩⟩
  obtain ⟨r, hr, hroot, rfl⟩ := exists_root_of_mem h hok hu
  exact ⟨Scalar.clamp_mem_Icc r, r, hr, hroot, rfl⟩

end Line

end

/-- A parabola is cut by the x axis at `1 - 2⁻¹⁸` and `1 + 2⁻¹⁸`. The second root is found
first and is out of range, so the crossing is lost. -/
theorem Line.crossing_found_or_shadowed_parabola :
    let _ : ExactTables := ⟨[(0, 1)], fun _ => ⟨false, 0, 0⟩⟩
    let l : Line ℝ := ⟨⟨0, 0⟩, ⟨1, 0⟩⟩
    let P : Piece ℝ := ⟨⟨0, 1, 0, 0⟩, ⟨1 - 2⁻¹ ^ 36, -2, 1, 0⟩⟩
    ∃ us, l.parameters P = .ok us ∧ (P.eval (1 - 2⁻¹ ^ 18)).y = 0 ∧
      ∀ u ∈ us, 1e-8 + 1e-5 < |1 - 2⁻¹ ^ 18 - u| := by
  intro _ l P
  have hp : l.polynomial P = ⟨-(1 - 2⁻¹ ^ 36), 2, -1, 0⟩ := by
    ext <;> norm_num [polynomial, implicit, Piece.relativeTo, l, P]
  have hsize : (l.polynomial P).magnitude = 2 := by
    rw [hp, Cubic.magnitude_eq]
    norm_num
  have h : (l.polynomial P).WellConditioned := {
    ne_zero := ⟨2, by simp [hp, Cubic.coefficients], two_ne_zero⟩
    significant := by
      rw [hsize, hp]
      norm_num [Cubic.coefficients, Cubic.coefficientEpsilon]
    quadratic := fun _ _ => .inr (by
      rw [hp]
      norm_num [Cubic.quadraticDisc, Cubic.quadraticScale, Cubic.discriminantEpsilon])
    cubic := fun h3 => absurd (by rw [hp]) h3 }
  have hfactor (s : ℝ) : (l.polynomial P).eval s = -(s - (1 - 2⁻¹ ^ 18)) * (s - (1 + 2⁻¹ ^ 18)) := by
    rw [hp, Cubic.eval_eq]
    ring
  have hshadow : (l.polynomial P).Shadows (1 + 2⁻¹ ^ 18) (1 - 2⁻¹ ^ 18) := {
    root := by
      rw [hfactor]
      ring
    simple := by
      rw [hp]
      norm_num [Cubic.derivative]
    beyond := by norm_num
    close := by norm_num }
  have hother (s : ℝ) (hs : (l.polynomial P).eval s = 0) (hst : s ≠ 1 - 2⁻¹ ^ 18)
      (hsr : s ≠ 1 + 2⁻¹ ^ 18) : 3e-5 < |1 - 2⁻¹ ^ 18 - s| := by
    rw [hfactor, neg_mul, neg_eq_zero, mul_eq_zero, sub_eq_zero, sub_eq_zero] at hs
    exact absurd hs (not_or.mpr ⟨hst, hsr⟩)
  have hnorm : l.direction.norm = 1 := by
    change √(1 * 1 + 0 * 0) = 1
    norm_num
  have hscale : Scalar.magnitude (P.relativeTo l.point).coefficients = 2 := by
    simp only [Scalar.magnitude, Piece.coefficients, Cubic.coefficients, Piece.relativeTo, P, l,
      List.cons_append, List.nil_append, List.foldl_cons, List.foldl_nil, Scalar.greater_eq_max,
      Scalar.abs_eq_abs]
    norm_num
  obtain ⟨us, hus⟩ := exists_parameters h (by
    rw [hsize, hnorm, hscale]
    norm_num [Cubic.coefficientEpsilon])
  obtain ⟨-, -, hfound⟩ := crossing_found_or_shadowed h hus
  refine ⟨us, hus, ?_, (hfound (1 - 2⁻¹ ^ 18) ?_ ?_).2 _ hshadow hother⟩
  · norm_num [P, Piece.eval, Cubic.eval]
  · norm_num
  · rw [hfactor, sub_self, neg_zero, zero_mul]

end Drafting
