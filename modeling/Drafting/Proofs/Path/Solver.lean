import Mathlib.Data.List.Sort
import Mathlib.Tactic.Linarith
import Drafting.Proofs.Checked
import Drafting.Proofs.Path.Roots

/-!
# The solver for cubic polynomials

After the closed formulas the solver merges close roots and sorts what is left. A root is
left out only for an earlier one it is close to, so every root is near one of the answer,
and the answer names roots only.

The formulas divide, take square roots and take an arc cosine. Run over the numbers that
notice undefined operations they answer the same as over the real numbers, so no branch
divides by zero or leaves the range of a root or an arc cosine. This holds for every
polynomial, since each branch is guarded by the sign of its discriminant.
-/

namespace Drafting

section

variable [ExactTables]

theorem Scalar.approxEq_iff {a b : ℝ} : approxEq a b = true ↔ |a - b| ≤ 1e-8 + 1e-5 * |b| := by
  rw [approxEq, abs_eq_abs, abs_eq_abs, decide_eq_true_iff]
  exact Iff.rfl

theorem Scalar.approxEq_self (a : ℝ) : approxEq a a = true := by
  rw [approxEq_iff, sub_self, abs_zero]
  positivity

namespace Cubic

section
variable {rs : List ℝ}

omit [ExactTables] in
theorem mergeClose_concat {K : Type} [Scalar K] (rs : List K) (r : K) : mergeClose (rs ++ [r]) =
    if (mergeClose rs).any (Scalar.approxEq r) then mergeClose rs else mergeClose rs ++ [r] := by
  rw [mergeClose, List.foldl_append]
  rfl

theorem mergeClose_sublist (rs : List ℝ) : (mergeClose rs).Sublist rs := by
  induction rs using List.reverseRecOn with
  | nil => exact .slnil
  | append_singleton rs r ih =>
    rw [mergeClose_concat]
    split_ifs
    · exact ih.trans (List.sublist_append_left rs [r])
    · exact ih.append_right [r]

theorem pairwise_mergeClose (rs : List ℝ) :
    (mergeClose rs).Pairwise fun u r => ¬ Scalar.approxEq r u = true := by
  induction rs using List.reverseRecOn with
  | nil => exact .nil
  | append_singleton rs r ih =>
    rw [mergeClose_concat]
    split_ifs with hclose
    · exact ih
    · rw [List.any_eq_true] at hclose
      push Not at hclose
      refine List.pairwise_append.mpr ⟨ih, List.pairwise_singleton _ r, fun u hu s hs => ?_⟩
      rw [List.mem_singleton.mp hs]
      exact hclose u hu

/-- A root that is not kept is close to a kept one that the list names before it. -/
theorem mem_mergeClose_or_close {R : ℝ → ℝ → Prop} (hR : rs.Pairwise R) {r : ℝ} (hr : r ∈ rs) :
    r ∈ mergeClose rs ∨ ∃ u ∈ mergeClose rs, R u r ∧ Scalar.approxEq r u = true := by
  induction rs using List.reverseRecOn with
  | nil => cases hr
  | append_singleton rs s ih =>
    obtain ⟨hfront, -, hlast⟩ := List.pairwise_append.mp hR
    have hkeep {u : ℝ} (hu : u ∈ mergeClose rs) : u ∈ mergeClose (rs ++ [s]) := by
      rw [mergeClose_concat]
      split_ifs
      · exact hu
      · exact List.mem_append_left _ hu
    rcases List.mem_append.mp hr with hr | hr
    · rcases ih hfront hr with h | ⟨u, hu, h⟩
      · exact .inl (hkeep h)
      · exact .inr ⟨u, hkeep hu, h⟩
    · obtain rfl := List.mem_singleton.mp hr
      by_cases hclose : (mergeClose rs).any (Scalar.approxEq r) = true
      · obtain ⟨u, hu, hru⟩ := List.any_eq_true.mp hclose
        have hbefore := hlast u ((mergeClose_sublist rs).subset hu) r List.mem_cons_self
        exact .inr ⟨u, hkeep hu, hbefore, hru⟩
      · rw [mergeClose_concat, if_neg hclose]
        exact .inl (List.mem_append_right _ List.mem_cons_self)

/-- Every root is close to a kept one. -/
theorem exists_mem_mergeClose {r : ℝ} (hr : r ∈ rs) :
    ∃ u ∈ mergeClose rs, Scalar.approxEq r u = true := by
  have hall : rs.Pairwise fun _ _ => True := List.pairwise_of_forall fun _ _ => trivial
  rcases mem_mergeClose_or_close hall hr with h | ⟨u, hu, -, h⟩
  · exact ⟨r, h, Scalar.approxEq_self r⟩
  · exact ⟨u, hu, h⟩

end

open Checked

section
variable {a b c p q : ℝ}

theorem disc_pos_of_not_band {disc scale : ℝ} (hscale : 0 ≤ scale) (hneg : ¬ disc < 0)
    (hband : ¬ |disc| ≤ discriminantEpsilon * scale) : 0 < disc := by
  refine lt_of_le_of_ne (not_lt.mp hneg) fun h => hband ?_
  rw [← h, abs_zero]
  exact mul_nonneg (by norm_num [discriminantEpsilon]) hscale

/-- `quadraticPivot` as it is computed, with a square root that can fail. -/
noncomputable def checkedPivot (a b c : ℝ) : Checked :=
  number (-0.5) * (number b + number (if 0 ≤ b then 1 else -1) *
    Scalar.sqrt (number (quadraticDisc a b c)))

theorem checkedPivot_eq (h : 0 < quadraticDisc a b c) :
    checkedPivot a b c = number (quadraticPivot a b c) := by
  rw [checkedPivot, sqrt_number h.le]
  rfl

theorem quadraticRoots_number (ha : a ≠ 0) (b c : ℝ) :
    quadraticRoots (number a) (number b) (number c) = (quadraticRoots a b c).map number := by
  have hshape : quadraticRoots (number a) (number b) (number c) =
      if |quadraticDisc a b c| ≤ discriminantEpsilon * quadraticScale a b c then
        [number (-b) / number (2 * a)]
      else if quadraticDisc a b c < 0 then []
      else [checkedPivot a b c / number a, number c / checkedPivot a b c] := by
    simp only [quadraticRoots, discriminantEpsilon, ofNat_eq, ofScientific_eq, number_mul,
      number_sub, abs_number, greater_number, number_le, number_neg, number_lt, number_ite,
      ← Scalar.abs_eq_abs, quadraticScale, ← Scalar.greater_eq_max]
    rfl
  rw [hshape, quadraticRoots_eq]
  split_ifs with hband hneg
  · rw [number_div _ (mul_ne_zero two_ne_zero ha)]
    rfl
  · rfl
  · have hpos : 0 < quadraticDisc a b c :=
      disc_pos_of_not_band (le_max_of_le_left (mul_self_nonneg b)) hneg hband
    rw [checkedPivot_eq hpos, number_div _ ha, number_div _ (pivot_ne_zero hpos)]
    rfl

noncomputable def checkedRatio (p q : ℝ) : Checked :=
  number (3 * q) / number (2 * p) * Scalar.sqrt (number (-3) / number p)

noncomputable def checkedRoot (p q shift k : ℝ) : Checked :=
  number 2 * Scalar.sqrt (number (-p / 3)) *
    Scalar.cos (Scalar.acos (Scalar.clamp (checkedRatio p q) (number (-1)) (number 1)) / number 3 -
      number (Scalar.tau * k / 3)) + number shift

theorem checkedRoot_eq (h : depressedDisc p q < 0) (shift k : ℝ) :
    checkedRoot p q shift k = number (trigRoot p q k + shift) := by
  have hp := neg_of_depressedDisc_neg h
  have hratio := abs_lt.mp (abs_trigRatio_lt_one h)
  have hcos : checkedRatio p q = number (trigRatio p q) := by
    rw [checkedRatio, number_div _ (mul_ne_zero two_ne_zero hp.ne), number_div _ hp.ne,
      sqrt_number (div_nonneg_of_nonpos (by norm_num) hp.le)]
    rfl
  rw [checkedRoot, hcos, sqrt_number (by linarith), clamp_number, clamp_trigRatio h,
    acos_number ⟨hratio.1.le, hratio.2.le⟩, number_div _ three_ne_zero]
  rfl

theorem depressedRoots_number (p q shift : ℝ) :
    depressedRoots (number p) (number q) (number shift) =
      (depressedRoots p q shift).map number := by
  have hshape : depressedRoots (number p) (number q) (number shift) =
      if depressedScale p q = 0 then [number shift]
      else if |depressedDisc p q| ≤ discriminantEpsilon * depressedScale p q then
        [number (2 * Exact.cbrt (-q / 2) + shift), number (-Exact.cbrt (-q / 2) + shift)]
      else if 0 < depressedDisc p q then
        [Scalar.cbrt (number (-q / 2) + Scalar.sqrt (number (depressedDisc p q))) +
          Scalar.cbrt (number (-q / 2) - Scalar.sqrt (number (depressedDisc p q))) + number shift]
      else [checkedRoot p q shift 0, checkedRoot p q shift 1, checkedRoot p q shift 2] := by
    simp (disch := norm_num) only [depressedRoots, discriminantEpsilon, Scalar.tau, ofNat_eq,
      ofScientific_eq, pi_eq, number_mul, number_add, number_div, cbrt_number, number_beq,
      abs_number, greater_number, number_le, number_neg, number_lt, ← Scalar.abs_eq_abs,
      depressedScale, ← Scalar.greater_eq_max, ← beq_iff_eq (b := (0 : ℝ))]
    rfl
  rw [hshape, depressedRoots_eq]
  split_ifs with hscale hband hpos
  · rfl
  · rfl
  · rw [sqrt_number hpos.le]
    rfl
  · have hneg : depressedDisc p q < 0 := by
      by_contra hneg
      exact hpos (disc_pos_of_not_band (depressedScale_nonneg p q) hneg hband)
    simp only [checkedRoot_eq hneg]
    rfl

theorem cubicRoots_number (ha : a ≠ 0) (b c d : ℝ) :
    cubicRoots (number a) (number b) (number c) (number d) = (cubicRoots a b c d).map number := by
  simp (disch := first | exact ha | norm_num) only [cubicRoots, ofNat_eq, number_div, number_mul,
    number_sub, number_add, number_neg, depressedRoots_number]

end

section
variable (p : Cubic ℝ)

def checked : Cubic Checked := ⟨number p.c0, number p.c1, number p.c2, number p.c3⟩

theorem magnitude_checked : p.checked.magnitude = number p.magnitude := by
  simp only [magnitude, coefficients, checked, Scalar.magnitude, List.foldl_cons, List.foldl_nil,
    ofNat_eq, abs_number, greater_number]

theorem flush_checked : p.checked.flush = p.flush.checked := by
  have hcoefficient (floor c : ℝ) :
      (if Scalar.abs (number c) < number floor then 0 else number c) =
        number (if Scalar.abs c < floor then 0 else c) := by
    simp only [abs_number, number_lt, ofNat_eq, number_ite]
  simp only [flush, magnitude_checked, coefficientEpsilon, ofScientific_eq, number_mul]
  ext
  · exact hcoefficient _ p.c0
  · exact hcoefficient _ p.c1
  · exact hcoefficient _ p.c2
  · exact hcoefficient _ p.c3

/-- Every operation of the closed formulas is defined. -/
theorem rootsByDegree_checked : p.checked.rootsByDegree = p.rootsByDegree.map number := by
  simp only [rootsByDegree, checked, ofNat_eq, number_beq, Bool.not_eq_true', beq_eq_false_iff_ne]
  split_ifs with h3 h2 h1
  · exact cubicRoots_number h3 _ _ _
  · exact quadraticRoots_number h2 _ _
  · rw [number_neg, number_div _ h1]
    rfl
  · rfl

theorem mergeClose_number (rs : List ℝ) :
    mergeClose (rs.map number) = (mergeClose rs).map number := by
  induction rs using List.reverseRecOn with
  | nil => rfl
  | append_singleton rs r ih =>
    have hany : ((mergeClose rs).map number).any (Scalar.approxEq (number r)) =
        (mergeClose rs).any (Scalar.approxEq r) := by
      simp only [List.any_map, Function.comp_def, approxEq_number]
    rw [List.map_append, List.map_singleton, mergeClose_concat, ih, hany, mergeClose_concat,
      apply_ite (List.map number), List.map_append, List.map_singleton]

theorem roots_checked : p.checked.roots = p.roots.map (List.map number) := by
  have hfinite (rs : List ℝ) : (rs.map number).filter Scalar.isFinite =
      (rs.filter Scalar.isFinite).map number := List.filter_map
  have hsort (rs : List ℝ) : (rs.map number).mergeSort (fun a b => decide (a ≤ b)) =
      (rs.mergeSort fun a b => decide (a ≤ b)).map number :=
    (List.map_mergeSort fun a _ b _ => by simp only [number_le]).symm
  simp only [roots, magnitude_checked, ofNat_eq, number_beq, flush_checked, rootsByDegree_checked,
    hfinite, mergeClose_number, hsort]
  split_ifs
  · rfl
  · rfl

end

namespace WellConditioned

variable {p : Cubic ℝ}

theorem roots_eq (h : p.WellConditioned) :
    p.roots = .ok ((mergeClose p.rootsByDegree).mergeSort fun a b => decide (a ≤ b)) := by
  have hsize : ¬ (p.magnitude == 0) = true := by
    simpa using h.magnitude_pos.ne'
  have hfinite : p.rootsByDegree.filter Scalar.isFinite = p.rootsByDegree :=
    List.filter_eq_self.mpr fun _ _ => rfl
  rw [roots, if_neg hsize, h.flush_eq]
  simp only [hfinite]

theorem pairwise_sorted (h : p.WellConditioned) :
    ((mergeClose p.rootsByDegree).mergeSort fun a b => decide (a ≤ b)).Pairwise (· < ·) := by
  have hnodup : ((mergeClose p.rootsByDegree).mergeSort fun a b => decide (a ≤ b)).Nodup :=
    (List.mergeSort_perm _ _).nodup_iff.mpr (h.rootsOf.nodup.sublist (mergeClose_sublist _))
  have hsorted : ((mergeClose p.rootsByDegree).mergeSort fun a b => decide (a ≤ b)).Pairwise
      fun a b => decide (a ≤ b) = true :=
    List.pairwise_mergeSort (by simpa using fun _ _ _ => le_trans) (by simpa using le_total) _
  refine (hsorted.and hnodup).imp fun {a b} hab => ?_
  exact lt_of_le_of_ne (of_decide_eq_true hab.1) hab.2

/-- The answer ascends, names roots only and comes close to every root. On the way no
operation is undefined: the pivot the second root of a quadratic polynomial is divided by is
not zero, and where there are three roots the linear coefficient is negative and the arc
cosine is taken of a number between -1 and 1. -/
theorem roots_correct (h : p.WellConditioned) : ∃ us, p.roots = .ok us ∧ us.Pairwise (· < ·) ∧
    (∀ u ∈ us, p.eval u = 0) ∧
    (∀ r, p.eval r = 0 → ∃ u ∈ us, Scalar.approxEq r u = true) ∧
    p.checked.flush.rootsByDegree = p.flush.rootsByDegree.map number ∧
    p.checked.roots = .ok (us.map number) ∧
    (0 < quadraticDisc p.c2 p.c1 p.c0 → quadraticPivot p.c2 p.c1 p.c0 ≠ 0) ∧
    (let linear := depressedLinear p.c3 p.c2 p.c1
      let const := depressedConst p.c3 p.c2 p.c1 p.c0
      depressedDisc linear const < 0 → linear < 0 ∧ |trigRatio linear const| ≤ 1) := by
  refine ⟨_, h.roots_eq, h.pairwise_sorted, fun u hu => ?_, fun r hr => ?_, ?_, ?_, pivot_ne_zero,
    fun hdisc => ⟨neg_of_depressedDisc_neg hdisc, (abs_trigRatio_lt_one hdisc).le⟩⟩
  · rw [← h.rootsOf.mem_iff]
    exact (mergeClose_sublist _).subset (List.mem_mergeSort.mp hu)
  · obtain ⟨u, hu, hclose⟩ := exists_mem_mergeClose ((h.rootsOf.mem_iff r).mpr hr)
    exact ⟨u, List.mem_mergeSort.mpr hu, hclose⟩
  · rw [flush_checked, rootsByDegree_checked]
  · rw [roots_checked, h.roots_eq]
    rfl

end WellConditioned

end Cubic

end

/-- The polynomial `(t - 1) (t - 2) (t - 3)` has three roots far from each other, and the
answer names all of them. -/
theorem Cubic.WellConditioned.roots_correct_three :
    let _ : ExactTables := ⟨[(0, 1)], fun _ => ⟨false, 0, 0⟩⟩
    let p : Cubic ℝ := ⟨-6, 11, -6, 1⟩
    p.WellConditioned ∧ ∃ us, p.roots = .ok us ∧ us.Pairwise (· < ·) ∧ 1 ∈ us ∧ 2 ∈ us ∧ 3 ∈ us ∧
      p.checked.roots = .ok (us.map Checked.number) := by
  intro _ p
  have hlinear : Cubic.depressedLinear p.c3 p.c2 p.c1 = -1 := by norm_num [Cubic.depressedLinear, p]
  have hconst : Cubic.depressedConst p.c3 p.c2 p.c1 p.c0 = 0 := by norm_num [Cubic.depressedConst, p]
  have hdecided : Cubic.Decided (Cubic.depressedDisc (-1) 0) (Cubic.depressedScale (-1) 0) :=
    .inr (by norm_num [Cubic.depressedDisc, Cubic.depressedScale, Cubic.discriminantEpsilon])
  have h : p.WellConditioned := {
    ne_zero := ⟨1, by simp [Cubic.coefficients, p], one_ne_zero⟩
    significant := by
      rw [Cubic.magnitude_eq]
      norm_num [Cubic.coefficients, Cubic.coefficientEpsilon, p]
    quadratic := fun h3 => absurd h3 one_ne_zero
    cubic := fun _ => by rwa [hlinear, hconst] }
  have hfactor (t : ℝ) : p.eval t = (t - 1) * (t - 2) * (t - 3) := by
    rw [Cubic.eval_eq]
    ring
  obtain ⟨us, hus, hsorted, hsound, hcomplete, -, hchecked, -⟩ := h.roots_correct
  have hvalues (u : ℝ) (hu : u ∈ us) : u = 1 ∨ u = 2 ∨ u = 3 := by
    have hroot := hsound u hu
    rw [hfactor] at hroot
    simpa [sub_eq_zero, or_assoc] using hroot
  have hmem (r : ℝ) (hr : p.eval r = 0)
      (hfar : ∀ u, u = 1 ∨ u = 2 ∨ u = 3 → u = r ∨ 1e-8 + 1e-5 * |u| < |r - u|) : r ∈ us := by
    obtain ⟨u, hu, hclose⟩ := hcomplete r hr
    rcases hfar u (hvalues u hu) with rfl | hlt
    · exact hu
    · exact absurd (Scalar.approxEq_iff.mp hclose) (not_le.mpr hlt)
  refine ⟨h, us, hus, hsorted, hmem 1 ?_ ?_, hmem 2 ?_ ?_, hmem 3 ?_ ?_, hchecked⟩
  · norm_num [hfactor]
  · rintro u (rfl | rfl | rfl) <;> norm_num
  · norm_num [hfactor]
  · rintro u (rfl | rfl | rfl) <;> norm_num
  · norm_num [hfactor]
  · rintro u (rfl | rfl | rfl) <;> norm_num

end Drafting
