import Mathlib.Topology.Algebra.Polynomial
import Drafting.Proofs.Path.Legendre

/-!
# What bisection leaves of an interval

The adaptive rule halves an interval until the rule over it agrees with the sum over its halves,
or the levels are used up. The parts that it stops at follow one another without gap or overlap,
and what it answers is the sum of what it finds at each of them.

The tolerance is halved along with the interval, so the shares of the parts add up to the whole of
it, and the error estimate exceeds the tolerance only if some part was given up at the last level.
A rule that is exact for a polynomial agrees with itself at once, so the answer is the integral and
the estimate is zero.
-/

namespace Drafting
namespace Quadrature

/-- A part of an interval that has been halved a number of times. -/
structure Part where
  low : ℝ
  high : ℝ
  depth : ℕ

/-- The parts follow one another from `a` to `b`, each from where the one before it ends. -/
inductive Tiles : ℝ → ℝ → List Part → Prop
  | nil (a : ℝ) : Tiles a a []
  | cons {b : ℝ} {s : Part} {rest : List Part} :
      s.low ≤ s.high → Tiles s.high b rest → Tiles s.low b (s :: rest)

namespace Tiles

variable {a m b t : ℝ} {l r : List Part}

theorem singleton {s : Part} (h : s.low ≤ s.high) : Tiles s.low s.high [s] := .cons h (.nil _)

theorem append (hl : Tiles a m l) (hr : Tiles m b r) : Tiles a b (l ++ r) := by
  induction hl with
  | nil => exact hr
  | cons h _ ih => exact .cons h (ih hr)

theorem start_le (h : Tiles a b l) : ∀ s ∈ l, a ≤ s.low := by
  induction h with
  | nil => exact List.forall_mem_nil _
  | cons h _ ih => exact List.forall_mem_cons.mpr ⟨le_rfl, fun s hs => h.trans (ih s hs)⟩

/-- Each place belongs to exactly one of the parts. -/
theorem countP_eq_one (h : Tiles a b l) (ht : t ∈ Set.Ico a b) :
    l.countP (fun s => s.low ≤ t ∧ t < s.high) = 1 := by
  induction h with
  | nil => exact absurd ht.2 (not_lt.mpr ht.1)
  | @cons b s rest h hrest ih =>
    by_cases hs : t < s.high
    · have hnone : rest.countP (fun s => s.low ≤ t ∧ t < s.high) = 0 := by
        refine List.countP_eq_zero.mpr fun r hr => ?_
        have hlow := hs.trans_le (hrest.start_le r hr)
        simp [hlow.not_ge]
      rw [List.countP_cons_of_pos (by simpa using ⟨ht.1, hs⟩), hnone]
    · rw [List.countP_cons_of_neg (by simp [hs]), ih ⟨not_lt.mp hs, ht.2⟩]

end Tiles

section

variable [ExactTables] {f g : ℝ → ℝ} {a b : ℝ} {n levels : ℕ} {s : Part} {T : ℝ}

namespace Part

noncomputable def middle (s : Part) : ℝ := (s.low + s.high) / 2

noncomputable def left (s : Part) : Part := ⟨s.low, s.middle, s.depth + 1⟩

noncomputable def right (s : Part) : Part := ⟨s.middle, s.high, s.depth + 1⟩

noncomputable def halves (s : Part) : List Part := [s.left, s.right]

/-- The share of the part in something that is halved along with the interval. -/
noncomputable def share (T : ℝ) (s : Part) : ℝ := T / 2 ^ s.depth

theorem low_le_middle {s : Part} (h : s.low ≤ s.high) : s.low ≤ s.middle := by
  unfold middle
  linarith

theorem middle_le_high {s : Part} (h : s.low ≤ s.high) : s.middle ≤ s.high := by
  unfold middle
  linarith

theorem width_left (s : Part) : s.left.high - s.left.low = (s.high - s.low) / 2 := by
  simp only [left, middle]
  ring

theorem width_right (s : Part) : s.right.high - s.right.low = (s.high - s.low) / 2 := by
  simp only [right, middle]
  ring

theorem share_left (T : ℝ) (s : Part) : s.left.share T = s.share T / 2 := by
  rw [share, share, left, pow_succ, div_div]

theorem share_right (T : ℝ) (s : Part) : s.right.share T = s.share T / 2 := by
  rw [share, share, right, pow_succ, div_div]

noncomputable def rule (f : ℝ → ℝ) (s : Part) : ℝ := gaussLegendre f s.low s.high

noncomputable def error (f : ℝ → ℝ) (s : Part) : ℝ :=
  |s.left.rule f + s.right.rule f - s.rule f|

end Part

theorem Tiles.halves {l : List Part} (h : Tiles a b l) : Tiles a b (l.flatMap Part.halves) := by
  induction h with
  | nil => exact .nil _
  | @cons b s rest h _ ih =>
    exact .cons (s := s.left) (Part.low_le_middle h)
      (.cons (s := s.right) (Part.middle_le_high h) ih)

open Classical in
/-- The parts that bisection of a part stops at. -/
noncomputable def leaves (f : ℝ → ℝ) (T : ℝ) : (levels : ℕ) → Part → List Part
  | 0, s => [s]
  | levels + 1, s =>
    if s.error f ≤ s.share T then [s]
    else leaves f T levels s.left ++ leaves f T levels s.right

theorem bisect_zero (f : ℝ → ℝ) (s : Part) (T : ℝ) :
    bisect f 0 s.low s.high (s.rule f) T =
      ⟨s.left.rule f + s.right.rule f, s.error f⟩ := by
  rw [Part.error, ← Scalar.abs_eq_abs]
  rfl

theorem bisect_succ (f : ℝ → ℝ) (levels : ℕ) (s : Part) (T : ℝ) :
    bisect f (levels + 1) s.low s.high (s.rule f) T =
      if s.error f ≤ T then ⟨s.left.rule f + s.right.rule f, s.error f⟩
      else
        let l := bisect f levels s.left.low s.left.high (s.left.rule f) (T / 2)
        let r := bisect f levels s.right.low s.right.high (s.right.rule f) (T / 2)
        ⟨l.value + r.value, l.error + r.error⟩ := by
  rw [Part.error, ← Scalar.abs_eq_abs, bisect]
  rfl

/-- Values and errors are added up over the parts that bisection stops at. -/
theorem bisect_eq_leaves (f : ℝ → ℝ) (T : ℝ) (levels : ℕ) (s : Part) :
    bisect f levels s.low s.high (s.rule f) (s.share T) =
      ⟨(((leaves f T levels s).flatMap Part.halves).map (Part.rule f)).sum,
        ((leaves f T levels s).map (Part.error f)).sum⟩ := by
  induction levels generalizing s with
  | zero => simp [bisect_zero, leaves, Part.halves]
  | succ levels ih =>
    have hleft := ih s.left
    have hright := ih s.right
    rw [Part.share_left] at hleft
    rw [Part.share_right] at hright
    rw [bisect_succ, leaves]
    split_ifs
    · simp [Part.halves]
    · simp [hleft, hright]

theorem tiles_leaves (f : ℝ → ℝ) (T : ℝ) (levels : ℕ) (h : s.low ≤ s.high) :
    Tiles s.low s.high (leaves f T levels s) := by
  induction levels generalizing s with
  | zero => exact .singleton h
  | succ levels ih =>
    rw [leaves]
    split_ifs
    · exact .singleton h
    · exact (ih (s := s.left) (Part.low_le_middle h)).append
        (ih (s := s.right) (Part.middle_le_high h))

/-- A part is halved when its error exceeds its share of the tolerance. What it passes on to both
halves then holds of all parts that are reached. -/
theorem forall_mem_leaves {P : Part → Prop}
    (hstep : ∀ r : Part, r.share T < r.error f → P r → P r.left ∧ P r.right) (hs : P s) :
    ∀ r ∈ leaves f T levels s, P r := by
  induction levels generalizing s with
  | zero => exact List.forall_mem_singleton.mpr hs
  | succ levels ih =>
    rw [leaves]
    split_ifs with h
    · exact List.forall_mem_singleton.mpr hs
    · obtain ⟨hleft, hright⟩ := hstep s (not_le.mp h) hs
      exact List.forall_mem_append.mpr ⟨ih hleft, ih hright⟩

theorem width_of_mem_leaves {W : ℝ} (hs : s.high - s.low = s.share W) :
    ∀ r ∈ leaves f T levels s, r.high - r.low = r.share W := by
  refine forall_mem_leaves (P := fun r => r.high - r.low = r.share W) (fun r _ hr => ?_) hs
  rw [Part.width_left, Part.width_right, Part.share_left, Part.share_right, hr]
  exact ⟨rfl, rfl⟩

/-- Nothing is halved without need. -/
theorem halved_of_mem_leaves (hs : s.depth = 0) : ∀ r ∈ leaves f T levels s,
    r.depth = 0 ∨ ∃ p : Part, r ∈ p.halves ∧ p.share T < p.error f := by
  refine forall_mem_leaves (P := fun r => r.depth = 0 ∨
    ∃ p : Part, r ∈ p.halves ∧ p.share T < p.error f) (fun r hr _ => ?_) (.inl hs)
  exact ⟨.inr ⟨r, List.mem_cons_self, hr⟩,
    .inr ⟨r, List.mem_cons_of_mem _ List.mem_cons_self, hr⟩⟩

/-- Bisection stops at a part within its share, or at the last level. -/
theorem leaves_settled : ∀ r ∈ leaves f T levels s, r.depth ≤ s.depth + levels ∧
    (r.error f ≤ r.share T ∨ r.depth = s.depth + levels) := by
  induction levels generalizing s with
  | zero => exact List.forall_mem_singleton.mpr ⟨le_rfl, .inr rfl⟩
  | succ levels ih =>
    rw [leaves]
    split_ifs with h
    · exact List.forall_mem_singleton.mpr ⟨Nat.le_add_right _ _, .inl h⟩
    · have hdepth : s.depth + (levels + 1) = s.depth + 1 + levels := by omega
      rw [hdepth]
      exact List.forall_mem_append.mpr ⟨ih (s := s.left), ih (s := s.right)⟩

/-- The shares of the parts add up to the share of the whole. -/
theorem sum_error_le (h : ∀ r ∈ leaves f T levels s, r.error f ≤ r.share T) :
    ((leaves f T levels s).map (Part.error f)).sum ≤ s.share T := by
  induction levels generalizing s with
  | zero =>
    rw [leaves] at h ⊢
    simpa using h
  | succ levels ih =>
    rw [leaves] at h ⊢
    split_ifs at h ⊢ with hstop
    · simpa using hstop
    · obtain ⟨hleft, hright⟩ := List.forall_mem_append.mp h
      have hl := ih hleft
      have hr := ih hright
      rw [Part.share_left] at hl
      rw [Part.share_right] at hr
      rw [List.map_append, List.sum_append]
      linarith

theorem Averaging.gaussLegendre_congr (h : Averaging) (hab : a ≤ b)
    (hfg : Set.EqOn f g (Set.Icc a b)) : gaussLegendre f a b = gaussLegendre g a b := by
  rw [gaussLegendre_eq, gaussLegendre_eq]
  congr 2
  refine List.map_congr_left fun e he => ?_
  have hhalf : 0 ≤ (b - a) / 2 := by linarith
  have hnode : |(b - a) / 2 * e.1| ≤ (b - a) / 2 := by
    rw [abs_mul, abs_of_nonneg hhalf]
    exact mul_le_of_le_one_right hhalf (h.abs_node_le e he)
  obtain ⟨hlow, hhigh⟩ := abs_le.mp hnode
  rw [hfg ⟨by linarith, by linarith⟩, hfg ⟨by linarith, by linarith⟩]

theorem Averaging.bisect_congr (h : Averaging) (hab : a ≤ b) (hfg : Set.EqOn f g (Set.Icc a b))
    (levels : ℕ) (whole T : ℝ) :
    bisect f levels a b whole T = bisect g levels a b whole T := by
  have hsplit {a b : ℝ} (hab : a ≤ b) (hfg : Set.EqOn f g (Set.Icc a b)) :
      (a ≤ (a + b) / 2 ∧ Set.EqOn f g (Set.Icc a ((a + b) / 2))) ∧
        (a + b) / 2 ≤ b ∧ Set.EqOn f g (Set.Icc ((a + b) / 2) b) := by
    have hlow : a ≤ (a + b) / 2 := by linarith
    have hhigh : (a + b) / 2 ≤ b := by linarith
    exact ⟨⟨hlow, hfg.mono (Set.Icc_subset_Icc_right hhigh)⟩,
      hhigh, hfg.mono (Set.Icc_subset_Icc_left hlow)⟩
  induction levels generalizing a b whole T with
  | zero =>
    obtain ⟨⟨hlow, hleft⟩, hhigh, hright⟩ := hsplit hab hfg
    rw [bisect, bisect, h.gaussLegendre_congr hlow hleft, h.gaussLegendre_congr hhigh hright]
  | succ levels ih =>
    obtain ⟨⟨hlow, hleft⟩, hhigh, hright⟩ := hsplit hab hfg
    rw [bisect, bisect, h.gaussLegendre_congr hlow hleft, h.gaussLegendre_congr hhigh hright]
    dsimp only
    rw [ih hlow hleft, ih hhigh hright]

/-- The nodes lie in the interval, so the integrand is asked nowhere else. -/
theorem Averaging.adaptive_congr (h : Averaging) (hab : a ≤ b) (hfg : Set.EqOn f g (Set.Icc a b)) :
    adaptive f a b = adaptive g a b := by
  rw [adaptive, adaptive, h.gaussLegendre_congr hab hfg, h.bisect_congr hab hfg]

theorem Averaging.adaptive_nonneg (h : Averaging) (hab : a ≤ b) (hf : ∀ t ∈ Set.Icc a b, 0 ≤ f t) :
    0 ≤ (adaptive f a b).value := by
  have habs : Set.EqOn f (fun t => |f t|) (Set.Icc a b) := fun t ht => (abs_of_nonneg (hf t ht)).symm
  rw [h.adaptive_congr hab habs]
  exact h.toNonneg.adaptive_nonneg (fun t => abs_nonneg (f t)) hab

open Polynomial in
theorem ExactTo.adaptive_eval (h : ExactTo n) {p : ℝ[X]} (hp : p.natDegree ≤ n) (a b : ℝ) :
    adaptive (fun t => p.eval t) a b = ⟨∫ t in a..b, p.eval t, 0⟩ := by
  let s : Part := ⟨a, b, 0⟩
  have hrule (r : Part) : r.rule (fun t => p.eval t) = ∫ t in r.low..r.high, p.eval t :=
    h.gaussLegendre_eval hp r.low r.high
  have hhalves : s.left.rule (fun t => p.eval t) + s.right.rule (fun t => p.eval t) =
      ∫ t in a..b, p.eval t := by
    rw [hrule, hrule]
    exact intervalIntegral.integral_add_adjacent_intervals
      (p.continuous.intervalIntegrable _ _) (p.continuous.intervalIntegrable _ _)
  have herror : s.error (fun t => p.eval t) = 0 := by
    rw [Part.error, hhalves, hrule, sub_self, abs_zero]
  change bisect _ (11 + 1) s.low s.high (s.rule fun t => p.eval t) _ = _
  have htolerance : (0 : ℝ) ≤ tolerance := by norm_num [tolerance]
  rw [bisect_succ, if_pos (herror.trans_le htolerance), hhalves, herror]

theorem exists_parts (f : ℝ → ℝ) (hab : a ≤ b) : ∃ parts : List Part,
    Tiles a b parts ∧
    (adaptive f a b).value = ((parts.flatMap Part.halves).map (Part.rule f)).sum ∧
    (adaptive f a b).error = (parts.map (Part.error f)).sum ∧
    (∀ s ∈ parts, s.depth ≤ maxDepth ∧ s.high - s.low = s.share (b - a) ∧
      (s.error f ≤ s.share tolerance ∨ s.depth = maxDepth) ∧
      (s.depth = 0 ∨ ∃ r : Part, s ∈ r.halves ∧ r.share tolerance < r.error f)) ∧
    ((∀ s ∈ parts, s.error f ≤ s.share tolerance) → (adaptive f a b).error ≤ tolerance) := by
  let whole : Part := ⟨a, b, 0⟩
  have hshare : whole.share tolerance = tolerance := by simp [Part.share, whole]
  have hadaptive := bisect_eq_leaves f tolerance maxDepth whole
  rw [hshare] at hadaptive
  change adaptive f a b = _ at hadaptive
  have htiles : Tiles a b (leaves f tolerance maxDepth whole) :=
    tiles_leaves f tolerance maxDepth (s := whole) hab
  refine ⟨leaves f tolerance maxDepth whole, htiles, ?_, ?_, fun s hs => ?_, fun h => ?_⟩
  · rw [hadaptive]
  · rw [hadaptive]
  · obtain ⟨hdepth, hsettled⟩ := leaves_settled s hs
    rw [Nat.zero_add] at hdepth hsettled
    have hwidth : whole.high - whole.low = whole.share (b - a) := by simp [Part.share, whole]
    exact ⟨hdepth, width_of_mem_leaves hwidth s hs, hsettled, halved_of_mem_leaves rfl s hs⟩
  · rw [hadaptive]
    exact (sum_error_le h).trans_eq hshare

open Polynomial in
/-- The adaptive rule adds up the fixed rule over parts that tile the interval. A part is halved
just while its error exceeds its share, so the estimate keeps to the tolerance unless a part is
given up at the last level. Nothing negative comes from an integrand that is not negative, the
mirror image of an integrand gives the same, and the exact rule integrates polynomials up to degree
fifteen without error. -/
theorem adaptive_over_tiles (f : ℝ → ℝ) (hab : a ≤ b) :
    (∃ parts : List Part,
      Tiles a b parts ∧ Tiles a b (parts.flatMap Part.halves) ∧
      (∀ t ∈ Set.Ico a b,
        (parts.flatMap Part.halves).countP (fun s => s.low ≤ t ∧ t < s.high) = 1) ∧
      (adaptive f a b).value =
        ((parts.flatMap Part.halves).map fun s => gaussLegendre f s.low s.high).sum ∧
      (adaptive f a b).error = (parts.map (Part.error f)).sum ∧
      (∀ s ∈ parts, s.depth ≤ maxDepth ∧ s.high - s.low = (b - a) / 2 ^ s.depth ∧
        (s.error f ≤ tolerance / 2 ^ s.depth ∨ s.depth = maxDepth) ∧
        (s.depth = 0 ∨ ∃ r : Part, s ∈ r.halves ∧ tolerance / 2 ^ r.depth < r.error f)) ∧
      ((adaptive f a b).error ≤ tolerance ∨
        ∃ s ∈ parts, s.depth = maxDepth ∧ tolerance / 2 ^ maxDepth < s.error f)) ∧
    (ExactTables.legendre = Scalar.legendreDigits ∨ IsGaussLegendre ExactTables.legendre →
      (∀ t ∈ Set.Icc a b, 0 ≤ f t) → 0 ≤ (adaptive f a b).value) ∧
    adaptive (fun t => f (a + b - t)) a b = adaptive f a b ∧
    (IsGaussLegendre ExactTables.legendre → ∀ p : ℝ[X], p.natDegree ≤ 15 →
      (∀ t ∈ Set.Icc a b, f t = p.eval t) → adaptive f a b = ⟨∫ t in a..b, f t, 0⟩) := by
  refine ⟨?_, ?_, ?_, ?_⟩
  · obtain ⟨parts, htiles, hvalue, herror, hparts, hwithin⟩ := exists_parts f hab
    refine ⟨parts, htiles, htiles.halves, fun t ht => htiles.halves.countP_eq_one ht, hvalue,
      herror, hparts, ?_⟩
    by_cases h : ∀ s ∈ parts, s.error f ≤ s.share tolerance
    · exact .inl (hwithin h)
    · push Not at h
      obtain ⟨s, hs, hexceeds⟩ := h
      have hlast := (hparts s hs).2.2.1.resolve_left (not_le.mpr hexceeds)
      rw [Part.share, hlast] at hexceeds
      exact .inr ⟨s, hs, hlast, hexceeds⟩
  · intro htable hf
    have hrule : Averaging := htable.elim averaging_of_legendre IsGaussLegendre.averaging
    exact hrule.adaptive_nonneg hab hf
  · rw [adaptive_reflect, add_sub_cancel_right, add_sub_cancel_left]
  · intro htable p hp hfp
    rw [htable.averaging.adaptive_congr hab hfp, htable.exactTo.adaptive_eval hp]
    congr 1
    refine intervalIntegral.integral_congr fun t ht => ?_
    rw [Set.uIcc_of_le hab] at ht
    exact (hfp t ht).symm

end

/-- The parabola over the interval from 0 to 1, by the exact rule and by its mirror image. -/
theorem adaptive_over_tiles_parabola : ∃ tables : ExactTables,
    (0 : ℝ) ≤ 1 ∧ IsGaussLegendre tables.legendre ∧ (∀ t ∈ Set.Icc (0 : ℝ) 1, 0 ≤ t ^ 2) ∧
      adaptive (fun t : ℝ => t ^ 2) 0 1 = ⟨1 / 3, 0⟩ ∧
      0 ≤ (adaptive (fun t : ℝ => t ^ 2) 0 1).value ∧
      adaptive (fun t : ℝ => (0 + 1 - t) ^ 2) 0 1 = ⟨1 / 3, 0⟩ := by
  obtain ⟨table, htable, -⟩ := exists_gaussLegendre
  let tables : ExactTables := ⟨table, fun _ => ⟨false, 0, 0⟩⟩
  obtain ⟨-, hnonneg, hmirror, hexact⟩ :=
    adaptive_over_tiles (fun t => t ^ 2) (zero_le_one : (0 : ℝ) ≤ 1)
  have hsq : ∀ t ∈ Set.Icc (0 : ℝ) 1, 0 ≤ t ^ 2 := fun t _ => sq_nonneg t
  have hthird : ∫ t in (0 : ℝ)..1, t ^ 2 = 1 / 3 := by
    rw [integral_pow]
    norm_num
  have hvalue := hexact htable (Polynomial.X ^ 2) (by simp) fun t _ => by simp
  rw [hthird] at hvalue
  exact ⟨tables, zero_le_one, htable, hsq, hvalue, hnonneg (.inr htable) hsq, hmirror.trans hvalue⟩

end Quadrature
end Drafting
