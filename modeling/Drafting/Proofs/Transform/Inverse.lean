import Drafting.Proofs.Transform.Affine

/-!
# Inverses of transforms

Every transform that can be made has an inverse. The inverse undoes the map of points
when the matrix is affine, and a transform made by operations alone is. A matrix from
outside need not be: it is checked for being singular only, and its last row, which
the map of points leaves out, takes part in the inverse. Such a transform is undone by
its inverse exactly when it keeps the origin in place.
-/

namespace Drafting

section
variable [ExactTables]

namespace Matrix.AreInverse

variable {m n : Matrix ℝ}

theorem entries (h : AreInverse m n) :
    (m.first.x * n.first.x + m.second.x * n.first.y + m.third.x * n.first.z = 1 ∧
      m.first.y * n.first.x + m.second.y * n.first.y + m.third.y * n.first.z = 0 ∧
      m.first.z * n.first.x + m.second.z * n.first.y + m.third.z * n.first.z = 0) ∧
    (m.first.x * n.second.x + m.second.x * n.second.y + m.third.x * n.second.z = 0 ∧
      m.first.y * n.second.x + m.second.y * n.second.y + m.third.y * n.second.z = 1 ∧
      m.first.z * n.second.x + m.second.z * n.second.y + m.third.z * n.second.z = 0) ∧
    (m.first.x * n.third.x + m.second.x * n.third.y + m.third.x * n.third.z = 0 ∧
      m.first.y * n.third.x + m.second.y * n.third.y + m.third.y * n.third.z = 0 ∧
      m.first.z * n.third.x + m.second.z * n.third.y + m.third.z * n.third.z = 1) := by
  have hm := h.mul
  simpa only [mul_def, mulColumn_eq, identity, Matrix.mk.injEq, Column.mk.injEq] using hm

end Matrix.AreInverse

namespace Transform

variable {m n : Matrix ℝ}

theorem origin_of_areInverse (h : Matrix.AreInverse m n)
    (h0 : (⟨m⟩ : Transform ℝ).origin = Point.origin) :
    (⟨n⟩ : Transform ℝ).origin = Point.origin := by
  rw [origin_eq, Point.origin, Point.mk.injEq] at h0 ⊢
  dsimp only at h0
  obtain ⟨hx, hy⟩ := h0
  obtain ⟨-, -, e1, e2, e3⟩ := h.symm.entries
  simp only [hx, hy, mul_zero, zero_add] at e1 e2 e3
  have hz : m.third.z ≠ 0 := right_ne_zero_of_mul_eq_one e3
  exact ⟨(mul_eq_zero.mp e1).resolve_right hz, (mul_eq_zero.mp e2).resolve_right hz⟩

/-- A transform that keeps the origin in place is linear, and so is its inverse. -/
theorem apply_of_origin (h : Matrix.AreInverse m n)
    (h0 : (⟨m⟩ : Transform ℝ).origin = Point.origin) (p : Point ℝ) :
    (⟨n⟩ : Transform ℝ).apply ((⟨m⟩ : Transform ℝ).apply p) = p := by
  have h0' := origin_of_areInverse h h0
  rw [origin_eq, Point.origin, Point.mk.injEq] at h0 h0'
  dsimp only at h0 h0'
  obtain ⟨⟨a1, a2, -⟩, ⟨b1, b2, -⟩, -⟩ := h.symm.entries
  simp only [apply_eq, h0.1, h0.2, h0'.1, h0'.2, zero_mul, add_zero] at a1 a2 b1 b2 ⊢
  ext
  · linear_combination p.x * a1 + p.y * b1
  · linear_combination p.x * a2 + p.y * b2

/-- What the last row must be for the inverse to undo the map of points, read off at the
origin and the two unit points. -/
theorem apply_eq_self_iff (h : Matrix.AreInverse m n) :
    (∀ p, (⟨n⟩ : Transform ℝ).apply ((⟨m⟩ : Transform ℝ).apply p) = p) ↔
      m.IsAffine ∨ (⟨m⟩ : Transform ℝ).origin = Point.origin := by
  constructor
  · intro hp
    obtain ⟨⟨a1, a2, -⟩, ⟨b1, b2, -⟩, c1, c2, -⟩ := h.symm.entries
    have h0 := hp ⟨0, 0⟩
    have h1 := hp ⟨1, 0⟩
    have h2 := hp ⟨0, 1⟩
    simp only [apply_eq, Point.mk.injEq, mul_zero, mul_one, zero_add, add_zero] at h0 h1 h2
    by_cases hn : n.third.x = 0 ∧ n.third.y = 0
    · right
      refine origin_of_areInverse h.symm ?_
      rw [origin_eq, hn.1, hn.2]
      rfl
    · left
      -- the shift of the inverse meets the last row in each of the three columns
      have first : n.third.x * m.first.z = 0 ∧ n.third.y * m.first.z = 0 :=
        ⟨by linarith [h0.1, h1.1], by linarith [h0.2, h1.2]⟩
      have second : n.third.x * m.second.z = 0 ∧ n.third.y * m.second.z = 0 :=
        ⟨by linarith [h0.1, h2.1], by linarith [h0.2, h2.2]⟩
      have third : n.third.x * (m.third.z - 1) = 0 ∧ n.third.y * (m.third.z - 1) = 0 :=
        ⟨by linarith [h0.1], by linarith [h0.2]⟩
      have cancel {a : ℝ} (ha : n.third.x * a = 0 ∧ n.third.y * a = 0) : a = 0 := by
        by_contra hne
        exact hn ⟨(mul_eq_zero.mp ha.1).resolve_right hne, (mul_eq_zero.mp ha.2).resolve_right hne⟩
      exact ⟨cancel first, cancel second, sub_eq_zero.mp (cancel third)⟩
  · rintro (hm | h0) p
    · exact apply_of_areInverse h hm p
    · exact apply_of_origin h h0 p

theorem applyOffset_of_apply {t s : Transform ℝ} (h : ∀ p, s.apply (t.apply p) = p)
    (v : Offset ℝ) : s.applyOffset (t.applyOffset v) = v := by
  have hv := h ((Point.origin : Point ℝ) + v)
  have h0 := h Point.origin
  rw [apply_add, apply_add, h0] at hv
  simpa [Point.ext_iff, Offset.ext_iff] using hv

/-- The transforms that can be made: from the identity and from matrices that have a
property and are accepted, by operations and by inversion. -/
inductive Made (P : Matrix ℝ → Prop) : Transform ℝ → Prop
  | identity : Made P identity
  | ofMatrix {m : Matrix ℝ} {t : Transform ℝ} : P m → ofMatrix m = .ok t → Made P t
  | run {t t' : Transform ℝ} (op : TransformOp ℝ) : Made P t → op.run t = .ok t' → Made P t'
  | invert {t t' : Transform ℝ} : Made P t → t.invert = .ok t' → Made P t'

variable {P : Matrix ℝ → Prop} {t : Transform ℝ}

theorem Made.det_ne_zero (h : Made P t) : t.matrix.det ≠ 0 := by
  induction h with
  | identity => simp [Transform.identity]
  | ofMatrix _ h =>
    obtain ⟨hm, rfl⟩ := ofMatrix_eq_ok_iff.mp h
    exact hm
  | run op _ h ih =>
    obtain ⟨hr, rfl⟩ := TransformOp.eq_of_run ih h
    rw [Matrix.det_mul]
    exact mul_ne_zero ih (TransformOp.det_localMatrix_ne_zero _ hr)
  | invert _ h _ =>
    obtain ⟨hm, rfl⟩ := ofMatrix_eq_ok_iff.mp h
    exact hm

theorem Made.isAffine (hP : ∀ m, P m → m.IsAffine) (h : Made P t) : t.matrix.IsAffine := by
  induction h with
  | identity => exact Matrix.isAffine_identity
  | ofMatrix hm h =>
    obtain ⟨-, rfl⟩ := ofMatrix_eq_ok_iff.mp h
    exact hP _ hm
  | run op ht h ih =>
    obtain ⟨-, rfl⟩ := TransformOp.eq_of_run ht.det_ne_zero h
    exact ih.mul (op.isAffine_localMatrix _)
  | invert ht h ih =>
    obtain ⟨-, rfl⟩ := ofMatrix_eq_ok_iff.mp h
    exact (Matrix.areInverse_inverse ht.det_ne_zero).isAffine ih

/-- Every transform that can be made has an inverse. The two undo each other on points
exactly when the transform is affine or keeps the origin in place, and then they do on
offsets too. A transform made from affine matrices only is affine. -/
theorem invert_undoes_iff (h : Made P t) :
    ∃ inv, t.invert = .ok inv ∧
      ((∀ p, inv.apply (t.apply p) = p) ↔ t.matrix.IsAffine ∨ t.origin = Point.origin) ∧
      ((∀ p, t.apply (inv.apply p) = p) ↔ t.matrix.IsAffine ∨ t.origin = Point.origin) ∧
      (t.matrix.IsAffine ∨ t.origin = Point.origin →
        ∀ v, inv.applyOffset (t.applyOffset v) = v) ∧
      ((∀ m, P m → m.IsAffine) → t.matrix.IsAffine) := by
  have hm := Matrix.areInverse_inverse h.det_ne_zero
  have back : (⟨t.matrix.inverse⟩ : Transform ℝ).matrix.IsAffine ∨
      (⟨t.matrix.inverse⟩ : Transform ℝ).origin = Point.origin ↔
        t.matrix.IsAffine ∨ t.origin = Point.origin :=
    or_congr ⟨hm.symm.isAffine, hm.isAffine⟩
      ⟨origin_of_areInverse hm.symm, origin_of_areInverse hm⟩
  refine ⟨⟨t.matrix.inverse⟩, invert_eq h.det_ne_zero, apply_eq_self_iff hm,
    (apply_eq_self_iff hm.symm).trans back, fun hc v => ?_, fun hP => h.isAffine hP⟩
  exact applyOffset_of_apply ((apply_eq_self_iff hm).mpr hc) v

end Transform

end

/-- The matrix with last row `(0, 0, 2)` that shifts by one is accepted, and its inverse
shifts back by one half only. -/
theorem Transform.invert_undoes_iff_projective :
    let _ : ExactTables := ⟨[(0, 1)], fun _ => ⟨false, 0, 0⟩⟩
    let m : Matrix ℝ := ⟨⟨1, 0, 0⟩, ⟨0, 1, 0⟩, ⟨1, 0, 2⟩⟩
    Made (fun _ => True) (⟨m⟩ : Transform ℝ) ∧ ∃ inv, (⟨m⟩ : Transform ℝ).invert = .ok inv ∧
      ¬∀ p, inv.apply ((⟨m⟩ : Transform ℝ).apply p) = p := by
  intro _ m
  have hdet : m.det ≠ 0 := by norm_num [m, Matrix.det_eq]
  have hmade : Made (fun _ => True) (⟨m⟩ : Transform ℝ) :=
    .ofMatrix trivial (ofMatrix_of_det_ne_zero hdet)
  obtain ⟨inv, hinv, hiff, -⟩ := invert_undoes_iff hmade
  refine ⟨hmade, inv, hinv, fun hp => ?_⟩
  rcases hiff.mp hp with hm | h0
  · have hthird : (2 : ℝ) = 1 := hm.third
    norm_num at hthird
  · rw [origin_eq, Point.origin, Point.mk.injEq] at h0
    norm_num [m] at h0

end Drafting
