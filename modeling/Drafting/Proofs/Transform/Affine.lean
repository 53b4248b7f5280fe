import Mathlib.Tactic.FieldSimp
import Mathlib.Tactic.LinearCombination
import Drafting.Proofs.Exact
import Drafting.Proofs.Outcome
import Drafting.Transform

/-!
# Affine transforms

Points are mapped by the upper two rows of a matrix, while determinant and inverse
are those of all three. The two agree on matrices whose last row is `(0, 0, 1)`, the
affine ones. They contain the identity and the matrices of all operations, and are
closed under product and inverse.

An operation on a transform that is not singular is refused exactly when its own
matrix does not exist or is singular; otherwise it multiplies by that matrix from the
right. Everything else about operations is read off these two facts.
-/

namespace Drafting

variable [ExactTables]

namespace Matrix

variable {m n : Matrix ℝ}

/-- The last row is `(0, 0, 1)`. -/
structure IsAffine (m : Matrix ℝ) : Prop where
  first : m.first.z = 0
  second : m.second.z = 0
  third : m.third.z = 1

theorem mul_def (m n : Matrix ℝ) :
    m * n = ⟨m.mulColumn n.first, m.mulColumn n.second, m.mulColumn n.third⟩ := rfl

theorem mulColumn_eq (m : Matrix ℝ) (v : Column ℝ) :
    m.mulColumn v = ⟨m.first.x * v.x + m.second.x * v.y + m.third.x * v.z,
      m.first.y * v.x + m.second.y * v.y + m.third.y * v.z,
      m.first.z * v.x + m.second.z * v.y + m.third.z * v.z⟩ := rfl

theorem det_eq (m : Matrix ℝ) :
    m.det = m.third.x * (m.first.y * m.second.z - m.second.y * m.first.z) +
      m.third.y * (m.first.z * m.second.x - m.second.z * m.first.x) +
      m.third.z * (m.first.x * m.second.y - m.second.x * m.first.y) := rfl

theorem det_mul (m n : Matrix ℝ) : (m * n).det = m.det * n.det := by
  simp only [mul_def, mulColumn_eq, det_eq]
  ring

@[simp] theorem det_identity : (identity : Matrix ℝ).det = 1 := by
  simp [det_eq, identity]

@[simp] theorem det_rotation (a : ℝ) : (rotation a).det = 1 := by
  simp only [det_eq, rotation, Scalar.cos, Scalar.sin]
  linear_combination Real.cos_sq_add_sin_sq a

@[simp] theorem det_shift (dx dy : ℝ) : (shift dx dy).det = 1 := by
  simp [det_eq, shift]

@[simp] theorem det_scaling (sx sy : ℝ) : (scaling sx sy).det = sx * sy := by
  simp [det_eq, scaling]

/-- The reflection in a line with unit normal turns the plane over. -/
theorem det_reflection {a b : ℝ} (c : ℝ) (h : a ^ 2 + b ^ 2 = 1) : (reflection a b c).det = -1 := by
  simp only [det_eq, reflection]
  linear_combination -2 * h

theorem isAffine_identity : (identity : Matrix ℝ).IsAffine := ⟨rfl, rfl, rfl⟩
theorem isAffine_rotation (a : ℝ) : (rotation a).IsAffine := ⟨rfl, rfl, rfl⟩
theorem isAffine_shift (dx dy : ℝ) : (shift dx dy).IsAffine := ⟨rfl, rfl, rfl⟩
theorem isAffine_scaling (sx sy : ℝ) : (scaling sx sy).IsAffine := ⟨rfl, rfl, rfl⟩
theorem isAffine_reflection (a b c : ℝ) : (reflection a b c).IsAffine := ⟨rfl, rfl, rfl⟩

theorem IsAffine.mul (hm : m.IsAffine) (hn : n.IsAffine) : (m * n).IsAffine := by
  constructor
  · simp only [mul_def, mulColumn_eq, hm.first, hm.second, hm.third, hn.first]
    ring
  · simp only [mul_def, mulColumn_eq, hm.first, hm.second, hm.third, hn.second]
    ring
  · simp only [mul_def, mulColumn_eq, hm.first, hm.second, hm.third, hn.third]
    ring

structure AreInverse (m n : Matrix ℝ) : Prop where
  mul : m * n = identity
  mul_swap : n * m = identity

theorem AreInverse.symm (h : AreInverse m n) : AreInverse n m := ⟨h.mul_swap, h.mul⟩

/-- The matrix that stretches all coordinates alike. -/
noncomputable def uniform (k : ℝ) : Matrix ℝ := ⟨⟨k, 0, 0⟩, ⟨0, k, 0⟩, ⟨0, 0, k⟩⟩

/-- Rows of a matrix against columns of its adjugate give the determinant or zero. -/
theorem mul_inverse (m : Matrix ℝ) : m * m.inverse = uniform (m.det * (1 / m.det)) := by
  simp only [mul_def, mulColumn_eq, inverse, transpose, Column.scale, Column.cross, uniform]
  generalize hr : 1 / m.det = r
  simp only [det_eq]
  ext <;> ring

theorem inverse_mul (m : Matrix ℝ) : m.inverse * m = uniform (m.det * (1 / m.det)) := by
  simp only [mul_def, mulColumn_eq, inverse, transpose, Column.scale, Column.cross, uniform]
  generalize hr : 1 / m.det = r
  simp only [det_eq]
  ext <;> ring

theorem areInverse_inverse (h : m.det ≠ 0) : AreInverse m m.inverse := by
  have hone : m.det * (1 / m.det) = 1 := mul_one_div_cancel h
  constructor
  · rw [mul_inverse, hone]
    rfl
  · rw [inverse_mul, hone]
    rfl

theorem AreInverse.det_ne_zero (h : AreInverse m n) : n.det ≠ 0 := by
  have hd : m.det * n.det = 1 := by rw [← det_mul, h.mul, det_identity]
  exact right_ne_zero_of_mul_eq_one hd

theorem AreInverse.isAffine (h : AreInverse m n) (hm : m.IsAffine) : n.IsAffine := by
  have hrow := h.mul
  simp only [mul_def, mulColumn_eq, hm.first, hm.second, hm.third, identity, Matrix.mk.injEq,
    Column.mk.injEq] at hrow
  obtain ⟨⟨-, -, h1⟩, ⟨-, -, h2⟩, -, -, h3⟩ := hrow
  exact ⟨by linarith, by linarith, by linarith⟩

end Matrix

namespace Transform

theorem apply_eq (t : Transform ℝ) (p : Point ℝ) :
    t.apply p = ⟨t.matrix.first.x * p.x + t.matrix.second.x * p.y + t.matrix.third.x,
      t.matrix.first.y * p.x + t.matrix.second.y * p.y + t.matrix.third.y⟩ := rfl

theorem applyOffset_eq (t : Transform ℝ) (v : Offset ℝ) :
    t.applyOffset v = ⟨t.matrix.first.x * v.dx + t.matrix.second.x * v.dy,
      t.matrix.first.y * v.dx + t.matrix.second.y * v.dy⟩ := rfl

theorem origin_eq (t : Transform ℝ) : t.origin = ⟨t.matrix.third.x, t.matrix.third.y⟩ := by
  simp [origin, apply_eq, Point.origin]

@[simp] theorem apply_identity (p : Point ℝ) : identity.apply p = p := by
  simp [apply_eq, identity, Matrix.identity]

@[simp] theorem applyOffset_identity (v : Offset ℝ) : identity.applyOffset v = v := by
  simp [applyOffset_eq, identity, Matrix.identity]

theorem apply_add (t : Transform ℝ) (p : Point ℝ) (v : Offset ℝ) :
    t.apply (p + v) = t.apply p + t.applyOffset v := by
  ext
  · simp only [apply_eq, applyOffset_eq, Point.add_x, Point.add_y]
    ring
  · simp only [apply_eq, applyOffset_eq, Point.add_x, Point.add_y]
    ring

/-- A product maps by its right factor first, if that one is affine. -/
theorem apply_mul (m : Matrix ℝ) {n : Matrix ℝ} (hn : n.IsAffine) (p : Point ℝ) :
    (⟨m * n⟩ : Transform ℝ).apply p = (⟨m⟩ : Transform ℝ).apply ((⟨n⟩ : Transform ℝ).apply p) := by
  simp only [apply_eq, Matrix.mul_def, Matrix.mulColumn_eq, hn.first, hn.second, hn.third]
  ext <;> ring

theorem applyOffset_mul (m : Matrix ℝ) {n : Matrix ℝ} (hn : n.IsAffine) (v : Offset ℝ) :
    (⟨m * n⟩ : Transform ℝ).applyOffset v =
      (⟨m⟩ : Transform ℝ).applyOffset ((⟨n⟩ : Transform ℝ).applyOffset v) := by
  simp only [applyOffset_eq, Matrix.mul_def, Matrix.mulColumn_eq, hn.first, hn.second]
  ext <;> ring

theorem ofMatrix_of_det_ne_zero {m : Matrix ℝ} (h : m.det ≠ 0) : ofMatrix m = .ok ⟨m⟩ := by
  simp [ofMatrix, Matrix.isFinite, Column.isFinite, Scalar.isFinite, h]

theorem ofMatrix_of_det_eq_zero {m : Matrix ℝ} (h : m.det = 0) :
    ofMatrix m = .error (.degenerate "matrix is singular") := by
  simp [ofMatrix, Matrix.isFinite, Column.isFinite, Scalar.isFinite, h]

theorem ofMatrix_eq_ok_iff {m : Matrix ℝ} {t : Transform ℝ} :
    ofMatrix m = .ok t ↔ m.det ≠ 0 ∧ t = ⟨m⟩ := by
  by_cases h : m.det = 0
  · simp [ofMatrix_of_det_eq_zero h, h]
  · simp [ofMatrix_of_det_ne_zero h, h, eq_comm]

theorem invert_eq {t : Transform ℝ} (h : t.matrix.det ≠ 0) : t.invert = .ok ⟨t.matrix.inverse⟩ :=
  ofMatrix_of_det_ne_zero (Matrix.areInverse_inverse h).det_ne_zero

theorem apply_of_areInverse {m n : Matrix ℝ} (h : Matrix.AreInverse m n) (hm : m.IsAffine)
    (p : Point ℝ) : (⟨n⟩ : Transform ℝ).apply ((⟨m⟩ : Transform ℝ).apply p) = p := by
  rw [← apply_mul n hm, h.mul_swap]
  exact apply_identity p

end Transform

namespace TransformOp

/-- The operation has no matrix or a singular one: it stretches an axis by zero, maps a
box without extent, or reflects in no line. -/
def Refused : TransformOp ℝ → Prop
  | scale sx sy => sx = 0 ∨ sy = 0
  | setViewport lower upper bounds =>
    bounds.dx = 0 ∨ bounds.dy = 0 ∨ (upper - lower).dx = 0 ∨ (upper - lower).dy = 0
  | reflect a b _ => a = 0 ∧ b = 0
  | rotate _ | rotateAbout _ _ | translate _ | setOrigin _ => False

/-- The matrix by which an operation acts in the local coordinates of a transform. -/
noncomputable def localMatrix (t : Transform ℝ) : TransformOp ℝ → Matrix ℝ
  | rotate a => .rotation a.radians
  | rotateAbout a pivot =>
    .shift pivot.x pivot.y * .rotation a.radians * .shift (-pivot.x) (-pivot.y)
  | translate v => .shift v.dx v.dy
  | scale sx sy => .scaling sx sy
  | setOrigin p =>
    let v := (⟨t.matrix.inverse⟩ : Transform ℝ).apply p - (Point.origin : Point ℝ)
    .shift v.dx v.dy
  | setViewport lower upper bounds =>
    .shift lower.x lower.y *
      .scaling ((upper - lower).dx / bounds.dx) ((upper - lower).dy / bounds.dy)
  | reflect a b c =>
    let norm := √(a ^ 2 + b ^ 2)
    .reflection (a / norm) (b / norm) (c / norm)

theorem isAffine_localMatrix (t : Transform ℝ) (op : TransformOp ℝ) :
    (op.localMatrix t).IsAffine := by
  cases op with
  | rotate a => exact Matrix.isAffine_rotation _
  | rotateAbout a pivot =>
    exact ((Matrix.isAffine_shift _ _).mul (Matrix.isAffine_rotation _)).mul
      (Matrix.isAffine_shift _ _)
  | translate v => exact Matrix.isAffine_shift _ _
  | scale sx sy => exact Matrix.isAffine_scaling _ _
  | setOrigin p => exact Matrix.isAffine_shift _ _
  | setViewport lower upper bounds =>
    exact (Matrix.isAffine_shift _ _).mul (Matrix.isAffine_scaling _ _)
  | reflect a b c => exact Matrix.isAffine_reflection _ _ _

theorem normal_eq_zero_iff {a b : ℝ} : √(a ^ 2 + b ^ 2) = 0 ↔ a = 0 ∧ b = 0 := by
  rw [Real.sqrt_eq_zero (by positivity)]
  constructor
  · intro h
    exact ⟨by nlinarith, by nlinarith⟩
  · rintro ⟨rfl, rfl⟩
    norm_num

theorem unit_normal {a b : ℝ} (h : ¬(a = 0 ∧ b = 0)) :
    (a / √(a ^ 2 + b ^ 2)) ^ 2 + (b / √(a ^ 2 + b ^ 2)) ^ 2 = 1 := by
  have hs : √(a ^ 2 + b ^ 2) ≠ 0 := fun h0 => h (normal_eq_zero_iff.mp h0)
  have hsq : √(a ^ 2 + b ^ 2) ^ 2 = a ^ 2 + b ^ 2 := Real.sq_sqrt (by positivity)
  field_simp
  exact hsq.symm

theorem det_localMatrix_ne_zero (t : Transform ℝ) {op : TransformOp ℝ} (h : ¬op.Refused) :
    (op.localMatrix t).det ≠ 0 := by
  cases op with
  | rotate a => simp [localMatrix]
  | rotateAbout a pivot => simp [localMatrix, Matrix.det_mul]
  | translate v => simp [localMatrix]
  | scale sx sy => simpa [localMatrix, Refused] using h
  | setOrigin p => simp [localMatrix]
  | setViewport lower upper bounds =>
    simp only [Refused, not_or] at h
    simp only [localMatrix, Matrix.det_mul, Matrix.det_shift, Matrix.det_scaling, one_mul]
    exact mul_ne_zero (div_ne_zero h.2.2.1 h.1) (div_ne_zero h.2.2.2 h.2.1)
  | reflect a b c =>
    rw [localMatrix, Matrix.det_reflection _ (unit_normal h)]
    norm_num

/-- An operation that is not refused multiplies the matrix from the right. -/
theorem run_of_not_refused {t : Transform ℝ} (ht : t.matrix.det ≠ 0) {op : TransformOp ℝ}
    (h : ¬op.Refused) : op.run t = .ok ⟨t.matrix * op.localMatrix t⟩ := by
  have hcompose : t.compose (op.localMatrix t) = .ok ⟨t.matrix * op.localMatrix t⟩ := by
    refine Transform.ofMatrix_of_det_ne_zero ?_
    rw [Matrix.det_mul]
    exact mul_ne_zero ht (det_localMatrix_ne_zero t h)
  cases op with
  | rotate a => exact hcompose
  | rotateAbout a pivot => exact hcompose
  | translate v => exact hcompose
  | scale sx sy => exact hcompose
  | setOrigin p =>
    simp only [run, Transform.setOrigin, Transform.invert_eq ht]
    exact hcompose
  | setViewport lower upper bounds =>
    simp only [Refused, not_or] at h
    have hb : (bounds.dx == 0 || bounds.dy == 0) = false := by simp [h.1, h.2.1]
    simp only [run, Transform.setViewport, hb]
    exact hcompose
  | reflect a b c =>
    have hn : √(a ^ 2 + b ^ 2) ≠ 0 := fun h0 => h (normal_eq_zero_iff.mp h0)
    simp only [run, Transform.reflect, Scalar.hypot, Scalar.isFinite]
    rw [if_neg (by simp [hn])]
    exact hcompose

theorem run_of_refused (t : Transform ℝ) {op : TransformOp ℝ} (h : op.Refused) :
    ∃ e, op.run t = .error e := by
  have singular (m : Matrix ℝ) (hm : m.det = 0) :
      t.compose m = .error (.degenerate "matrix is singular") := by
    refine Transform.ofMatrix_of_det_eq_zero ?_
    rw [Matrix.det_mul, hm, mul_zero]
  cases op with
  | rotate a => exact h.elim
  | rotateAbout a pivot => exact h.elim
  | translate v => exact h.elim
  | setOrigin p => exact h.elim
  | scale sx sy => exact ⟨_, singular _ (by simpa [Refused] using h)⟩
  | setViewport lower upper bounds =>
    simp only [run, Transform.setViewport]
    split_ifs with hb
    · exact ⟨_, rfl⟩
    · refine ⟨_, singular _ ?_⟩
      simp only [Bool.or_eq_true, beq_iff_eq, not_or] at hb
      simp only [Refused] at h
      simp only [Matrix.det_mul, Matrix.det_shift, Matrix.det_scaling, one_mul]
      rcases h with h | h | h | h
      · exact absurd h hb.1
      · exact absurd h hb.2
      · simp [h]
      · simp [h]
  | reflect a b c =>
    have hn : √(a ^ 2 + b ^ 2) = 0 := normal_eq_zero_iff.mpr h
    simp only [run, Transform.reflect, Scalar.hypot, Scalar.isFinite]
    rw [if_pos (by simp [hn])]
    exact ⟨_, rfl⟩

theorem eq_of_run {t t' : Transform ℝ} (ht : t.matrix.det ≠ 0) {op : TransformOp ℝ}
    (h : op.run t = .ok t') : ¬op.Refused ∧ t' = ⟨t.matrix * op.localMatrix t⟩ := by
  by_cases hr : op.Refused
  · obtain ⟨e, he⟩ := run_of_refused t hr
    rw [he] at h
    cases h
  · rw [run_of_not_refused ht hr] at h
    cases h
    exact ⟨hr, rfl⟩

end TransformOp

end Drafting
