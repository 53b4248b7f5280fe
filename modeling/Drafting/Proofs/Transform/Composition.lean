import Mathlib.Logic.Function.Basic
import Drafting.Proofs.Transform.Affine

/-!
# The meaning of composed transforms

Each operation stands for a map of the plane, given here in terms of plane geometry
and without matrices: a turn is a product with a complex number of absolute value one,
a reflection puts the foot of the perpendicular in the middle. A list of operations,
of which those that are refused are skipped, maps a point by the last operation first.
-/

namespace Drafting

section
variable {K : Type} [Scalar K]

/-- The transform after an operation, which is the one before it if the operation fails. -/
def Transform.after (t : Transform K) (op : TransformOp K) : Transform K :=
  match op.run t with
  | .ok t' => t'
  | .error _ => t

def Transform.run (t : Transform K) (ops : List (TransformOp K)) : Transform K :=
  ops.foldl after t

end

variable [ExactTables]

instance : Nonempty (Point ℝ) := ⟨Point.origin⟩

namespace Point

noncomputable def turnAbout (pivot : Point ℝ) (a : Angle ℝ) (p : Point ℝ) : Point ℝ :=
  let z := Complex.exp (a.radians * Complex.I) * ⟨(p - pivot).dx, (p - pivot).dy⟩
  pivot + (⟨z.re, z.im⟩ : Offset ℝ)

noncomputable def foot (a b c : ℝ) (p : Point ℝ) : Point ℝ :=
  let k := (a * p.x + b * p.y + c) / (a ^ 2 + b ^ 2)
  ⟨p.x - a * k, p.y - b * k⟩

/-- The mirror image in the line `a x + b y + c = 0`: as far behind the foot of the
perpendicular as the point is before it. -/
noncomputable def mirror (a b c : ℝ) (p : Point ℝ) : Point ℝ :=
  foot a b c p + (foot a b c p - p)

theorem foot_on_line {a b : ℝ} (c : ℝ) (h : ¬(a = 0 ∧ b = 0)) (p : Point ℝ) :
    a * (foot a b c p).x + b * (foot a b c p).y + c = 0 := by
  have hn : a ^ 2 + b ^ 2 ≠ 0 := by
    intro h0
    exact h ⟨by nlinarith, by nlinarith⟩
  simp only [foot]
  field_simp
  ring

theorem turnAbout_eq (pivot : Point ℝ) (a : Angle ℝ) (p : Point ℝ) :
    turnAbout pivot a p =
      ⟨pivot.x + (Real.cos a.radians * (p.x - pivot.x) - Real.sin a.radians * (p.y - pivot.y)),
        pivot.y + (Real.cos a.radians * (p.y - pivot.y) + Real.sin a.radians * (p.x - pivot.x))⟩ := by
  ext
  · simp only [turnAbout, add_x, sub_dx, sub_dy, Complex.mul_re, Complex.exp_ofReal_mul_I_re,
      Complex.exp_ofReal_mul_I_im]
  · simp only [turnAbout, add_y, sub_dx, sub_dy, Complex.mul_im, Complex.exp_ofReal_mul_I_re,
      Complex.exp_ofReal_mul_I_im]

end Point

namespace TransformOp

/-- The map of the plane that an operation stands for in the local coordinates that a
map sets up. Setting the origin is the shift by the local displacement of the point. -/
noncomputable def planar (before : Point ℝ → Point ℝ) : TransformOp ℝ → Point ℝ → Point ℝ
  | rotate a => Point.turnAbout Point.origin a
  | rotateAbout a pivot => Point.turnAbout pivot a
  | translate v => fun p => p + v
  | scale sx sy => fun p => ⟨sx * p.x, sy * p.y⟩
  | setOrigin q => fun p => p + (Function.invFun before q - (Point.origin : Point ℝ))
  | setViewport lower upper bounds => fun p =>
    ⟨lower.x + (upper - lower).dx / bounds.dx * p.x,
      lower.y + (upper - lower).dy / bounds.dy * p.y⟩
  | reflect a b c => Point.mirror a b c

open Classical in
/-- The map set up by a further operation, which acts before the ones that set up `f`. -/
noncomputable def extend (f : Point ℝ → Point ℝ) (op : TransformOp ℝ) : Point ℝ → Point ℝ :=
  if op.Refused then f else f ∘ op.planar f

/-- The map `e₁ ∘ e₂ ∘ … ∘ eₙ` of the operations that are not refused, in their order. -/
noncomputable def composed (ops : List (TransformOp ℝ)) : Point ℝ → Point ℝ :=
  ops.foldl extend id

end TransformOp

namespace Transform

theorem apply_shift (dx dy : ℝ) (p : Point ℝ) :
    (⟨.shift dx dy⟩ : Transform ℝ).apply p = p + (⟨dx, dy⟩ : Offset ℝ) := by
  simp [apply_eq, Matrix.shift, Point.ext_iff]

theorem apply_rotation (a : Angle ℝ) (p : Point ℝ) :
    (⟨.rotation a.radians⟩ : Transform ℝ).apply p = Point.turnAbout Point.origin a p := by
  rw [Point.turnAbout_eq]
  simp only [apply_eq, Matrix.rotation, Scalar.cos, Scalar.sin, Point.origin]
  ext <;> ring

theorem apply_scaling (sx sy : ℝ) (p : Point ℝ) :
    (⟨.scaling sx sy⟩ : Transform ℝ).apply p = ⟨sx * p.x, sy * p.y⟩ := by
  simp [apply_eq, Matrix.scaling]

theorem apply_reflection {a b : ℝ} (c : ℝ) (h : ¬(a = 0 ∧ b = 0)) (p : Point ℝ) :
    let norm := √(a ^ 2 + b ^ 2)
    (⟨.reflection (a / norm) (b / norm) (c / norm)⟩ : Transform ℝ).apply p =
      Point.mirror a b c p := by
  intro norm
  have hn : norm ≠ 0 := fun h0 => h (TransformOp.normal_eq_zero_iff.mp h0)
  have hsq : a ^ 2 + b ^ 2 = norm ^ 2 := (Real.sq_sqrt (by positivity)).symm
  simp only [apply_eq, Matrix.reflection, Point.mirror, Point.foot, hsq]
  ext
  · simp only [Point.add_x, Point.sub_dx]
    field_simp
    ring
  · simp only [Point.add_y, Point.sub_dy]
    field_simp
    ring

theorem apply_injective {t : Transform ℝ} (h : t.matrix.det ≠ 0) (ha : t.matrix.IsAffine) :
    Function.Injective t.apply :=
  Function.LeftInverse.injective (apply_of_areInverse (Matrix.areInverse_inverse h) ha)

/-- The matrix of an operation maps the plane as the operation stands for. -/
theorem apply_localMatrix {t : Transform ℝ} (h : t.matrix.det ≠ 0) (ha : t.matrix.IsAffine)
    {op : TransformOp ℝ} (hr : ¬op.Refused) :
    (⟨op.localMatrix t⟩ : Transform ℝ).apply = op.planar t.apply := by
  funext p
  cases op with
  | rotate a => exact apply_rotation a p
  | rotateAbout a pivot =>
    simp only [TransformOp.localMatrix, TransformOp.planar]
    rw [apply_mul _ (Matrix.isAffine_shift _ _), apply_mul _ (Matrix.isAffine_rotation _),
      apply_shift, apply_shift, apply_rotation, Point.turnAbout_eq, Point.turnAbout_eq]
    simp only [Point.origin]
    ext
    · simp only [Point.add_x, Point.add_y]
      ring
    · simp only [Point.add_x, Point.add_y]
      ring
  | translate v => exact apply_shift v.dx v.dy p
  | scale sx sy => exact apply_scaling sx sy p
  | setOrigin q =>
    have back : Function.invFun t.apply q = (⟨t.matrix.inverse⟩ : Transform ℝ).apply q := by
      have hm := Matrix.areInverse_inverse h
      have hq := apply_of_areInverse hm.symm (hm.isAffine ha) q
      conv_lhs => rw [← hq]
      exact Function.leftInverse_invFun (apply_injective h ha) _
    simp only [TransformOp.localMatrix, TransformOp.planar, back]
    exact apply_shift _ _ p
  | setViewport lower upper bounds =>
    simp only [TransformOp.localMatrix, TransformOp.planar]
    rw [apply_mul _ (Matrix.isAffine_scaling _ _), apply_shift, apply_scaling]
    ext
    · exact add_comm _ _
    · exact add_comm _ _
  | reflect a b c => exact apply_reflection c hr p

/-- The transform is affine, not singular, and maps points as the map does. -/
structure Follows (t : Transform ℝ) (f : Point ℝ → Point ℝ) : Prop where
  affine : t.matrix.IsAffine
  det_ne_zero : t.matrix.det ≠ 0
  apply_eq : t.apply = f

variable {t : Transform ℝ} {f : Point ℝ → Point ℝ}

theorem follows_identity : (identity : Transform ℝ).Follows id where
  affine := Matrix.isAffine_identity
  det_ne_zero := by simp [identity]
  apply_eq := funext apply_identity

theorem after_of_refused (t : Transform ℝ) {op : TransformOp ℝ} (hr : op.Refused) :
    t.after op = t := by
  obtain ⟨e, he⟩ := TransformOp.run_of_refused t hr
  rw [after, he]

theorem after_of_not_refused (h : t.matrix.det ≠ 0) {op : TransformOp ℝ} (hr : ¬op.Refused) :
    t.after op = ⟨t.matrix * op.localMatrix t⟩ := by
  rw [after, TransformOp.run_of_not_refused h hr]

theorem Follows.after (h : t.Follows f) (op : TransformOp ℝ) :
    (t.after op).Follows (TransformOp.extend f op) := by
  by_cases hr : op.Refused
  · rw [after_of_refused t hr, TransformOp.extend, if_pos hr]
    exact h
  · rw [after_of_not_refused h.det_ne_zero hr, TransformOp.extend, if_neg hr]
    refine ⟨h.affine.mul (op.isAffine_localMatrix t), ?_, ?_⟩
    · rw [Matrix.det_mul]
      exact mul_ne_zero h.det_ne_zero (TransformOp.det_localMatrix_ne_zero t hr)
    · funext p
      rw [apply_mul _ (op.isAffine_localMatrix t), apply_localMatrix h.det_ne_zero h.affine hr,
        ← h.apply_eq]
      rfl

theorem Follows.run (h : t.Follows f) (ops : List (TransformOp ℝ)) :
    (t.run ops).Follows (ops.foldl TransformOp.extend f) := by
  induction ops generalizing t f with
  | nil => exact h
  | cons op ops ih => exact ih (h.after op)

theorem follows_run_identity (ops : List (TransformOp ℝ)) :
    (identity.run ops).Follows (TransformOp.composed ops) :=
  follows_identity.run ops

theorem setOrigin_eq_ok (h : t.matrix.det ≠ 0) (ha : t.matrix.IsAffine) (p : Point ℝ) :
    ∃ t', t.setOrigin p = .ok t' ∧ t'.origin = p ∧ ∀ v, t'.applyOffset v = t.applyOffset v := by
  let op : TransformOp ℝ := .setOrigin p
  have hr : ¬op.Refused := fun hr => hr
  have hm := Matrix.areInverse_inverse h
  refine ⟨_, TransformOp.run_of_not_refused h hr, ?_, fun v => ?_⟩
  · rw [origin, apply_mul _ (op.isAffine_localMatrix t)]
    have hshift : (⟨op.localMatrix t⟩ : Transform ℝ).apply Point.origin =
        (⟨t.matrix.inverse⟩ : Transform ℝ).apply p := by
      refine (apply_shift _ _ _).trans ?_
      simp [Point.ext_iff, Point.origin]
    rw [hshift]
    exact apply_of_areInverse hm.symm (hm.isAffine ha) p
  · rw [applyOffset_mul _ (op.isAffine_localMatrix t)]
    have hlinear : (⟨op.localMatrix t⟩ : Transform ℝ).applyOffset v = v := by
      simp [op, TransformOp.localMatrix, applyOffset_eq, Matrix.shift]
    rw [hlinear]

/-- After any list of operations on the identity the matrix is affine and not singular,
points are mapped by the composition of the maps that the operations stand for, offsets
by its linear part, and an operation fails exactly when it is refused. -/
theorem run_identity (ops : List (TransformOp ℝ)) :
    let t := identity.run ops
    (t.matrix.IsAffine ∧ t.matrix.det ≠ 0) ∧
      (∀ p, t.apply p = TransformOp.composed ops p) ∧
      (∀ p v, TransformOp.composed ops (p + v) = TransformOp.composed ops p + t.applyOffset v) ∧
      (∀ p, ∃ t', t.setOrigin p = .ok t' ∧ t'.origin = p ∧
        ∀ v, t'.applyOffset v = t.applyOffset v) ∧
      ∀ op : TransformOp ℝ, ((∃ e, op.run t = .error e) ↔ op.Refused) ∧
        (op.Refused → identity.run (ops ++ [op]) = t) := by
  intro t
  have h : t.Follows (TransformOp.composed ops) := follows_run_identity ops
  refine ⟨⟨h.affine, h.det_ne_zero⟩, congrFun h.apply_eq, fun p v => ?_,
    setOrigin_eq_ok h.det_ne_zero h.affine, fun op => ⟨⟨fun ⟨e, he⟩ => ?_,
    TransformOp.run_of_refused t⟩, fun hr => ?_⟩⟩
  · rw [← h.apply_eq]
    exact t.apply_add p v
  · by_contra hr
    rw [TransformOp.run_of_not_refused h.det_ne_zero hr] at he
    cases he
  · rw [run, List.foldl_append]
    exact t.after_of_refused hr

end Transform

end Drafting
