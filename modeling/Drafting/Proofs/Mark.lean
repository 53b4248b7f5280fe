import Drafting.Mark
import Drafting.Proofs.Transform.Composition

/-!
# Stamped marks

The transform of a mark is set up by a turn, a reflection and a stretch, each of which acts inside
the ones before it. So a point of the symbol is stretched first, then reflected if the mark is
reversed, turned at last and moved onto the position. A stamp consists of one such copy of the
symbol for each position, in order. It is refused when the stretch is by zero along some axis,
and for no other reason.
-/

namespace Drafting

theorem Segment.mapPoints_mapPoints {K : Type} (f g : Point K → Point K) (s : Segment K) :
    (s.mapPoints f).mapPoints g = s.mapPoints fun p => g (f p) := by
  cases s with
  | polyline points h => simp [mapPoints]
  | cubic a b c d => rfl

variable [ExactTables]

namespace Mark

variable {m : Mark ℝ}

noncomputable def stretch (m : Mark ℝ) (q : Point ℝ) : Point ℝ :=
  ⟨m.scaleX * q.x, m.scaleY * q.y⟩

noncomputable def reflect (m : Mark ℝ) (q : Point ℝ) : Point ℝ :=
  if m.reversed then ⟨-q.x, q.y⟩ else q

noncomputable def turn (m : Mark ℝ) (q : Point ℝ) : Point ℝ :=
  ⟨Real.cos m.angle.radians * q.x - Real.sin m.angle.radians * q.y,
    Real.sin m.angle.radians * q.x + Real.cos m.angle.radians * q.y⟩

/-- Where a point of the unit symbol lies in the copy at a position. -/
noncomputable def place (m : Mark ℝ) (position q : Point ℝ) : Point ℝ :=
  m.turn (m.reflect (m.stretch q)) + (position - (Point.origin : Point ℝ))

theorem place_add (m : Mark ℝ) (position q : Point ℝ) (v : Offset ℝ) :
    m.place (position + v) q = m.place position q + v := by
  ext
  · simp [place, Point.origin, add_assoc]
  · simp [place, Point.origin, add_assoc]

noncomputable def orientation (m : Mark ℝ) : Except TransformError (Transform ℝ) :=
  Transform.identity.rotate m.angle >>= fun turned =>
    if m.reversed then turned.reflect 1 0 0 else .ok turned

theorem placement_eq (m : Mark ℝ) :
    m.placement = m.orientation >>= fun t => t.scale m.scaleX m.scaleY := by
  unfold placement orientation
  cases Transform.identity.rotate m.angle with
  | error e => rfl
  | ok turned => cases m.reversed <;> rfl

/-- The turn and the reflection are never refused. -/
theorem exists_orientation (m : Mark ℝ) :
    ∃ t, m.orientation = .ok t ∧ t.matrix.det ≠ 0 ∧ ∀ q, t.apply q = m.turn (m.reflect q) := by
  have hidentity : (Matrix.identity : Matrix ℝ).det ≠ 0 := by simp
  let rotation : TransformOp ℝ := .rotate m.angle
  let reflection : TransformOp ℝ := .reflect 1 0 0
  let turned : Transform ℝ := ⟨Matrix.identity * Matrix.rotation m.angle.radians⟩
  have hturned : Transform.identity.rotate m.angle = .ok turned :=
    rotation.run_of_not_refused hidentity id
  have hdet : turned.matrix.det ≠ 0 := by simp [turned, Matrix.det_mul]
  have happly (q : Point ℝ) : turned.apply q = m.turn q := by
    rw [Transform.apply_mul _ (Matrix.isAffine_rotation _), Transform.apply_rotation,
      Point.turnAbout_eq]
    refine (Transform.apply_identity _).trans ?_
    ext <;> simp [turn, Point.origin, add_comm]
  by_cases hreversed : m.reversed = true
  · have hunit : ¬reflection.Refused := fun h => one_ne_zero h.1
    refine ⟨_, bind_eq_ok.mpr ⟨turned, hturned,
      (if_pos hreversed).trans (reflection.run_of_not_refused hdet hunit)⟩, ?_, fun q => ?_⟩
    · rw [Matrix.det_mul]
      exact mul_ne_zero hdet (reflection.det_localMatrix_ne_zero turned hunit)
    · rw [Transform.apply_mul _ (reflection.isAffine_localMatrix turned)]
      refine (happly _).trans (congrArg m.turn ?_)
      rw [reflect, if_pos hreversed]
      norm_num [reflection, TransformOp.localMatrix, Transform.apply_eq, Matrix.reflection]
  · refine ⟨turned, bind_eq_ok.mpr ⟨turned, hturned, if_neg hreversed⟩, hdet, fun q => ?_⟩
    rw [happly, reflect, if_neg hreversed]

theorem placement_of_ne_zero (hx : m.scaleX ≠ 0) (hy : m.scaleY ≠ 0) :
    ∃ t, m.placement = .ok t ∧ ∀ q, t.apply q = m.turn (m.reflect (m.stretch q)) := by
  obtain ⟨oriented, horiented, hdet, happly⟩ := m.exists_orientation
  let scaling : TransformOp ℝ := .scale m.scaleX m.scaleY
  have hscaled : oriented.scale m.scaleX m.scaleY =
      .ok ⟨oriented.matrix * Matrix.scaling m.scaleX m.scaleY⟩ :=
    scaling.run_of_not_refused hdet (not_or.mpr ⟨hx, hy⟩)
  refine ⟨_, m.placement_eq.trans (bind_eq_ok.mpr ⟨oriented, horiented, hscaled⟩), fun q => ?_⟩
  rw [Transform.apply_mul _ (Matrix.isAffine_scaling _ _), Transform.apply_scaling]
  exact happly _

theorem placement_of_eq_zero (h : m.scaleX = 0 ∨ m.scaleY = 0) :
    m.placement = .error (.degenerate "matrix is singular") := by
  obtain ⟨oriented, horiented, -, -⟩ := m.exists_orientation
  have hscaled : oriented.scale m.scaleX m.scaleY = .error (.degenerate "matrix is singular") := by
    refine Transform.ofMatrix_of_det_eq_zero ?_
    rw [Matrix.det_mul, Matrix.det_scaling, mul_eq_zero.mpr h, mul_zero]
  rw [placement_eq, horiented]
  exact hscaled

/-- A stamp is refused by its stretch, whatever the positions, or has one copy of the symbol for
each of them. -/
theorem stamp_eq (m : Mark ℝ) (positions : List (Point ℝ)) :
    m.stamp positions =
      if m.scaleX = 0 ∨ m.scaleY = 0 then .error (.degenerate "matrix is singular")
      else .ok (positions.flatMap fun p => m.symbol.unitSegments.map (·.mapPoints (m.place p))) := by
  split_ifs with h
  · rw [stamp, placement_of_eq_zero h]
    rfl
  · obtain ⟨hx, hy⟩ := not_or.mp h
    obtain ⟨t, ht, happly⟩ := placement_of_ne_zero hx hy
    refine bind_eq_ok.mpr ⟨t, ht, congrArg Except.ok (List.flatMap_congr fun p _ => ?_)⟩
    rw [List.map_map]
    refine List.map_congr_left fun s _ => ?_
    rw [Function.comp_apply, Segment.transform, Segment.translate, Segment.mapPoints_mapPoints]
    exact congrArg (Segment.mapPoints · s) (funext fun q => congrArg (· + _) (happly q))

end Mark

end Drafting
