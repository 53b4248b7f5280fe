import Drafting.Proofs.Position.Keys

/-!
# Short forms of positions

A pair of coordinates, an angle literal with a radius and a dotted reference stand for sets of
keys. The short forms are checked by code of their own, in an order of their own, and agree
with the sets of keys all the same: the angle of a literal is finite, so checking it once more
changes nothing, and coordinates are refused by both forms or by none.
-/

namespace Drafting

namespace PositionKeys

variable {K : Type}

def empty : PositionKeys K :=
  ⟨none, none, none, none, none, none, none, none, none⟩

variable [Scalar K]

/-- An angle literal with a radius is its set of keys, error for error. The angle is checked in
one of the two forms only, which is where its being finite matters. -/
theorem ofAnglePair_eq (angle : String) (radius : Float) :
    Position.ofAnglePair angle radius =
      toPosition { empty with angle := some angle, radius := some radius } := by
  have hkeys : toPosition { empty with angle := some angle, radius := some radius } =
      (Position.mk · true) <$>
        polarSpec { empty with angle := some angle, radius := some radius } := rfl
  rw [hkeys]
  simp only [polarSpec, Position.ofAnglePair, Position.parseAngle]
  cases hparse : (Angle.parse? angle : Option (Angle Float)) with
  | none => rfl
  | some a =>
    have hangle : Position.checkFinite a.radians "angle" = .ok a.radians :=
      if_pos (Angle.isFinite_of_parse? hparse)
    simp only [Position.polar, hangle, bind, Except.bind]
    cases Position.checkFinite radius "radius" <;> rfl

theorem ofReference_eq_of_split {s node key : String}
    (h : Name.splitReference? s = some (node, key)) :
    (Position.ofReference s : Except (PositionError K) (Position K)) =
      toPosition { empty with name := some node, anchor := some key } := by
  rw [Position.ofReference, h]
  rfl

theorem ofReference_eq_of_not_split {s : String} (h : Name.splitReference? s = none) :
    (Position.ofReference s : Except (PositionError K) (Position K)) =
      .error (.malformed ("`" ++ s ++ "` is not of the form `<node>.<anchor>`")) := by
  rw [Position.ofReference, h]

variable {x y : K}

theorem finite_eq_error {a : K} (h : ¬ Scalar.isFinite a = true) :
    ∃ cause, Scalar.finite a = .error cause := by
  rw [Scalar.finite, if_neg h]
  split_ifs
  · exact ⟨_, rfl⟩
  · exact ⟨_, rfl⟩

theorem xy_of_isFinite (hx : Scalar.isFinite x = true) (hy : Scalar.isFinite y = true) :
    Position.xy x y = .ok ⟨.cartesian x y, true⟩ := by
  simp only [Position.xy, Point.checked, Scalar.finite, hx, hy, if_true]
  rfl

theorem xy_of_not_isFinite (h : ¬ (Scalar.isFinite x = true ∧ Scalar.isFinite y = true)) :
    ∃ message, Position.xy x y = .error (.malformed message) := by
  have hchecked : ∃ cause, Point.checked x y = .error cause := by
    by_cases hx : Scalar.isFinite x = true
    · obtain ⟨cause, hcause⟩ := finite_eq_error fun hy => h ⟨hx, hy⟩
      have hfinite : Scalar.finite x = .ok x := if_pos hx
      refine ⟨cause, ?_⟩
      simp only [Point.checked, hfinite, hcause]
      rfl
    · obtain ⟨cause, hcause⟩ := finite_eq_error hx
      refine ⟨cause, ?_⟩
      simp only [Point.checked, hcause]
      rfl
  obtain ⟨cause, hcause⟩ := hchecked
  rw [Position.xy, hcause]
  exact ⟨_, rfl⟩

omit [Scalar K] in
theorem only_cartesian (x y : K) :
    Only { empty with x := some x, y := some y } .cartesian := by
  refine ⟨.inl rfl, fun g hg => ?_⟩
  cases g with
  | cartesian => rfl
  | polar => simp [Has, empty] at hg
  | relative => simp [Has, empty] at hg
  | anchor => simp [Has, empty] at hg

theorem toPosition_of_isFinite (hx : Scalar.isFinite x = true) (hy : Scalar.isFinite y = true) :
    toPosition { empty with x := some x, y := some y } = .ok ⟨.cartesian x y, true⟩ :=
  (Denotes.cartesian (only_cartesian x y) hx hy).toPosition

theorem toPosition_of_not_isFinite
    (h : ¬ (Scalar.isFinite x = true ∧ Scalar.isFinite y = true)) :
    ∃ message,
      toPosition { empty with x := some x, y := some y } = .error (.malformed message) := by
  by_cases hx : Scalar.isFinite x = true
  · exact ⟨_, (FirstFault.y (only_cartesian x y) hx fun hy => h ⟨hx, hy⟩).toPosition⟩
  · exact ⟨_, (FirstFault.x (only_cartesian x y) hx).toPosition⟩

/-- The short forms of positions agree with their sets of keys, on every text and on every
floating-point number. -/
theorem shortForms_eq_toPosition :
    (∀ (angle : String) (radius : Float), Position.ofAnglePair angle radius =
      toPosition { empty with angle := some angle, radius := some radius }) ∧
    (∀ s node key, Name.splitReference? s = some (node, key) →
      (Position.ofReference s : Except (PositionError Float) (Position Float)) =
        toPosition { empty with name := some node, anchor := some key }) ∧
    (∀ s, Name.splitReference? s = none →
      (Position.ofReference s : Except (PositionError Float) (Position Float)) =
        .error (.malformed ("`" ++ s ++ "` is not of the form `<node>.<anchor>`"))) ∧
    ∀ x y : Float,
      ((Scalar.isFinite x = true ∧ Scalar.isFinite y = true) ∧
        Position.xy x y = .ok ⟨.cartesian x y, true⟩ ∧
        toPosition { empty with x := some x, y := some y } = .ok ⟨.cartesian x y, true⟩) ∨
      (¬ (Scalar.isFinite x = true ∧ Scalar.isFinite y = true) ∧
        (∃ message, Position.xy x y = .error (.malformed message)) ∧
        ∃ message, toPosition { empty with x := some x, y := some y } =
          .error (.malformed message)) := by
  refine ⟨ofAnglePair_eq, fun s node key => ofReference_eq_of_split,
    fun s => ofReference_eq_of_not_split, fun x y => ?_⟩
  by_cases h : Scalar.isFinite x = true ∧ Scalar.isFinite y = true
  · exact .inl ⟨h, xy_of_isFinite h.1 h.2, toPosition_of_isFinite h.1 h.2⟩
  · exact .inr ⟨h, xy_of_not_isFinite h, toPosition_of_not_isFinite h⟩

end PositionKeys

end Drafting
