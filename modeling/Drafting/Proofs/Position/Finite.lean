import Drafting.Position
import Drafting.Proofs.Binary64
import Drafting.Proofs.Text.KeyLanguage

/-!
# The numbers of positions

Which forms of position hold finite numbers only. Keys of anchors and angle literals do,
whatever text they are read from: a numeral out of range is none, and a unit only scales a
finite number down.
-/

namespace Drafting

variable {K : Type} [Scalar K]

def Displacement.spec : Displacement K → PositionSpec K
  | cartesian dx dy => .cartesian dx dy
  | polar angle radius => .polar angle radius

def AnchorKey.IsFinite : AnchorKey K → Prop
  | .length l => Scalar.isFinite l = true
  | .fraction t => Scalar.isFinite t = true
  | .angle a => Scalar.isFinite a.radians = true
  | .center | .north | .south | .east | .west | .start | .mid | .finish | .custom _ => True

def Displacement.IsFinite : Displacement K → Prop
  | .cartesian dx dy => Scalar.isFinite dx = true ∧ Scalar.isFinite dy = true
  | .polar angle radius => Scalar.isFinite angle.radians = true ∧ Scalar.isFinite radius = true

/-- Every number anywhere in the form of position is finite. -/
def PositionSpec.IsFinite : PositionSpec K → Prop
  | .current => True
  | .cartesian x y => Scalar.isFinite x = true ∧ Scalar.isFinite y = true
  | .polar angle radius => Scalar.isFinite angle.radians = true ∧ Scalar.isFinite radius = true
  | .relative rel => rel.IsFinite
  | .relativeTo rel base _ => rel.IsFinite ∧ base.IsFinite
  | .anchor _ key => key.IsFinite

theorem Displacement.isFinite_of_spec {d : Displacement K} (h : d.spec.IsFinite) : d.IsFinite := by
  cases d <;> exact h

theorem AnchorKey.Numeric.isFinite {cs : List Char} {key : AnchorKey Float} (h : Numeric cs key) :
    key.IsFinite := by
  cases h with
  | length h => exact h.isFinite
  | fraction h => exact Binary64.isFinite_percent h.isFinite
  | degrees h => exact Binary64.isFinite_radians h.isFinite
  | radians h => exact h.isFinite

/-- Keys are read with finite numbers, also those given in percent or in degrees. -/
theorem AnchorKey.isFinite_parse (s : String) : (parse s : AnchorKey Float).IsFinite := by
  have hbuiltins : ∀ entry ∈ (builtins : List (String × AnchorKey Float)),
      entry.2.IsFinite := by
    simp [builtins, IsFinite]
  obtain hnumeric | ⟨-, hbuiltin | ⟨-, hcustom⟩⟩ := parse_cases (K := Float) s
  · exact hnumeric.isFinite
  · exact hbuiltins _ hbuiltin
  · rw [hcustom]
    trivial

theorem Angle.isFinite_of_parse? {s : String} {a : Angle Float} (h : Angle.parse? s = some a) :
    Scalar.isFinite a.radians = true := by
  have hkey := AnchorKey.isFinite_parse s
  obtain hangle | hlength := AnchorKey.angle_parse?_eq_some_iff.mp h
  · rwa [hangle] at hkey
  · rwa [hlength] at hkey

end Drafting
