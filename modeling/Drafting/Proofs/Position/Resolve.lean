import Drafting.Position.Resolve
import Drafting.Proofs.Outcome
import Drafting.Proofs.Transform.Composition

/-!
# Positions under a transform

Positions that mention no anchor are local: resolved under a transform, from the image
of the current point, they mean the image of what they mean without one. For relative
positions this says that adding the transformed displacement to an absolute point is
the same as adding the displacement in local coordinates, and that holds whatever the
reference is.
-/

namespace Drafting

/-- No anchor of a node is mentioned, at any depth. -/
def PositionSpec.Free {K : Type} : PositionSpec K → Prop
  | .anchor _ _ => False
  | .relativeTo _ base _ => base.Free
  | .current | .cartesian _ _ | .polar _ _ | .relative _ => True

variable [ExactTables]

namespace Frame

@[simp] theorem settle_eq (p : Point ℝ) : settle p = .ok p := by
  simp [settle, Point.isFinite, Scalar.isFinite]

@[simp] theorem displace_eq (f : Frame ℝ) (p : Point ℝ) (d : Displacement ℝ) :
    f.displace p d = p + f.transform.applyOffset d.toOffset := rfl

/-- By induction on the position: every form of it commutes with the transform. -/
theorem resolve_image {f g : Frame ℝ} (hf : f.transform = Transform.identity)
    (hcurrent : g.current = g.transform.apply f.current) {spec : PositionSpec ℝ}
    (h : spec.Free) : g.resolve spec = (f.resolve spec).map g.transform.apply := by
  have displaced (p : Point ℝ) (d : Displacement ℝ) :
      g.displace (g.transform.apply p) d = g.transform.apply (f.displace p d) := by
    rw [displace_eq, displace_eq, hf, Transform.applyOffset_identity, Transform.apply_add]
  induction spec with
  | current => simp [resolve, hcurrent, Except.map]
  | cartesian x y => simp [resolve, hf, Except.map]
  | polar angle radius => simp [resolve, hf, Except.map]
  | relative rel =>
    simp only [resolve, settle_eq, Except.map, hcurrent, displaced]
  | relativeTo rel base update ih =>
    simp only [resolve, ih h]
    cases f.resolve base with
    | error e => rfl
    | ok p =>
      change settle (g.displace (g.transform.apply p) rel) =
        (settle (f.displace p rel)).map g.transform.apply
      simp only [settle_eq, Except.map, displaced]
  | anchor node key => exact h.elim

/-- Adding the transformed displacement to an absolute point is adding the displacement
in local coordinates. -/
theorem displace_local {g : Frame ℝ} {inv : Transform ℝ}
    (back : ∀ p, g.transform.apply (inv.apply p) = p) (p : Point ℝ) (rel : Displacement ℝ) :
    g.displace p rel = g.transform.apply (inv.apply p + rel.toOffset) := by
  rw [displace_eq, Transform.apply_add, back]

theorem resolve_relative (g : Frame ℝ) (rel : Displacement ℝ) :
    g.resolve (.relative rel) = .ok (g.displace g.current rel) := by
  simp only [resolve, settle_eq]

theorem resolve_relativeTo {g : Frame ℝ} {base : PositionSpec ℝ} {r : Point ℝ}
    (h : g.resolve base = .ok r) (rel : Displacement ℝ) (update : Bool) :
    g.resolve (.relativeTo rel base update) = .ok (g.displace r rel) := by
  simp only [resolve, h]
  exact settle_eq _

end Frame

end Drafting
