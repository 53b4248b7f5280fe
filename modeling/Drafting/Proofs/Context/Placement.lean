import Drafting.Proofs.Context.Drawing
import Drafting.Proofs.Node.Angle
import Drafting.Proofs.Node.Translate
import Drafting.Proofs.Position.Resolve

/-!
# Placement

A call with a placement anchor builds the node that it builds without one and moves it as
a whole. The anchor is looked up before the move and lies on its target after it, since
every anchor moves along with its node. Where the anchor depends on the centroid this takes
an outline within the range of the sentinels.
-/

namespace Drafting

section
variable [ExactTables] {S : Type}

namespace Node

/-- A node that is moved by the way from an anchor to a target has the anchor there. -/
theorem anchor_translate_sub {n : Node ℝ} {key : String} {p target : Point ℝ}
    (hp : n.anchor key = .ok p)
    (h : UsesCentroid (AnchorKey.parse key) →
      n.InRange ∧ (n.translate (target - p)).InRange) :
    (n.translate (target - p)).anchor key = .ok target := by
  have hmoved : (n.translate (target - p)).anchor key =
      (n.anchor key).map fun q : Point ℝ => q + (target - p) := by
    by_cases hk : UsesCentroid (AnchorKey.parse key)
    · exact resolve_translate_of_usesCentroid (h hk).1 (h hk).2 hk
    · exact n.resolve_translate_of_not_usesCentroid _ hk
  rw [hmoved, hp]
  refine congrArg Except.ok ?_
  ext
  · exact add_sub_cancel p.x target.x
  · exact add_sub_cancel p.y target.y

end Node

theorem Action.placed_some {m n : Node ℝ} {target : Point ℝ} {key : String}
    (h : placed m target (some key) = .ok n) :
    ∃ p, m.anchor key = .ok p ∧ n = m.translate (target - p) := by
  obtain ⟨p, hp, hn⟩ := bind_eq_ok.mp h
  cases hn
  exact ⟨p, hp, rfl⟩

namespace Call

variable [Sink ℝ S] {k : Call ℝ} {c c' : Context ℝ S} {m n : Node ℝ}

end Call

theorem Action.moveTo_ofPoint (p : Point ℝ) (c : Context ℝ S) :
    moveTo (.ofPoint p) c = .ok (c.transform.apply p) { c with current := c.transform.apply p } :=
  moveTo_ok_iff.mpr ⟨rfl, rfl⟩

theorem Node.anchor_center_square {n : Node ℝ} (hrule : Quadrature.Exact)
    (hn : n.geometry = ConvexPolygon.square.path) : n.anchor "center" = .ok Point.origin := by
  have hparse : (AnchorKey.parse "center" : AnchorKey ℝ) = .center := rfl
  rw [anchor, hparse, resolve, center, hn, ConvexPolygon.centroid_square hrule]

end

end Drafting
