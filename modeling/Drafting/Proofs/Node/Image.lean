import Drafting.Node
import Drafting.Proofs.Outcome
import Drafting.Proofs.Path.Chain
import Drafting.Proofs.Transform.Composition

/-!
# Images of nodes under a transform

What a node of one path becomes when its path is mapped by a transform. The drawables,
the outline and the explicit anchors are mapped; how the outline connects stays, since
different points stay different. The box is left out, because the box of mapped points
is not the mapped box.
-/

namespace Drafting

section
variable {K : Type}

theorem Segment.line_map (f : Point K → Point K) (points : List (Point K)) :
    (line (points.map f) : Except (PathError K) (Segment K)) =
      (line points).map (·.mapPoints f) := by
  by_cases h : 2 ≤ points.length
  · have h' : 2 ≤ (points.map f).length := by simpa using h
    simp only [line, dif_pos h, dif_pos h', Except.map, mapPoints]
  · have h' : ¬2 ≤ (points.map f).length := by simpa using h
    simp only [line, dif_neg h, Except.map, List.length_map]

end

variable [ExactTables]

namespace Segment

/-- Raising the degree of a curve commutes with a transform, because the raised control
points divide segments between the given points in a fixed ratio. -/
theorem quadratic_transform (t : Transform ℝ) (a b c : Point ℝ) :
    quadratic (t.apply a) (t.apply b) (t.apply c) = (quadratic a b c).transform t := by
  have divide (p q : Point ℝ) (k : ℝ) :
      t.apply p + (t.apply q - t.apply p) * k = t.apply (p + (q - p) * k) := by
    ext
    · simp only [Transform.apply_eq, Point.add_x, Point.add_y, Offset.mul_dx, Offset.mul_dy,
        Point.sub_dx, Point.sub_dy]
      ring
    · simp only [Transform.apply_eq, Point.add_x, Point.add_y, Offset.mul_dx, Offset.mul_dy,
        Point.sub_dx, Point.sub_dy]
      ring
  simp only [quadratic, transform, mapPoints, divide]

end Segment

namespace Topology

theorem classify_singleton (s : Segment ℝ) : classify [s] ≠ .group := by
  have hc : connected [s] = true := rfl
  simp only [classify, List.head?_cons, List.getLast?_singleton, hc]
  split_ifs with h
  · contradiction
  · simp
  · simp

end Topology

noncomputable def Drawable.transform (d : Drawable ℝ) (t : Transform ℝ) : Drawable ℝ :=
  { d with path := d.path.transform t }

namespace Node

/-- The second node is the first one mapped by a transform, its box apart. -/
structure Image (t : Transform ℝ) (n n' : Node ℝ) : Prop where
  name : n'.name = n.name
  drawables : n'.drawables = n.drawables.map (·.transform t)
  topology : n'.topology = n.topology
  geometry : n'.geometry = n.geometry.transform t
  anchors : n'.anchors = n.anchors.map fun _ p => t.apply p

variable {t : Transform ℝ}

theorem geometryOf_singleton (s : Segment ℝ) : geometryOf [s] = ⟨[s]⟩ := by
  have h : (⟨[s]⟩ : Path ℝ).topology ≠ .group := Topology.classify_singleton s
  unfold geometryOf
  dsimp only
  split
  · contradiction
  · rfl

omit [ExactTables] in
theorem alike_checkName (name : Option String) :
    Alike (· = ·) (checkName name : Except (AnchorError ℝ) (Option String)) (checkName name) := by
  cases h : (checkName name : Except (AnchorError ℝ) (Option String)) with
  | ok n => exact .ok rfl
  | error e => exact .error e

theorem image_ofDrawables (ht : Function.Injective t.apply) (s : Segment ℝ) (style : Style)
    (name : Option String) :
    Alike (Image t) (ofDrawables [DrawableKind.path.build [s] style] name)
      (ofDrawables [DrawableKind.path.build [s.transform t] style] name) := by
  refine (alike_checkName name).bind fun name name' hname => .ok ?_
  subst hname
  refine ⟨rfl, rfl, Topology.classify_map ht [s], ?_, by simp⟩
  change geometryOf [s.transform t] = (geometryOf [s]).transform t
  rw [geometryOf_singleton, geometryOf_singleton]
  rfl

theorem Image.addAnchor {n n' : Node ℝ} (h : Image t n n') (name : String) (p : Point ℝ) :
    Alike (Image t) (n.addAnchor name p) (n'.addAnchor name (t.apply p)) := by
  unfold Node.addAnchor
  split_ifs
  · exact .error _
  · refine .ok ⟨h.name, h.drawables, h.topology, h.geometry, ?_⟩
    refine Std.ExtTreeMap.ext_getElem? fun k => ?_
    simp only [h.anchors, Std.ExtTreeMap.getElem?_map, Std.ExtTreeMap.getElem?_insert]
    split_ifs <;> rfl

def SameName (n n' : Node ℝ) : Prop := n'.name = n.name

theorem sameName_ofDrawables (ds ds' : List (Drawable ℝ)) (name : Option String) :
    Alike SameName (ofDrawables ds name) (ofDrawables ds' name) :=
  (alike_checkName name).bind fun _ _ hname => .ok hname.symm

omit [ExactTables] in
theorem SameName.addAnchor {n n' : Node ℝ} (h : SameName n n') (name : String)
    (p p' : Point ℝ) : Alike SameName (n.addAnchor name p) (n'.addAnchor name p') := by
  unfold Node.addAnchor
  split_ifs
  · exact .error _
  · exact .ok h

end Node

end Drafting
