import Drafting.Node
import Drafting.Proofs.Outcome
import Drafting.Proofs.Path.Translate

/-!
# The points of a node

The box of a node is the box of all defining points of its drawables, marks included, or of
its own point when it draws nothing. It is collected drawable by drawable, which makes no
difference.
-/

namespace Drafting

variable [ExactTables]

namespace Node

/-- The points that the box of a node is around: those of its drawables, or those of the
geometry when it draws nothing. -/
def extent (n : Node ℝ) : List (Point ℝ) :=
  match n.drawables with
  | [] => n.geometry.controlPoints
  | drawables => drawables.flatMap fun d => d.path.controlPoints

omit [ExactTables] in
theorem flatMap_extent_subset {ms ns : List (Node ℝ)} (h : ∀ n ∈ ms, n ∈ ns) :
    ms.flatMap extent ⊆ ns.flatMap extent := by
  intro p hp
  obtain ⟨n, hn, hp⟩ := List.mem_flatMap.mp hp
  exact List.mem_flatMap.mpr ⟨n, h n hn, hp⟩

theorem foldl_union_box (drawables : List (Drawable ℝ)) (ps : List (Point ℝ)) :
    drawables.foldl (fun b d => b.union d.path.box) (Box.ofPoints ps) =
      Box.ofPoints (ps ++ drawables.flatMap fun d => d.path.controlPoints) := by
  induction drawables generalizing ps with
  | nil => rw [List.flatMap_nil, List.append_nil, List.foldl_nil]
  | cons d drawables ih =>
    rw [List.foldl_cons, Path.box, Box.ofPoints_union, ih, List.flatMap_cons, List.append_assoc]

theorem box_of_ofDrawables {drawables : List (Drawable ℝ)} {name : Option String} {n : Node ℝ}
    (h : ofDrawables drawables name = .ok n) : n.box = Box.ofPoints n.extent := by
  obtain ⟨name', -, h⟩ := bind_eq_ok.mp h
  cases h
  cases drawables with
  | nil => rfl
  | cons d drawables => exact foldl_union_box (d :: drawables) []

theorem box_of_anchorPoint {name : Option String} {point : Point ℝ} {n : Node ℝ}
    (h : anchorPoint name point = .ok n) : n.box = Box.ofPoints n.extent := by
  obtain ⟨name', -, h⟩ := bind_eq_ok.mp h
  cases h
  rfl

theorem extent_translate (n : Node ℝ) (v : Offset ℝ) :
    (n.translate v).extent = n.extent.map fun p : Point ℝ => p + v := by
  unfold extent translate
  cases n.drawables with
  | nil => exact Path.controlPoints_translate n.geometry v
  | cons d drawables =>
    simp only [List.map_cons, List.flatMap_cons, List.map_append, List.flatMap_map,
      List.map_flatMap, Drawable.translate, Path.controlPoints_translate]

end Node

end Drafting
