import Drafting.Node
import Drafting.Proofs.Outcome
import Mathlib.Tactic.SplitIfs

/-!
# Nodes that can be built

Nodes are made from drawables, from segments or as single points, and are given
explicit anchors and moved afterwards. Every node that comes about in this way has
no name or a valid one.
-/

namespace Drafting

variable {K : Type} [Scalar K]

namespace Node

/-- The nodes that the constructors and the operations on nodes make. -/
inductive Built : Node K → Prop
  | ofDrawables {drawables : List (Drawable K)} {name : Option String} {n : Node K} :
      Node.ofDrawables drawables name = .ok n → Built n
  | ofSegments {segments : List (Segment K)} {name : Option String} {n : Node K} :
      Node.ofSegments segments name = .ok n → Built n
  | anchorPoint {name : Option String} {point : Point K} {n : Node K} :
      Node.anchorPoint name point = .ok n → Built n
  | addAnchor {n n' : Node K} {name : String} {point : Point K} :
      Built n → n.addAnchor name point = .ok n' → Built n'
  | translate {n : Node K} (v : Offset K) : Built n → Built (n.translate v)

omit [Scalar K] in
theorem checkName_eq_ok {name name' : Option String}
    (h : (checkName name : Except (AnchorError K) (Option String)) = .ok name') :
    name' = name ∧ ∀ s, name = some s → Name.isValid s = true := by
  unfold checkName at h
  split at h
  · cases h
    simp
  · split_ifs at h with hv
    cases h
    simpa using hv

theorem name_of_ofDrawables {drawables : List (Drawable K)} {name : Option String} {n : Node K}
    (h : ofDrawables drawables name = .ok n) :
    n.name = name ∧ ∀ s, name = some s → Name.isValid s = true := by
  obtain ⟨name', hc, hn⟩ := bind_eq_ok.mp h
  cases hn
  exact checkName_eq_ok hc

theorem geometry_of_ofDrawables {drawables : List (Drawable K)} {name : Option String} {n : Node K}
    (h : ofDrawables drawables name = .ok n) :
    n.geometry = geometryOf (drawables.flatMap Drawable.anchorSegments) := by
  obtain ⟨name', -, h⟩ := bind_eq_ok.mp h
  cases h
  rfl

theorem name_of_anchorPoint {name : Option String} {point : Point K} {n : Node K}
    (h : anchorPoint name point = .ok n) :
    n.name = name ∧ ∀ s, name = some s → Name.isValid s = true := by
  obtain ⟨name', hc, hn⟩ := bind_eq_ok.mp h
  cases hn
  exact checkName_eq_ok hc

omit [Scalar K] in
theorem eq_of_addAnchor {n n' : Node K} {name : String} {point : Point K}
    (h : n.addAnchor name point = .ok n') :
    Name.isValid name = true ∧ AnchorKey.isBuiltinName name = false ∧
      n' = { n with anchors := n.anchors.insert name point } := by
  unfold addAnchor at h
  split_ifs at h with hv
  cases h
  simpa [and_assoc] using hv

theorem Built.isValid_name {n : Node K} (h : n.Built) {name : String} (hn : n.name = some name) :
    Name.isValid name = true := by
  induction h with
  | ofDrawables h =>
    obtain ⟨rfl, hv⟩ := name_of_ofDrawables h
    exact hv name hn
  | ofSegments h =>
    obtain ⟨rfl, hv⟩ := name_of_ofDrawables h
    exact hv name hn
  | anchorPoint h =>
    obtain ⟨rfl, hv⟩ := name_of_anchorPoint h
    exact hv name hn
  | addAnchor _ h ih =>
    obtain ⟨-, -, rfl⟩ := eq_of_addAnchor h
    exact ih hn
  | translate v _ ih => exact ih hn

end Node

end Drafting
