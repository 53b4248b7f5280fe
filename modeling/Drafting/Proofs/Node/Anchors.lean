import Drafting.Binary64
import Drafting.Proofs.AnchorKey
import Drafting.Proofs.Node.Built
import Drafting.Shape

/-!
# Explicit anchors

An explicit anchor is found again under its custom key, and giving it to a node
changes no other key. The text of its name is another matter: names and keys are read
by the same grammar but a key tries numbers first, and the check of anchor names
excludes the builtin words only. The name `3` is a length and `90deg` a direction, so
an anchor of such a name cannot be looked up by it.
-/

namespace Drafting

variable {K : Type} [Scalar K]

namespace Node

theorem resolve_insert_of_ne (n : Node K) {name : String} (point : Point K) {key : AnchorKey K}
    (h : key ≠ .custom name) :
    ({ n with anchors := n.anchors.insert name point } : Node K).resolve key = n.resolve key := by
  cases key with
  | custom name' =>
    have hne : name ≠ name' := fun he => h (congrArg _ he.symm)
    simp only [resolve, Std.ExtTreeMap.getElem?_insert, Std.LawfulEqCmp.compare_eq_iff_eq, hne,
      if_false]
  | _ => rfl

theorem resolve_insert_self (n : Node K) (name : String) (point : Point K) :
    ({ n with anchors := n.anchors.insert name point } : Node K).resolve (.custom name) =
      .ok point := by
  simp [resolve]

/-- What the keys of a node mean after an explicit anchor has been given to it. The text
of its name finds the anchor unless it is that of a numeric key; then it means what it
meant before. -/
theorem anchor_addAnchor {n n' : Node K} {name : String} {point : Point K}
    (h : n.addAnchor name point = .ok n') :
    n'.resolve (.custom name) = .ok point ∧
      (∀ key, key ≠ .custom name → n'.resolve key = n.resolve key) ∧
      ((AnchorKey.parse name : AnchorKey K) = .custom name ↔
        ¬ AnchorKey.IsNumericText K name.toList) ∧
      (¬ AnchorKey.IsNumericText K name.toList → n'.anchor name = .ok point) ∧
      (AnchorKey.IsNumericText K name.toList → n'.anchor name = n.anchor name) := by
  obtain ⟨hv, hb, rfl⟩ := eq_of_addAnchor h
  have hkey := AnchorKey.parse_eq_custom_iff (K := K) hv hb
  refine ⟨n.resolve_insert_self name point, fun key => n.resolve_insert_of_ne point, hkey,
    fun hn => ?_, fun hn => ?_⟩
  · rw [anchor, hkey.mpr hn, resolve_insert_self]
  · exact n.resolve_insert_of_ne point fun he => hkey.mp he hn

/-- On a square the anchor `tip` is found by its name, and the anchor `3` is not: that
text stays the length it was before. -/
theorem anchor_addAnchor_square :
    ∃ n tip three : Node Float,
      ofSegments (Shape.rectangle ⟨0, 0⟩ ⟨2, 2⟩) none = .ok n ∧
      n.addAnchor "tip" ⟨9, 9⟩ = .ok tip ∧ tip.anchor "tip" = .ok ⟨9, 9⟩ ∧
      n.addAnchor "3" ⟨9, 9⟩ = .ok three ∧ three.resolve (.custom "3") = .ok ⟨9, 9⟩ ∧
      three.anchor "3" = n.anchor "3" := by
  obtain ⟨n, hn⟩ : ∃ n : Node Float,
      ofSegments (Shape.rectangle ⟨0, 0⟩ ⟨2, 2⟩) none = .ok n := ⟨_, rfl⟩
  have htip : n.addAnchor "tip" ⟨9, 9⟩ =
      .ok { n with anchors := n.anchors.insert "tip" ⟨9, 9⟩ } := rfl
  have hthree : n.addAnchor "3" ⟨9, 9⟩ =
      .ok { n with anchors := n.anchors.insert "3" ⟨9, 9⟩ } := rfl
  have hname : ¬ AnchorKey.IsNumericText Float "tip".toList :=
    (AnchorKey.parse_eq_custom_iff (by decide) (by decide)).mp rfl
  have hthree' : Text.Digits ['3'] := ⟨List.cons_ne_nil _ _, List.forall_mem_singleton.mpr rfl⟩
  have hnumber : AnchorKey.IsNumericText Float "3".toList :=
    ⟨['3'], [], _, rfl, .mk .none (.whole hthree') .none, .length, by decide⟩
  exact ⟨n, _, _, hn, htip, (anchor_addAnchor htip).2.2.2.1 hname, hthree,
    (anchor_addAnchor hthree).1, (anchor_addAnchor hthree).2.2.2.2 hnumber⟩

end Node

end Drafting
