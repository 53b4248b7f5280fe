import Drafting.Proofs.Context.History
import Drafting.Proofs.Context.Registration

/-!
# What an operation leaves alone

A registered node changes only when another node is registered under its name or the name
is removed, whatever else is drawn, fails or happens to the transforms in between. So the
anchors of the node keep their points, which were made absolute when it was drawn.

Drawing and the settings are apart: drawing reads the transforms, the default style and the
registry and writes none of them, and an operation on the transforms writes nothing else.
-/

namespace Drafting

variable {K S : Type}

structure Context.SameSettings (c c' : Context K S) : Prop extends c.SameTransforms c' where
  style_eq : c'.style = c.style
  registry_eq : c'.registry = c.registry

structure Context.SameButTransforms (c c' : Context K S) : Prop extends c.SameDrawing c' where
  current_eq : c'.current = c.current
  style_eq : c'.style = c.style
  registry_eq : c'.registry = c.registry

namespace Operation

/-- The operations that resolve positions, draw, register or remove nodes. -/
def IsDrawing : Operation K → Prop
  | call (.transform _) => False
  | call _ | addNode _ | removeNode _ => True
  | _ => False

def IsTransform : Operation K → Prop
  | call (.transform _) | restoreTransform | resetTransform => True
  | _ => False

end Operation

def Operation.Mentions (name : String) : Operation K → Prop
  | call k => k.name? = some name
  | addNode node => node.name = some name
  | removeNode name' => name' = name
  | _ => False

variable [Scalar K] [Sink K S]

namespace Context

omit [Scalar K] [Sink K S] in
theorem SameSettings.refl (c : Context K S) : c.SameSettings c := ⟨⟨rfl, rfl, rfl⟩, rfl, rfl⟩

omit [Scalar K] [Sink K S] in
theorem SameSettings.trans {c d e : Context K S} (h : c.SameSettings d) (h' : d.SameSettings e) :
    c.SameSettings e where
  transform_eq := h'.transform_eq.trans h.transform_eq
  history_eq := h'.history_eq.trans h.history_eq
  historySize_eq := h'.historySize_eq.trans h.historySize_eq
  style_eq := h'.style_eq.trans h.style_eq
  registry_eq := h'.registry_eq.trans h.registry_eq

omit [Scalar K] [Sink K S] in
theorem SameButTransforms.refl (c : Context K S) : c.SameButTransforms c :=
  ⟨⟨rfl, rfl, rfl, rfl, rfl⟩, rfl, rfl, rfl⟩

omit [Scalar K] [Sink K S] in
theorem SameButTransforms.trans {c d e : Context K S} (h : c.SameButTransforms d)
    (h' : d.SameButTransforms e) : c.SameButTransforms e where
  nodes_eq := h'.nodes_eq.trans h.nodes_eq
  handles_eq := h'.handles_eq.trans h.handles_eq
  unnamed_eq := h'.unnamed_eq.trans h.unnamed_eq
  bounds_eq := h'.bounds_eq.trans h.bounds_eq
  sink_eq := h'.sink_eq.trans h.sink_eq
  current_eq := h'.current_eq.trans h.current_eq
  style_eq := h'.style_eq.trans h.style_eq
  registry_eq := h'.registry_eq.trans h.registry_eq

theorem SameSettings.addNode (c : Context K S) (q : Point K) (n : Node K) :
    c.SameSettings (({ c with current := q } : Context K S).addNode n) := by
  unfold Context.addNode
  cases n.name <;> exact ⟨⟨rfl, rfl, rfl⟩, rfl, rfl⟩

end Context

namespace Operation

theorem sameSettings_of_isDrawing {op : Operation K} (h : op.IsDrawing) (c : Context K S) :
    c.SameSettings (op.apply c) := by
  cases op with
  | call k =>
    have hanswer (c' : Context K S) : k.act c ≠ .ok .done c' := by
      intro hdone
      obtain ⟨op, rfl⟩ := exists_transform_of_done hdone
      exact h
    have hk := k.outcome c
    simp only [apply]
    generalize k.act c = r at hanswer hk ⊢
    cases hk with
    | failed e => exact ⟨⟨rfl, rfl, rfl⟩, rfl, rfl⟩
    | moved p q => exact ⟨⟨rfl, rfl, rfl⟩, rfl, rfl⟩
    | transformed t => exact absurd rfl (hanswer _)
    | drawn n q hn => exact .addNode c q n
  | addNode node => exact .addNode c c.current node
  | removeNode name => exact ⟨⟨rfl, rfl, rfl⟩, rfl, rfl⟩
  | restoreTransform => exact h.elim
  | resetTransform => exact h.elim
  | setStyle style => exact h.elim
  | registerKind kind builder => exact h.elim

theorem sameButTransforms_of_isTransform {op : Operation K} (h : op.IsTransform)
    (c : Context K S) : c.SameButTransforms (op.apply c) := by
  cases op with
  | call k =>
    cases k
    case transform op =>
      rcases Action.changeTransform_cases op c with ⟨t, ht⟩ | ⟨e, he⟩
      · have hact : (Call.transform op).act c = .ok .done (c.replaceTransform t) :=
          Action.map_ok_iff.mpr ⟨(), ht, rfl⟩
        simp only [apply, hact]
        exact ⟨⟨rfl, rfl, rfl, rfl, rfl⟩, rfl, rfl, rfl⟩
      · have hact : (Call.transform op).act c = .error e c := Action.bind_of_error he
        simp only [apply, hact]
        exact .refl c
    all_goals exact h.elim
  | restoreTransform =>
    change c.SameButTransforms c.restoreTransform.2
    unfold Context.restoreTransform
    split <;> exact ⟨⟨rfl, rfl, rfl, rfl, rfl⟩, rfl, rfl, rfl⟩
  | resetTransform => exact ⟨⟨rfl, rfl, rfl, rfl, rfl⟩, rfl, rfl, rfl⟩
  | addNode node => exact h.elim
  | removeNode name => exact h.elim
  | setStyle style => exact h.elim
  | registerKind kind builder => exact h.elim

end Operation

namespace Context

theorem sameSettings_run (c : Context K S) {ops : List (Operation K)}
    (h : ∀ op ∈ ops, op.IsDrawing) : c.SameSettings (c.run ops) := by
  induction ops generalizing c with
  | nil => exact .refl c
  | cons op ops ih =>
    rw [List.forall_mem_cons] at h
    exact (op.sameSettings_of_isDrawing h.1 c).trans (ih (op.apply c) h.2)

theorem sameButTransforms_run (c : Context K S) {ops : List (Operation K)}
    (h : ∀ op ∈ ops, op.IsTransform) : c.SameButTransforms (c.run ops) := by
  induction ops generalizing c with
  | nil => exact .refl c
  | cons op ops ih =>
    rw [List.forall_mem_cons] at h
    exact (op.sameButTransforms_of_isTransform h.1 c).trans (ih (op.apply c) h.2)

/-- The second context comes about from the first, and on the way no node is registered
under the name and the name is not removed. -/
inductive Spares (name : String) (c : Context K S) : Context K S → Prop
  | refl : Spares name c c
  | apply {d : Context K S} {op : Operation K} : Spares name c d → op.Admissible →
      (∀ n, op.registered d = some n → n.name ≠ some name) → op ≠ .removeNode name →
      Spares name c (op.apply d)
  | changeSink {d : Context K S} (sink : S) : Spares name c d → Spares name c { d with sink }
  | changeRegistry {d : Context K S} (registry : DrawableRegistry K) :
      Spares name c d → Spares name c { d with registry }

variable {c d : Context K S} {name : String}

/-- The step: a node under another name and the removal of another name make no
difference. -/
theorem node?_apply {op : Operation K} (hop : op.Admissible)
    (hother : ∀ n, op.registered c = some n → n.name ≠ some name)
    (hkeep : op ≠ .removeNode name) : (op.apply c).node? name = c.node? name := by
  have hreg := op.registers hop c
  generalize op.apply c = c', op.registered c = registered at hreg hother ⊢
  cases hreg with
  | node n q _ =>
    rw [node?_addNode, if_neg (hother n rfl)]
    rfl
  | removal name' h =>
    have hne : name' ≠ name := by
      rintro rfl
      exact hkeep h
    rw [node?_removeNode, if_neg hne]
  | nothing h => exact h.node?_eq name

theorem Spares.node?_eq (h : c.Spares name d) : d.node? name = c.node? name := by
  induction h with
  | refl => rfl
  | apply _ hop hother hkeep ih => exact (node?_apply hop hother hkeep).trans ih
  | changeSink sink _ ih => exact ih
  | changeRegistry registry _ ih => exact ih

omit [Sink K S] in
theorem resolve_anchor_congr (h : d.node? name = c.node? name) (key : AnchorKey K) :
    d.frame.resolve (.anchor name key) = c.frame.resolve (.anchor name key) := by
  have h : d.frame.node? name = c.frame.node? name := h
  simp only [Frame.resolve, h]

/-- Calls for other names or for no name, other nodes, transforms and settings. -/
theorem Spares.of_not_mentions (h : c.Spares name d) {op : Operation K} (hop : op.Admissible)
    (hm : ¬ op.Mentions name) : c.Spares name (op.apply d) := by
  refine h.apply hop (fun n hn => ?_) ?_
  · cases op with
    | call k =>
      obtain ⟨d', hd'⟩ := Call.act_of_registered hn
      rw [Call.name_of_act hd']
      exact hm
    | addNode node =>
      cases hn
      exact hm
    | _ => cases hn
  · rintro rfl
    exact hm rfl

theorem Spares.run (h : c.Spares name d) {ops : List (Operation K)}
    (hops : ∀ op ∈ ops, op.Admissible ∧ ¬ op.Mentions name) : c.Spares name (d.run ops) := by
  induction ops generalizing d with
  | nil => exact h
  | cons op ops ih =>
    rw [List.forall_mem_cons] at hops
    exact ih (h.of_not_mentions hops.1.1 hops.1.2) hops.2

/-- A call that fails registers nothing, whatever name it asks for. -/
theorem Spares.of_error (h : c.Spares name d) {k : Call K} {e : DrawingError K}
    {d' : Context K S} (he : k.act d = .error e d') :
    c.Spares name ((Operation.call k).apply d) := by
  refine h.apply trivial (fun n hn => ?_) (fun h => by cases h)
  simp only [Operation.registered, he] at hn
  cases hn

/-- A registered node stays as it is while nothing is registered under its name and the name
is not removed, and so does the point or the error of each of its anchors. Drawing keeps the
settings, and operations on the transforms keep all but the transforms. -/
theorem registered_stable (c : Context K S) :
    (∀ name d, c.Spares name d → d.node? name = c.node? name ∧
      ∀ key, d.frame.resolve (.anchor name key) = c.frame.resolve (.anchor name key)) ∧
    (∀ ops : List (Operation K), (∀ op ∈ ops, op.IsDrawing) → c.SameSettings (c.run ops)) ∧
    ∀ ops : List (Operation K), (∀ op ∈ ops, op.IsTransform) → c.SameButTransforms (c.run ops) :=
  ⟨fun _ _ h => ⟨h.node?_eq, resolve_anchor_congr h.node?_eq⟩, fun _ => c.sameSettings_run,
    fun _ => c.sameButTransforms_run⟩

/-- A stroke is named. A line of that name fails since it has no points, the transform is
reset and an unnamed stroke is drawn, and the name still means the first stroke. -/
theorem registered_stable_stroke :
    let stroke : Segment Float := .polyline [⟨0, 0⟩, ⟨1, 0⟩] (Nat.le_refl 2)
    let failing : Call Float := .line [] ⟨some "s", none, Style.empty⟩
    ∃ n m, Node.ofSegments [stroke] (some "s") = .ok n ∧ Node.ofSegments [stroke] none = .ok m ∧
      let c : Context Float (Recording Float) :=
        (Context.start Recording.empty 15 Style.empty).addNode n
      let d := c.run [.call failing, .resetTransform, .addNode m]
      failing.act c = .error (.path (.tooFewPoints 0)) c ∧ d.node? "s" = some n ∧
        c.SameButTransforms (c.run [.resetTransform]) ∧ c.SameSettings (c.run [.addNode m]) := by
  intro stroke failing
  obtain ⟨n, hn⟩ : ∃ n, Node.ofSegments [stroke] (some "s") = .ok n := ⟨_, rfl⟩
  obtain ⟨m, hm⟩ : ∃ m, Node.ofSegments [stroke] none = .ok m := ⟨_, rfl⟩
  refine ⟨n, m, hn, hm, ?_⟩
  intro c d
  have hfails : failing.act c = .error (.path (.tooFewPoints 0)) c := rfl
  have hspares : c.Spares "s" d := by
    have hstart : c.Spares "s" c := .refl
    have hline := hstart.of_error hfails
    have hunnamed : ¬ (Operation.addNode m).Mentions "s" := by
      rw [Operation.Mentions, (Node.name_of_ofDrawables hm).1]
      exact nofun
    have hops : ∀ op ∈ [Operation.resetTransform, .addNode m],
        op.Admissible ∧ ¬ op.Mentions "s" :=
      List.forall_mem_cons.mpr ⟨⟨trivial, id⟩, List.forall_mem_singleton.mpr
        ⟨.ofSegments hm, hunnamed⟩⟩
    change c.Spares "s" (((Operation.call failing).apply c).run [.resetTransform, .addNode m])
    exact hline.run hops
  obtain ⟨hnodes, hdrawing, htransform⟩ := c.registered_stable
  refine ⟨hfails, ?_, htransform _ ?_, hdrawing _ ?_⟩
  · rw [(hnodes "s" d hspares).1, node?_addNode, if_pos (Node.name_of_ofDrawables hn).1]
  · exact List.forall_mem_singleton.mpr trivial
  · exact List.forall_mem_singleton.mpr trivial

end Context

end Drafting
