import Drafting.Proofs.Context.Placement
import Drafting.Proofs.Node.Extent
import Drafting.Proofs.Node.Image
import Drafting.Proofs.Context.Registration

/-!
# The bounds of a drawing

The box of a node is the box of all defining points of its drawables, marks included, or of
its own point when it draws nothing. It is computed before the node is placed and moved
along with it, which is the same as long as no coordinate leaves the range of the scalars.
Every registration adds the box of its node to the bounds. So the bounds are the box of the
points of all nodes ever registered, in any order, and nothing is ever taken out of them.
-/

namespace Drafting

section

variable [ExactTables]

namespace Node

/-- A built node none of whose moves has taken a point out of range. -/
inductive BuiltInRange : Node ℝ → Prop
  | ofDrawables {drawables : List (Drawable ℝ)} {name : Option String} {n : Node ℝ} :
      Node.ofDrawables drawables name = .ok n → BuiltInRange n
  | ofSegments {segments : List (Segment ℝ)} {name : Option String} {n : Node ℝ} :
      Node.ofSegments segments name = .ok n → BuiltInRange n
  | anchorPoint {name : Option String} {point : Point ℝ} {n : Node ℝ} :
      Node.anchorPoint name point = .ok n → BuiltInRange n
  | addAnchor {n n' : Node ℝ} {name : String} {point : Point ℝ} :
      BuiltInRange n → n.addAnchor name point = .ok n' → BuiltInRange n'
  | translate {n : Node ℝ} (v : Offset ℝ) (h : ∀ p ∈ n.extent, p.InRange ∧ (p + v).InRange) :
      BuiltInRange n → BuiltInRange (n.translate v)

theorem BuiltInRange.box_eq {n : Node ℝ} (h : n.BuiltInRange) : n.box = Box.ofPoints n.extent := by
  induction h with
  | ofDrawables h => exact box_of_ofDrawables h
  | ofSegments h => exact box_of_ofDrawables h
  | anchorPoint h => exact box_of_anchorPoint h
  | addAnchor _ h ih =>
    obtain ⟨-, -, rfl⟩ := eq_of_addAnchor h
    exact ih
  | @translate n v h _ ih =>
    rw [extent_translate, Box.ofPoints_map_add (fun p hp => (h p hp).1) fun p hp => (h p hp).2, ← ih]
    rfl

end Node

variable {S : Type} [Sink ℝ S]

namespace Call

variable {k : Call ℝ} {c c' : Context ℝ S} {n : Node ℝ}

omit [Sink ℝ S] in
/-- Before it is placed no node is moved. -/
theorem Builds.builtInRange {points : List (Point ℝ)} (h : Builds c k points n) :
    n.BuiltInRange := by
  have made {kind : String} {segments : List (Segment ℝ)} {options : DrawOptions} {n : Node ℝ}
      (h : Action.build c kind segments options = .ok n) : n.BuiltInRange := by
    obtain ⟨d, -, hn⟩ := bind_eq_ok.mp h
    exact .ofDrawables (mapError_eq_ok.mp hn)
  cases h with
  | line _ hn => exact made hn
  | rect hn => exact made hn
  | circle _ hn => exact made hn
  | bezier _ hm hn =>
    exact Action.addControls_induction (fun _ _ _ _ => .addAnchor) (made hm) hn
  | mark _ hn => exact made hn
  | anchor hn => exact .anchorPoint hn
  | draw hn => exact made hn

/-- No range is left when the points of the node are in range, and those of the node that
the same call without a placement anchor draws. -/
theorem builtInRange (h : k.act c = .ok (.node n) c')
    (hunplaced : ∀ m d, k.unplaced.act c = .ok (.node m) d → ∀ p ∈ m.extent, p.InRange)
    (hplaced : ∀ p ∈ n.extent, p.InRange) : n.BuiltInRange := by
  obtain @⟨points, d, m, n, hpoints, hm, hn⟩ := act_eq_node_iff.mp h
  cases hk : k.placement? with
  | none =>
    rw [hk] at hn
    cases hn
    exact hm.builtInRange
  | some key =>
    rw [hk] at hn
    obtain ⟨q, -, rfl⟩ := Action.placed_some hn
    have hsame : k.unplaced.act c = .ok (.node m) (d.addNode m) := by
      rw [act_eq_node_iff]
      refine .mk (?_ : Action.resolveEach k.unplaced.positions c = _) hm.unplaced ?_
      · rw [k.positions_unplaced, hpoints]
      · rw [k.placement?_unplaced]
        rfl
    refine .translate _ (fun p hp => ⟨hunplaced m _ hsame p hp, hplaced _ ?_⟩) hm.builtInRange
    rw [Node.extent_translate]
    exact List.mem_map_of_mem hp

end Call

theorem Node.anchor_end {n : Node ℝ} {s : Segment ℝ} (h : n.geometry = geometryOf [s]) :
    n.anchor "end" = .ok s.finish := by
  have hparse : (AnchorKey.parse "end" : AnchorKey ℝ) = .finish := rfl
  rw [geometryOf_singleton] at h
  rw [anchor, hparse, resolve, pointAtFraction, h, Path.pointAtFraction_one rfl]
  rfl

/-- A stroke between two points, and the same stroke placed by its end. -/
theorem Call.act_stroke {c : Context ℝ S} (htransform : c.transform = Transform.identity)
    (hregistry : c.registry = DrawableRegistry.standard) {name : String}
    (hname : Name.isValid name = true) (p q : Point ℝ) :
    let stroke (anchor : Option String) : Call ℝ :=
      .line [.ofPoint p, .ofPoint q] ⟨some name, anchor, Style.empty⟩
    ∃ m, m.extent = [p, q] ∧ (∃ d, (stroke none).act c = .ok (.node m) d) ∧
      ∃ d, (stroke (some "end")).act c = .ok (.node (m.translate (p - q))) d := by
  intro stroke
  have hmove (p : Point ℝ) {c : Context ℝ S} (hc : c.transform = Transform.identity) :
      Action.moveTo (.ofPoint p) c = .ok p { c with current := p } := by
    rw [Action.moveTo_ofPoint, hc, Transform.apply_identity]
  have hpoints : Action.resolveEach [.ofPoint p, .ofPoint q] c =
      .ok [p, q] { c with current := q } :=
    Action.resolveEach_cons_cons_ok_iff.mpr ⟨_, hmove p htransform,
      Action.resolveEach_singleton_ok_iff.mpr (hmove q htransform)⟩
  let segment : Segment ℝ := .polyline [p, q] (by simp)
  let drawable : Drawable ℝ := ⟨.path, ⟨[segment]⟩, c.style.overlay Style.empty⟩
  obtain ⟨m, hm⟩ : ∃ m, Node.ofDrawables [drawable] (some name) = .ok m :=
    ⟨_, bind_eq_ok.mpr ⟨some name, if_pos hname, rfl⟩⟩
  have hbuild (anchor : Option String) :
      Builds { c with current := q } (stroke anchor) [p, q] m := by
    refine .line rfl (bind_eq_ok.mpr ⟨drawable, ?_, mapError_eq_ok.mpr hm⟩)
    rw [hregistry]
    rfl
  have hmade : m.geometry = Node.geometryOf [segment] ∧ m.extent = [p, q] := by
    obtain ⟨name', -, hm⟩ := bind_eq_ok.mp hm
    cases hm
    exact ⟨rfl, rfl⟩
  have hplaced : Action.placed m p (some "end") = .ok (m.translate (p - q)) :=
    bind_eq_ok.mpr ⟨q, Node.anchor_end hmade.1, rfl⟩
  exact ⟨m, hmade.2, ⟨_, act_eq_node_iff.mpr (.mk hpoints (hbuild none) rfl)⟩,
    ⟨_, act_eq_node_iff.mpr (.mk hpoints (hbuild (some "end")) hplaced)⟩⟩

namespace Context

variable {c : Context ℝ S} {ns : List (Node ℝ)}

theorem bounds_addNode (c : Context ℝ S) (n : Node ℝ) :
    (c.addNode n).bounds = c.bounds.union n.box := by
  unfold addNode
  cases n.name <;> rfl

theorem Ledger.bounds_eq (h : c.Ledger ns) (hr : ∀ n ∈ ns, n.BuiltInRange) :
    c.bounds = Box.ofPoints (ns.flatMap Node.extent) := by
  induction h with
  | start sink historySize style => rfl
  | @apply c ns op _ hop ih =>
    have hreg := op.registers hop c
    generalize op.apply c = c', op.registered c = registered at hreg hr ⊢
    rw [List.forall_mem_append] at hr
    have hc := ih hr.1
    cases hreg with
    | node n q _ =>
      have hbox := (hr.2 n List.mem_cons_self).box_eq
      rw [bounds_addNode, hc, hbox, Box.ofPoints_union, List.flatMap_append, Option.toList_some,
        List.flatMap_singleton]
    | removal name h =>
      rw [Option.toList_none, List.append_nil]
      exact hc
    | nothing h =>
      rw [Option.toList_none, List.append_nil, h.bounds_eq]
      exact hc
  | changeSink sink _ ih => exact ih hr
  | changeRegistry registry _ ih => exact ih hr

/-- The step: whether a node is registered, replaced or removed, no bound moves inwards. -/
theorem bounds_within_apply (c : Context ℝ S) {op : Operation ℝ} (hop : op.Admissible) :
    c.bounds.Within (op.apply c).bounds := by
  have hreg := op.registers hop c
  generalize op.apply c = c', op.registered c = registered at hreg ⊢
  cases hreg with
  | node n q _ =>
    rw [bounds_addNode]
    exact Box.within_union c.bounds n.box
  | removal name h => exact .refl _
  | nothing h =>
    rw [h.bounds_eq]
    exact .refl _

theorem bounds_within_run (c : Context ℝ S) {ops : List (Operation ℝ)}
    (hops : ∀ op ∈ ops, op.Admissible) : c.bounds.Within (c.run ops).bounds := by
  induction ops generalizing c with
  | nil => exact .refl _
  | cons op ops ih =>
    rw [List.forall_mem_cons] at hops
    exact (c.bounds_within_apply hops.1).trans (ih (op.apply c) hops.2)

/-- The bounds are the box of the points of all nodes ever registered, and empty when there
is no such point. They depend on which nodes were registered only, they are around every
node that is still there, and no operation makes them smaller. -/
theorem Reachable.bounds_of_registered (hc : c.Reachable) : (∃ ns, c.Ledger ns) ∧
    ∀ ns, c.Ledger ns → (∀ n ∈ ns, n.BuiltInRange) →
      c.bounds = Box.ofPoints (ns.flatMap Node.extent) ∧
      (c.bounds.isEmpty = true ↔ ns.flatMap Node.extent = []) ∧
      (∀ (d : Context ℝ S) (ms : List (Node ℝ)), d.Ledger ms → (∀ n, n ∈ ms ↔ n ∈ ns) →
        d.bounds = c.bounds) ∧
      (∀ name n, c.node? name = some n → n.box.Within c.bounds) ∧
      (∀ r ∈ c.unnamed, r.node.box.Within c.bounds) ∧
      ∀ ops : List (Operation ℝ), (∀ op ∈ ops, op.Admissible) →
        c.bounds.Within (c.run ops).bounds := by
  refine ⟨hc.exists_ledger, fun ns h hr => ?_⟩
  have hbounds := h.bounds_eq hr
  have hlive {n : Node ℝ} (hn : c.Live n) : n.box.Within c.bounds := by
    have hmem := h.mem_of_live hn
    rw [hbounds, (hr n hmem).box_eq]
    exact Box.ofPoints_mono fun p hp => List.mem_flatMap.mpr ⟨n, hmem, hp⟩
  refine ⟨hbounds, ?_, fun d ms hd hsame => ?_, fun name n hn => hlive (live_of_node? hn),
    fun r hr => hlive (live_of_mem_unnamed hr), fun ops => c.bounds_within_run⟩
  · rw [hbounds]
    exact Box.isEmpty_ofPoints_iff
  · rw [hbounds, hd.bounds_eq fun n hn => hr n ((hsame n).mp hn)]
    exact (Box.ofPoints_mono (Node.flatMap_extent_subset fun n => (hsame n).mp)).antisymm
      (Box.ofPoints_mono (Node.flatMap_extent_subset fun n => (hsame n).mpr))

end Context

end

/-- A point is named, a stroke is placed by its end and its name is removed again. The
bounds keep both. -/
theorem Context.Reachable.bounds_of_registered_removed :
    let _ : ExactTables := ⟨[(0, 1)], fun _ => ⟨false, 0, 0⟩⟩
    let point : Call ℝ := .anchor "a" (.ofPoint ⟨1, 2⟩)
    let stroke : Call ℝ :=
      .line [.ofPoint ⟨4, -3⟩, .ofPoint ⟨6, -3⟩] ⟨some "s", some "end", Style.empty⟩
    let c : Context ℝ (Recording ℝ) := (Context.start Recording.empty 15 Style.empty).run
      [.call point, .call stroke, .removeNode "s"]
    c.node? "s" = none ∧ c.bounds = ⟨⟨1, -3⟩, ⟨4, 2⟩⟩ := by
  intro _ point stroke c
  let start : Context ℝ (Recording ℝ) := Context.start Recording.empty 15 Style.empty
  obtain ⟨a, ha⟩ : ∃ a, Node.anchorPoint (some "a") (⟨1, 2⟩ : Point ℝ) = .ok a := ⟨_, rfl⟩
  let d : Context ℝ (Recording ℝ) := ({ start with current := ⟨1, 2⟩ } : Context ℝ _).addNode a
  have hpoint : point.act start = .ok (.node a) d := by
    refine Call.act_eq_node_iff.mpr (.mk (Action.resolveEach_singleton_ok_iff.mpr ?_) (.anchor ha) rfl)
    rw [Action.moveTo_ofPoint, show start.transform.apply ⟨1, 2⟩ = ⟨1, 2⟩ from
      Transform.apply_identity _]
  have hregistry : d.registry = DrawableRegistry.standard := by
    cases ha
    rfl
  obtain ⟨m, hextent, ⟨d₁, hunplaced⟩, d₂, hstroke⟩ :=
    Call.act_stroke (transform_addNode _ a) hregistry (show Name.isValid "s" = true from rfl)
      ⟨4, -3⟩ ⟨6, -3⟩
  let n : Node ℝ := m.translate ((⟨4, -3⟩ : Point ℝ) - (⟨6, -3⟩ : Point ℝ))
  have hmoved : n.extent = [⟨2, -3⟩, ⟨4, -3⟩] := by
    rw [Node.extent_translate, hextent]
    change [(⟨4 + (4 - 6), -3 + (-3 - -3)⟩ : Point ℝ), ⟨6 + (4 - 6), -3 + (-3 - -3)⟩] = _
    norm_num
  have hledger : c.Ledger [a, n] := by
    have hops : ∀ op ∈ [Operation.call point, .call stroke, .removeNode "s"], op.Admissible := by
      simp [Operation.Admissible]
    have hfirst : (Operation.call point).apply start = d := by
      simp only [Operation.apply, hpoint]
    have hregistered :
        start.registeredAlong [Operation.call point, .call stroke, .removeNode "s"] = [a, n] := by
      simp only [registeredAlong, hfirst, Operation.registered, hpoint, stroke, hstroke]
      rfl
    have hrun := (Context.Ledger.start Recording.empty 15 Style.empty : start.Ledger []).run hops
    rw [hregistered] at hrun
    exact hrun
  have hs : (8 : ℝ) ≤ Scalar.sentinel := by norm_num [Scalar.sentinel]
  have near (x y : ℝ) (hx : |x| ≤ 8) (hy : |y| ≤ 8) : (⟨x, y⟩ : Point ℝ).InRange :=
    ⟨hx.trans hs, hy.trans hs⟩
  have hrange : ∀ n' ∈ [a, n], n'.BuiltInRange := by
    refine List.forall_mem_cons.mpr ⟨.anchorPoint ha, List.forall_mem_singleton.mpr ?_⟩
    refine Call.builtInRange hstroke (fun m' d' hm' => ?_) ?_
    · obtain ⟨hanswer, -⟩ := EStateM.Result.ok.inj (hm'.symm.trans hunplaced)
      obtain rfl := Answer.node.inj hanswer
      rw [hextent, List.forall_mem_cons, List.forall_mem_singleton]
      exact ⟨near 4 (-3) (by norm_num) (by norm_num), near 6 (-3) (by norm_num) (by norm_num)⟩
    · rw [hmoved, List.forall_mem_cons, List.forall_mem_singleton]
      exact ⟨near 2 (-3) (by norm_num) (by norm_num), near 4 (-3) (by norm_num) (by norm_num)⟩
  obtain ⟨-, hall⟩ := hledger.reachable.bounds_of_registered
  obtain ⟨hbounds, -⟩ := hall _ hledger hrange
  constructor
  · change (Context.removeNode _ "s").2.node? "s" = none
    rw [node?_removeNode, if_pos rfl]
  · have hpoints : [a, n].flatMap Node.extent = [⟨1, 2⟩, ⟨1, 2⟩, ⟨2, -3⟩, ⟨4, -3⟩] := by
      rw [List.flatMap_cons, List.flatMap_singleton, hmoved]
      cases ha
      rfl
    rw [hbounds, hpoints, Box.ofPoints_cons (near 1 2 (by norm_num) (by norm_num))]
    simp only [List.foldl_cons, List.foldl_nil, Box.insert_eq]
    norm_num

end Drafting
