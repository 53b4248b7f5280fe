import Drafting.Proofs.Context.Drawing
import Drafting.Proofs.Context.Reachable

/-!
# What a drawing registers

An operation registers at most one node: the one a draw call answers, or the one handed
to the context. Every other operation, and every call that fails, leaves the nodes, the
bounds and the sink alone, apart from the removal of a name. The ledger of a drawing lists
the registered nodes in order, those that were replaced or removed later included.
-/

namespace Drafting

variable {K S : Type}

/-- The nodes are the same, and so is what they left in the bounds and in the sink. -/
structure Context.SameDrawing (c c' : Context K S) : Prop where
  nodes_eq : c'.nodes = c.nodes
  handles_eq : c'.handles = c.handles
  unnamed_eq : c'.unnamed = c.unnamed
  bounds_eq : c'.bounds = c.bounds
  sink_eq : c'.sink = c.sink

theorem Context.SameDrawing.node?_eq {c c' : Context K S} (h : c.SameDrawing c') (name : String) :
    c'.node? name = c.node? name := by
  rw [node?, h.nodes_eq, node?]

variable [Scalar K] [Sink K S]

namespace Operation

def registered : Operation K → Context K S → Option (Node K)
  | call k, c =>
    match k.act c with
    | .ok (.node n) _ => some n
    | _ => none
  | addNode node, _ => some node
  | _, _ => none

/-- What becomes of the nodes: one is registered, a name is removed, or nothing changes. -/
inductive Registers (op : Operation K) (c : Context K S) : Option (Node K) → Context K S → Prop
  | node (n : Node K) (q : Point K) (hn : n.Built) :
      Registers op c (some n) (({ c with current := q } : Context K S).addNode n)
  | removal (name : String) (h : op = removeNode name) : Registers op c none (c.removeNode name).2
  | nothing {c' : Context K S} (h : c.SameDrawing c') : Registers op c none c'

theorem registers (op : Operation K) (hop : op.Admissible) (c : Context K S) :
    Registers op c (op.registered c) (op.apply c) := by
  cases op with
  | call k =>
    have hk := k.outcome c
    simp only [apply, registered]
    generalize k.act c = r at hk ⊢
    cases hk with
    | failed e => exact .nothing ⟨rfl, rfl, rfl, rfl, rfl⟩
    | moved p q => exact .nothing ⟨rfl, rfl, rfl, rfl, rfl⟩
    | transformed t => exact .nothing ⟨rfl, rfl, rfl, rfl, rfl⟩
    | drawn n q hn => exact .node n q hn
  | addNode node => exact .node node c.current hop
  | removeNode name => exact .removal name rfl
  | restoreTransform =>
    refine .nothing ?_
    change c.SameDrawing c.restoreTransform.2
    unfold Context.restoreTransform
    split <;> exact ⟨rfl, rfl, rfl, rfl, rfl⟩
  | resetTransform => exact .nothing ⟨rfl, rfl, rfl, rfl, rfl⟩
  | setStyle style => exact .nothing ⟨rfl, rfl, rfl, rfl, rfl⟩
  | registerKind kind builder => exact .nothing ⟨rfl, rfl, rfl, rfl, rfl⟩

end Operation

namespace Call

def name? : Call K → Option String
  | line _ options | rect _ _ options | circle _ _ _ options | bezier _ _ _ options
  | mark _ _ options | draw _ _ options => options.name
  | anchor name _ => some name
  | _ => none

variable {k : Call K} {c c' : Context K S} {n : Node K}

omit [Sink K S] in
theorem Builds.name_eq {points : List (Point K)} (h : Builds c k points n) : n.name = k.name? := by
  have named {kind : String} {segments : List (Segment K)} {options : DrawOptions} {n : Node K}
      (h : Action.build c kind segments options = .ok n) : n.name = options.name := by
    obtain ⟨d, -, hn⟩ := bind_eq_ok.mp h
    exact (Node.name_of_ofDrawables (mapError_eq_ok.mp hn)).1
  cases h with
  | line _ hn => exact named hn
  | rect hn => exact named hn
  | circle _ hn => exact named hn
  | @bezier _ _ _ options _ _ _ _ _ _ _ hm hn =>
    refine Action.addControls_induction (P := fun n => n.name = options.name) ?_ (named hm) hn
    intro n n' name point hname h
    obtain ⟨-, -, rfl⟩ := Node.eq_of_addAnchor h
    exact hname
  | mark _ hn => exact named hn
  | anchor hn => exact (Node.name_of_anchorPoint hn).1
  | draw hn => exact named hn

theorem name_of_act (h : k.act c = .ok (.node n) c') : n.name = k.name? := by
  obtain @⟨points, d, m, n, -, hm, hn⟩ := act_eq_node_iff.mp h
  have hplaced : n.name = m.name := by
    cases hk : k.placement? with
    | none =>
      rw [hk] at hn
      cases hn
      rfl
    | some key =>
      rw [hk] at hn
      obtain ⟨p, -, hn⟩ := bind_eq_ok.mp hn
      cases hn
      rfl
  exact hplaced.trans hm.name_eq

theorem act_of_registered (h : Operation.registered (.call k) c = some n) :
    ∃ c', k.act c = .ok (.node n) c' := by
  simp only [Operation.registered] at h
  split at h
  · next m c' hact =>
    cases h
    exact ⟨c', hact⟩
  · cases h

end Call

namespace Context

/-- The context can be reached, and these are the nodes registered on the way, in order. -/
inductive Ledger : Context K S → List (Node K) → Prop
  | start (sink : S) (historySize : Nat) (style : Style) :
      Ledger (start sink historySize style) []
  | apply {c : Context K S} {ns : List (Node K)} {op : Operation K} :
      Ledger c ns → op.Admissible → Ledger (op.apply c) (ns ++ (op.registered c).toList)
  | changeSink {c : Context K S} {ns : List (Node K)} (sink : S) :
      Ledger c ns → Ledger { c with sink } ns
  | changeRegistry {c : Context K S} {ns : List (Node K)} (registry : DrawableRegistry K) :
      Ledger c ns → Ledger { c with registry } ns

variable {c : Context K S} {ns : List (Node K)}

def registeredAlong : Context K S → List (Operation K) → List (Node K)
  | _, [] => []
  | c, op :: ops => (op.registered c).toList ++ registeredAlong (op.apply c) ops

theorem Ledger.run (h : c.Ledger ns) {ops : List (Operation K)}
    (hops : ∀ op ∈ ops, op.Admissible) : (c.run ops).Ledger (ns ++ c.registeredAlong ops) := by
  induction ops generalizing c ns with
  | nil => simpa [registeredAlong] using h
  | cons op ops ih =>
    rw [List.forall_mem_cons] at hops
    rw [run_cons, registeredAlong, ← List.append_assoc]
    exact ih (h.apply hops.1) hops.2

theorem Ledger.reachable (h : c.Ledger ns) : c.Reachable := by
  induction h with
  | start sink historySize style => exact .start sink historySize style
  | apply _ hop ih => exact ih.apply hop
  | changeSink sink _ ih => exact ih.changeSink sink
  | changeRegistry registry _ ih => exact ih.changeRegistry registry

theorem Reachable.exists_ledger (h : c.Reachable) : ∃ ns, c.Ledger ns := by
  induction h with
  | start sink historySize style => exact ⟨[], .start sink historySize style⟩
  | apply _ hop ih =>
    obtain ⟨ns, hns⟩ := ih
    exact ⟨_, hns.apply hop⟩
  | changeSink sink _ ih =>
    obtain ⟨ns, hns⟩ := ih
    exact ⟨ns, hns.changeSink sink⟩
  | changeRegistry registry _ ih =>
    obtain ⟨ns, hns⟩ := ih
    exact ⟨ns, hns.changeRegistry registry⟩

def Live (c : Context K S) (n : Node K) : Prop := ∃ s, (c.slot? s).map Registered.node = some n

section
variable {c' : Context K S} {m n : Node K}

omit [Scalar K] [Sink K S] in
theorem live_of_node? {name : String} (h : c.node? name = some n) : c.Live n :=
  ⟨.named name, by simp [slot?, h]⟩

omit [Scalar K] [Sink K S] in
theorem live_of_mem_unnamed {r : Registered K} (h : r ∈ c.unnamed) : c.Live r.node := by
  obtain ⟨i, hi⟩ := List.mem_iff_getElem?.mp h
  exact ⟨.unnamed i, by simp [slot?, hi]⟩

omit [Scalar K] [Sink K S] in
theorem SameDrawing.slot?_eq (h : c.SameDrawing c') (s : Slot) : c'.slot? s = c.slot? s := by
  cases s with
  | named name => simp only [slot?, h.node?_eq, handlesOf, h.handles_eq]
  | unnamed i => simp only [slot?, h.unnamed_eq]

omit [Scalar K] [Sink K S] in
theorem Live.of_sameDrawing (hn : c'.Live n) (h : c.SameDrawing c') : c.Live n := by
  obtain ⟨s, hs⟩ := hn
  exact ⟨s, by rwa [h.slot?_eq] at hs⟩

omit [Scalar K] in
theorem Live.of_removeNode {name : String} (h : (c.removeNode name).2.Live n) : c.Live n := by
  obtain ⟨s, hs⟩ := h
  rw [slot?_removeNode, Function.update_apply] at hs
  split_ifs at hs
  · cases hs
  · exact ⟨s, hs⟩

theorem Live.of_addNode (h : (c.addNode n).Live m) : m = n ∨ c.Live m := by
  obtain ⟨s, hs⟩ := h
  rw [slot?_addNode, Function.update_apply] at hs
  split_ifs at hs
  · exact .inl (Option.some.inj hs).symm
  · exact .inr ⟨s, hs⟩

end

/-- By induction on the drawing: what is kept was registered. -/
theorem Ledger.mem_of_live (h : c.Ledger ns) {n : Node K} (hn : c.Live n) : n ∈ ns := by
  induction h with
  | start sink historySize style =>
    obtain ⟨s, hs⟩ := hn
    cases s <;> simp [Context.start, slot?, node?] at hs
  | @apply c ns op _ hop ih =>
    have hreg := op.registers hop c
    generalize op.apply c = c', op.registered c = registered at hreg hn ⊢
    rw [List.mem_append]
    cases hreg with
    | node m q hm =>
      rcases hn.of_addNode with rfl | hn
      · exact .inr List.mem_cons_self
      · exact .inl (ih hn)
    | removal name h => exact .inl (ih hn.of_removeNode)
    | nothing h => exact .inl (ih (hn.of_sameDrawing h))
  | changeSink sink _ ih => exact ih hn
  | changeRegistry registry _ ih => exact ih hn

end Context

end Drafting
