import Drafting.Proofs.Context.Consistency

/-!
# Reachable contexts

A drawing starts with any sink, size of the history and style. Every operation may
follow, whether it fails or not, and between two of them the caller may change the sink
and the registry as it likes. What holds of every context that comes about in this way
is proved by one induction on how it did.
-/

namespace Drafting

variable {K S : Type} [Scalar K] [Sink K S]

namespace Operation

/-- What an operation can make of a context, whichever it is and whether it fails or not. -/
inductive Step (c : Context K S) : Context K S → Prop
  | stayed : Step c c
  | moved (q : Point K) : Step c { c with current := q }
  | transformed (t : Transform K) : Step c (c.replaceTransform t)
  | restored (t : Transform K) (rest : List (Transform K)) (h : c.history = t :: rest) :
      Step c { c with transform := t, history := rest }
  | registered (n : Node K) (q : Point K) (hn : n.Built) :
      Step c (({ c with current := q } : Context K S).addNode n)
  | removed (name : String) : Step c (c.removeNode name).2
  | styled (style : Style) : Step c { c with style }
  | extended (registry : DrawableRegistry K) : Step c { c with registry }

theorem step (op : Operation K) (hop : op.Admissible) (c : Context K S) :
    Step c (op.apply c) := by
  cases op with
  | call k =>
    have hk := k.outcome c
    simp only [apply]
    generalize k.act c = r at hk ⊢
    cases hk with
    | failed e => exact .stayed
    | moved p q => exact .moved q
    | transformed t => exact .transformed t
    | drawn n q hn => exact .registered n q hn
  | addNode node => exact .registered node c.current hop
  | removeNode name => exact .removed name
  | restoreTransform =>
    change Step c c.restoreTransform.2
    unfold Context.restoreTransform
    cases h : c.history with
    | nil => exact .stayed
    | cons t rest => exact .restored t rest h
  | resetTransform => exact .transformed _
  | setStyle style => exact .styled style
  | registerKind kind builder => exact .extended _

end Operation

namespace Context

inductive Reachable : Context K S → Prop
  | start (sink : S) (historySize : Nat) (style : Style) :
      Reachable (start sink historySize style)
  | apply {c : Context K S} {op : Operation K} :
      Reachable c → op.Admissible → Reachable (op.apply c)
  | changeSink {c : Context K S} (sink : S) : Reachable c → Reachable { c with sink }
  | changeRegistry {c : Context K S} (registry : DrawableRegistry K) :
      Reachable c → Reachable { c with registry }

theorem Reachable.run {c : Context K S} (hc : c.Reachable) {ops : List (Operation K)}
    (hops : ∀ op ∈ ops, op.Admissible) : (c.run ops).Reachable := by
  induction ops generalizing c with
  | nil => exact hc
  | cons op ops ih =>
    exact ih (hc.apply (hops op List.mem_cons_self)) fun op' hm =>
      hops op' (List.mem_cons_of_mem op hm)

theorem NamesAgree.apply {c : Context K S} (hc : c.NamesAgree) {op : Operation K}
    (hop : op.Admissible) : (op.apply c).NamesAgree := by
  have hstep := op.step hop c
  generalize op.apply c = c' at hstep ⊢
  cases hstep with
  | registered n q hn =>
    have hq : ({ c with current := q } : Context K S).NamesAgree := hc
    exact hq.addNode fun _ => hn.isValid_name
  | removed name => exact hc.removeNode name
  | _ => exact hc

theorem Reachable.namesAgree {c : Context K S} (hc : c.Reachable) : c.NamesAgree := by
  induction hc with
  | start sink historySize style =>
    intro name node hn
    simp [Context.start, node?] at hn
  | apply _ hop ih => exact ih.apply hop
  | changeSink sink _ ih => exact ih
  | changeRegistry registry _ ih => exact ih

end Context

end Drafting
