import Drafting.Proofs.Context.Calls
import Drafting.Proofs.Node.Image
import Drafting.Proofs.Position.Resolve

/-!
# Calls under a transform

The same calls are run twice: once without a transform, and once with one in force and
the current point where the transform puts it. As long as positions mention no anchor
and nothing is placed by an anchor, the runs go side by side. Calls that move, draw
lines or draw curves succeed in both or fail in both for the same cause, and the nodes
they answer are mapped by the transform.

The relations between the two contexts and between their nodes are parameters. Any two
will do that know what calls read, that moving the current point and registering related
nodes keep, and that related segments lead to. With any registry the nodes at least have
the same names.
-/

namespace Drafting

section
variable {K S : Type} [Scalar K] [Sink K S]

/-- The call moves, draws a line or draws a curve, without any anchor. -/
def Call.Free : Call K → Prop
  | moveTo p => p.spec.Free
  | line positions options => (∀ p ∈ positions, p.spec.Free) ∧ options.anchor = none
  | bezier start finish controls options =>
    start.spec.Free ∧ finish.spec.Free ∧ (∀ p ∈ controls, p.spec.Free) ∧ options.anchor = none
  | _ => False

def Call.answer (k : Call K) (c : Context K S) : Except (DrawingError K) (Answer K) :=
  match k.act c with
  | .ok a _ => .ok a
  | .error e _ => .error e

def Context.answers : Context K S → List (Call K) → List (Except (DrawingError K) (Answer K))
  | _, [] => []
  | c, k :: ks => k.answer c :: answers ((Operation.call k).apply c) ks

end

variable {S S' α α' β β' : Type} {t : Transform ℝ} {N : Node ℝ → Node ℝ → Prop}

section
variable [ExactTables]

inductive Answer.Image (t : Transform ℝ) (N : Node ℝ → Node ℝ → Prop) : Answer ℝ → Answer ℝ → Prop
  | point (p : Point ℝ) : Image t N (.point p) (.point (t.apply p))
  | node {n n' : Node ℝ} : N n n' → Image t N (.node n) (.node n')

namespace Context

/-- As far as calls read the contexts, the second is the first one seen through a
transform. -/
structure Seen (t : Transform ℝ) (c : Context ℝ S) (c' : Context ℝ S') : Prop where
  identity : c.transform = Transform.identity
  transform : c'.transform = t
  current : c'.current = t.apply c.current
  style : c'.style = c.style
  registry : c'.registry = c.registry

/-- Lines and curves are drawn by the builder of paths that a context starts with. -/
def Standard (c : Context ℝ S) : Prop :=
  c.registry.builders["path"]? = some DrawableKind.path.build

/-- The relation `I` of contexts knows what calls read, moving the current point and
registering nodes related by `N` keep it, and nodes built alike are related by `N`. -/
structure Kept [Sink ℝ S] [Sink ℝ S'] (t : Transform ℝ) (N : Node ℝ → Node ℝ → Prop)
    (I : Context ℝ S → Context ℝ S' → Prop) : Prop where
  seen {c : Context ℝ S} {c' : Context ℝ S'} : I c c' → Seen t c c'
  move {c : Context ℝ S} {c' : Context ℝ S'} (p : Point ℝ) :
    I c c' → I { c with current := p } { c' with current := t.apply p }
  register {c : Context ℝ S} {c' : Context ℝ S'} {n n' : Node ℝ} :
    I c c' → N n n' → I (c.addNode n) (c'.addNode n')
  build {c : Context ℝ S} {c' : Context ℝ S'} (s : Segment ℝ) (options : DrawOptions) :
    I c c' → Alike N (Action.build c "path" [s] options)
      (Action.build c' "path" [s.transform t] options)
  anchor {n n' : Node ℝ} (name : String) (p : Point ℝ) :
    N n n' → Alike N (n.addAnchor name p) (n'.addAnchor name (t.apply p))

variable [Sink ℝ S] [Sink ℝ S']

theorem Seen.addNode {c : Context ℝ S} {c' : Context ℝ S'} (h : Seen t c c') (n n' : Node ℝ) :
    Seen t (c.addNode n) (c'.addNode n') := by
  unfold Context.addNode
  cases n.name <;> cases n'.name <;> exact ⟨h.1, h.2, h.3, h.4, h.5⟩

omit [Sink ℝ S] [Sink ℝ S'] in
theorem Seen.moved {c : Context ℝ S} {c' : Context ℝ S'} (h : Seen t c c') (p : Point ℝ) :
    Seen t { c with current := p } { c' with current := t.apply p } :=
  ⟨h.identity, h.transform, rfl, h.style, h.registry⟩

omit [Sink ℝ S'] in
theorem Standard.addNode {c : Context ℝ S} (h : Standard c) (n : Node ℝ) :
    Standard (c.addNode n) := by
  unfold Context.addNode
  cases n.name with
  | none => exact h
  | some name => exact h

omit [Sink ℝ S] [Sink ℝ S'] in
theorem sameName_build {c : Context ℝ S} {c' : Context ℝ S'} (h : Seen t c c') (s : Segment ℝ)
    (options : DrawOptions) :
    Alike Node.SameName (Action.build c "path" [s] options)
      (Action.build c' "path" [s.transform t] options) := by
  simp only [Action.build, DrawableRegistry.build, h.registry, h.style]
  cases c.registry.builders["path"]? with
  | none => exact .error _
  | some builder => exact (Node.sameName_ofDrawables _ _ _).mapError _

omit [Sink ℝ S] [Sink ℝ S'] in
theorem image_build {c : Context ℝ S} {c' : Context ℝ S'} (h : Seen t c c') (hc : Standard c)
    (ht : Function.Injective t.apply) (s : Segment ℝ) (options : DrawOptions) :
    Alike (Node.Image t) (Action.build c "path" [s] options)
      (Action.build c' "path" [s.transform t] options) := by
  have hbuilder : c.registry.builders["path"]? = some DrawableKind.path.build := hc
  simp only [Action.build, DrawableRegistry.build, h.registry, hbuilder, h.style]
  exact (Node.image_ofDrawables ht s _ options.name).mapError _

theorem kept_seen : Kept t Node.SameName (Seen t : Context ℝ S → Context ℝ S' → Prop) where
  seen h := h
  move p h := h.moved p
  register h _ := h.addNode _ _
  build s options h := sameName_build h s options
  anchor name p h := h.addAnchor name p _

theorem kept_standard (ht : Function.Injective t.apply) :
    Kept t (Node.Image t)
      (fun (c : Context ℝ S) (c' : Context ℝ S') => Seen t c c' ∧ Standard c) where
  seen h := h.1
  move p h := ⟨h.1.moved p, h.2⟩
  register h _ := ⟨h.1.addNode _ _, h.2.addNode _⟩
  build s options h := image_build h.1 h.2 ht s options
  anchor name p h := h.addAnchor name p

end Context

end

namespace Action

/-- Both actions fail with the same cause or succeed with related results, and the
contexts they leave are related. -/
inductive ResultAlike (I : Context ℝ S → Context ℝ S' → Prop) (R : α → α' → Prop) :
    EStateM.Result (DrawingError ℝ) (Context ℝ S) α →
      EStateM.Result (DrawingError ℝ) (Context ℝ S') α' → Prop
  | ok {a : α} {a' : α'} {c : Context ℝ S} {c' : Context ℝ S'} :
    R a a' → I c c' → ResultAlike I R (.ok a c) (.ok a' c')
  | error (e : DrawingError ℝ) {c : Context ℝ S} {c' : Context ℝ S'} :
    I c c' → ResultAlike I R (.error e c) (.error e c')

/-- From related contexts the actions run side by side. -/
def Mirrors (I : Context ℝ S → Context ℝ S' → Prop) (R : α → α' → Prop) (act : Action ℝ S α)
    (act' : Action ℝ S' α') : Prop :=
  ∀ c c', I c c' → ResultAlike I R (act c) (act' c')

section
variable {I : Context ℝ S → Context ℝ S' → Prop} {R : α → α' → Prop} {Q : β → β' → Prop}
variable {act : Action ℝ S α} {act' : Action ℝ S' α'}

theorem mirrors_pure {a : α} {a' : α'} (h : R a a') :
    Mirrors I R (pure a : Action ℝ S α) (pure a' : Action ℝ S' α') :=
  fun _ _ hc => .ok h hc

theorem mirrors_get : Mirrors I I (get : Action ℝ S (Context ℝ S)) (get : Action ℝ S' _) :=
  fun _ _ hc => .ok hc hc

theorem mirrors_ofExcept {ε : Type} (wrap : ε → DrawingError ℝ) {x : Except ε α}
    {x' : Except ε α'} (h : Alike R x x') :
    Mirrors I R (ofExcept wrap x : Action ℝ S α) (ofExcept wrap x' : Action ℝ S' α') := by
  intro c c' hc
  cases h with
  | ok h => exact .ok h hc
  | error e => exact .error (wrap e) hc

theorem Mirrors.bind (h : Mirrors I R act act') {f : α → Action ℝ S β} {f' : α' → Action ℝ S' β'}
    (hf : ∀ a a', R a a' → Mirrors I Q (f a) (f' a')) : Mirrors I Q (act >>= f) (act' >>= f') := by
  intro c c' hc
  have hr := h c c' hc
  cases ha : act c with
  | ok a d =>
    rw [ha] at hr
    cases ha' : act' c' with
    | ok a' d' =>
      rw [ha'] at hr
      rw [bind_of_ok ha, bind_of_ok ha']
      cases hr with
      | ok h hd => exact hf a a' h d d' hd
    | error e d' =>
      rw [ha'] at hr
      cases hr
  | error e d =>
    rw [ha] at hr
    cases ha' : act' c' with
    | ok a' d' =>
      rw [ha'] at hr
      cases hr
    | error e' d' =>
      rw [ha'] at hr
      rw [bind_of_error ha, bind_of_error ha']
      cases hr with
      | error _ hd => exact .error e hd

theorem Mirrors.map (h : Mirrors I R act act') {f : α → β} {f' : α' → β'}
    (hf : ∀ a a', R a a' → Q (f a) (f' a')) : Mirrors I Q (f <$> act) (f' <$> act') :=
  h.bind fun a a' ha => mirrors_pure (hf a a' ha)

variable [ExactTables] [Sink ℝ S] [Sink ℝ S']

theorem mirrors_move (hI : Context.Kept t N I) (p : Point ℝ) :
    Mirrors I (fun _ _ => True)
      (modify fun c => { c with current := p } : Action ℝ S PUnit)
      (modify fun c => { c with current := t.apply p } : Action ℝ S' PUnit) :=
  fun _ _ hc => .ok trivial (hI.move p hc)

theorem Mirrors.restoringCurrent (hI : Context.Kept t N I) (h : Mirrors I R act act') :
    Mirrors I R (restoringCurrent act) (restoringCurrent act') := by
  intro c c' hc
  have hr := h c c' hc
  unfold Action.restoringCurrent
  generalize act c = r at hr
  generalize act' c' = r' at hr
  cases hr with
  | ok ha hd => exact .ok ha hd
  | error e hd =>
    dsimp only
    rw [(hI.seen hc).current]
    exact .error e (hI.move c.current hd)

theorem mirrors_failAt (hI : Context.Kept t N I) (saved : Point ℝ) (e : DrawingError ℝ) :
    Mirrors I R (failAt saved e : Action ℝ S α) (failAt (t.apply saved) e : Action ℝ S' α') :=
  fun _ _ hc => .error e (hI.move saved hc)

theorem mirrors_resolvePosition (hI : Context.Kept t N I) {p : Position ℝ} (h : p.spec.Free)
    (update : Bool) :
    Mirrors I (fun a a' => a' = t.apply a) (resolvePosition p update : Action ℝ S (Point ℝ))
      (resolvePosition p update : Action ℝ S' (Point ℝ)) := by
  refine mirrors_get.bind fun c c' hc => ?_
  have hs := hI.seen hc
  have hr : c'.frame.resolve p.spec = (c.frame.resolve p.spec).map t.apply := by
    have hcurrent : c'.frame.current = c'.frame.transform.apply c.frame.current := by
      rw [show c'.frame.transform = t from hs.transform]
      exact hs.current
    rw [Frame.resolve_image hs.identity hcurrent h, show c'.frame.transform = t from hs.transform]
  rw [hr]
  refine (mirrors_ofExcept _ (.of_map _ _)).bind fun q q' hq => ?_
  subst hq
  cases update && p.update with
  | true => exact (mirrors_move hI q).bind fun _ _ _ => mirrors_pure rfl
  | false => exact mirrors_pure rfl

theorem mirrors_moveTo (hI : Context.Kept t N I) {p : Position ℝ} (h : p.spec.Free) :
    Mirrors I (fun a a' => a' = t.apply a) (moveTo p : Action ℝ S (Point ℝ))
      (moveTo p : Action ℝ S' (Point ℝ)) :=
  mirrors_resolvePosition hI h true

theorem mirrors_resolveEach (hI : Context.Kept t N I) {ps : List (Position ℝ)}
    (h : ∀ p ∈ ps, p.spec.Free) :
    Mirrors I (fun a a' => a' = a.map t.apply) (resolveEach ps : Action ℝ S (List (Point ℝ)))
      (resolveEach ps : Action ℝ S' (List (Point ℝ))) := by
  induction ps with
  | nil => exact mirrors_pure rfl
  | cons p ps ih =>
    refine (mirrors_moveTo hI (h p List.mem_cons_self)).bind fun a a' ha => ?_
    refine (ih fun q hq => h q (List.mem_cons_of_mem p hq)).bind fun as as' has => ?_
    exact mirrors_pure (by rw [ha, has, List.map_cons])

theorem mirrors_resolveAll (hI : Context.Kept t N I) {ps : List (Position ℝ)}
    (h : ∀ p ∈ ps, p.spec.Free) :
    Mirrors I (fun a a' => a' = a.map t.apply) (resolveAll ps : Action ℝ S (List (Point ℝ)))
      (resolveAll ps : Action ℝ S' (List (Point ℝ))) :=
  (mirrors_resolveEach hI h).restoringCurrent hI

theorem mirrors_resolveCurve (hI : Context.Kept t N I) {start finish : Position ℝ}
    {controls : List (Position ℝ)} (hs : start.spec.Free) (hf : finish.spec.Free)
    (hc : ∀ p ∈ controls, p.spec.Free) :
    Mirrors I (fun a a' => a' = (t.apply a.1, t.apply a.2.1, a.2.2.map t.apply))
      (resolveCurve start finish controls : Action ℝ S (Point ℝ × Point ℝ × List (Point ℝ)))
      (resolveCurve start finish controls : Action ℝ S' _) := by
  refine Mirrors.restoringCurrent hI ((mirrors_moveTo hI hs).bind fun p p' hp => ?_)
  refine (mirrors_moveTo hI hf).bind fun q q' hq => ?_
  refine (mirrors_resolveEach hI hc).bind fun cs cs' hcs => ?_
  exact mirrors_pure (by rw [hp, hq, hcs])

theorem alike_addControls (hI : Context.Kept t N I) {n n' : Node ℝ} (h : N n n')
    (controls : List (Point ℝ)) :
    Alike N (addControls n controls) (addControls n' (controls.map t.apply)) := by
  unfold addControls
  rw [List.zipIdx_map]
  generalize controls.zipIdx = l
  induction l generalizing n n' with
  | nil => exact .ok h
  | cons a l ih =>
    simp only [List.map_cons, List.foldlM_cons]
    exact (hI.anchor _ a.1 h).bind fun m m' hm => ih hm

theorem alike_bezierSegment (p q : Point ℝ) (controls : List (Point ℝ)) :
    Alike (fun s s' => s' = s.transform t) (bezierSegment p q controls)
      (bezierSegment (t.apply p) (t.apply q) (controls.map t.apply)) := by
  match controls with
  | [] => exact .error _
  | [c] => exact .ok (Segment.quadratic_transform t p c q)
  | [c, d] => exact .ok rfl
  | c :: d :: e :: rest =>
    simp only [bezierSegment, List.map_cons, List.length_cons, List.length_map]
    exact .error _

theorem mirrors_place (hI : Context.Kept t N I) {node node' : Except (DrawingError ℝ) (Node ℝ)}
    (h : Alike N node node') (target target' : Point ℝ) {options : DrawOptions}
    (ho : options.anchor = none) (saved : Point ℝ) :
    Mirrors I N (place node target options saved : Action ℝ S (Node ℝ))
      (place node' target' options (t.apply saved) : Action ℝ S' (Node ℝ)) := by
  unfold place
  rw [ho]
  cases h with
  | ok h => exact fun c c' hc => .ok h (hI.register hc h)
  | error e => exact mirrors_failAt hI saved e

theorem mirrors_line (hI : Context.Kept t N I) {positions : List (Position ℝ)}
    {options : DrawOptions} (h : ∀ p ∈ positions, p.spec.Free) (ho : options.anchor = none) :
    Mirrors I N (line positions options : Action ℝ S (Node ℝ))
      (line positions options : Action ℝ S' (Node ℝ)) := by
  refine mirrors_get.bind fun c c' hc => ?_
  dsimp only
  rw [(hI.seen hc).current]
  refine (mirrors_resolveAll hI h).bind fun points points' hp => ?_
  subst hp
  refine mirrors_get.bind fun d d' hd => mirrors_place hI ?_ _ _ ho c.current
  rw [Segment.line_map]
  refine ((Alike.of_map _ _).mapError _).bind fun s s' hs => ?_
  subst hs
  exact hI.build s options hd

theorem mirrors_bezier (hI : Context.Kept t N I) {start finish : Position ℝ}
    {controls : List (Position ℝ)} {options : DrawOptions} (hs : start.spec.Free)
    (hf : finish.spec.Free) (hc : ∀ p ∈ controls, p.spec.Free) (ho : options.anchor = none) :
    Mirrors I N (bezier start finish controls options : Action ℝ S (Node ℝ))
      (bezier start finish controls options : Action ℝ S' (Node ℝ)) := by
  refine mirrors_get.bind fun c c' hcc => ?_
  dsimp only
  rw [(hI.seen hcc).current]
  refine (mirrors_resolveCurve hI hs hf hc).bind fun points points' hp => ?_
  subst hp
  obtain ⟨p, q, cs⟩ := points
  dsimp only
  have hsegment := alike_bezierSegment (t := t) p q cs
  generalize bezierSegment p q cs = x at hsegment
  generalize bezierSegment (t.apply p) (t.apply q) (cs.map t.apply) = x' at hsegment
  cases hsegment with
  | error e => exact mirrors_failAt hI c.current _
  | ok h =>
    subst h
    refine mirrors_get.bind fun d d' hd => mirrors_place hI ?_ _ _ ho c.current
    refine (hI.build _ options hd).bind fun n n' hn => ?_
    exact (alike_addControls hI hn cs).mapError _

end

end Action

variable [ExactTables] [Sink ℝ S] [Sink ℝ S'] {I : Context ℝ S → Context ℝ S' → Prop}

theorem Call.mirrors_act (hI : Context.Kept t N I) {k : Call ℝ} (h : k.Free) :
    Action.Mirrors I (Answer.Image t N) (k.act : Action ℝ S (Answer ℝ))
      (k.act : Action ℝ S' (Answer ℝ)) := by
  cases k with
  | moveTo p =>
    refine (Action.mirrors_moveTo hI h).map fun a a' ha => ?_
    subst ha
    exact .point a
  | line positions options => exact (Action.mirrors_line hI h.1 h.2).map fun _ _ => .node
  | bezier start finish controls options =>
    exact (Action.mirrors_bezier hI h.1 h.2.1 h.2.2.1 h.2.2.2).map fun _ _ => .node
  | _ => exact h.elim

namespace Context

theorem step_mirrors (hI : Kept t N I) {c : Context ℝ S} {c' : Context ℝ S'} (hc : I c c')
    {k : Call ℝ} (h : k.Free) :
    Alike (Answer.Image t N) (k.answer c) (k.answer c') ∧
      I ((Operation.call k).apply c) ((Operation.call k).apply c') := by
  have hr := Call.mirrors_act hI h c c' hc
  unfold Call.answer Operation.apply
  dsimp only
  generalize k.act c = r at hr
  generalize k.act c' = r' at hr
  cases hr with
  | ok ha hd => exact ⟨.ok ha, hd⟩
  | error e hd => exact ⟨.error e, hd⟩

theorem run_mirrors (hI : Kept t N I) {c : Context ℝ S} {c' : Context ℝ S'} (hc : I c c')
    {calls : List (Call ℝ)} (h : ∀ k ∈ calls, k.Free) :
    List.Forall₂ (Alike (Answer.Image t N)) (c.answers calls) (c'.answers calls) ∧
      I (c.run (calls.map .call)) (c'.run (calls.map .call)) := by
  induction calls generalizing c c' with
  | nil => exact ⟨.nil, hc⟩
  | cons k ks ih =>
    obtain ⟨hanswer, hstep⟩ := step_mirrors hI hc (h k List.mem_cons_self)
    obtain ⟨hanswers, hrun⟩ := ih hstep fun k' hk => h k' (List.mem_cons_of_mem k hk)
    exact ⟨.cons hanswer hanswers, hrun⟩

end Context

end Drafting
