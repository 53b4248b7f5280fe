import Drafting.Proofs.Context.Mirror
import Drafting.Proofs.Context.Slots

/-!
# Drawings under a transform

A drawing made under a transform, from the image of the current point, is the image of
the drawing made without one: node by node, and entry by entry of the recording, under
the same names and handles.
-/

namespace Drafting

section
variable [ExactTables] {t : Transform ℝ}

namespace Recording

/-- The second recording holds the paths of the first mapped by a transform, under the
same handles. -/
structure Image (t : Transform ℝ) (s s' : Recording ℝ) : Prop where
  next : s'.next = s.next
  get? : ∀ h, s'.get? h = (s.get? h).map fun r => ⟨r.path.transform t, r.style⟩

variable {s s' : Recording ℝ}

theorem Image.register (h : Image t s s') (path : Path ℝ) (style : Style) :
    Image t (s.register path style).1 (s'.register (path.transform t) style).1 where
  next := congrArg (· + 1) h.next
  get? a := by
    rw [get?_register, get?_register, h.next, h.get?]
    split_ifs <;> rfl

theorem Image.detach (h : Image t s s') (hs : List Handle) :
    Image t (Context.detach s hs) (Context.detach s' hs) where
  next := by rw [Context.next_detach, Context.next_detach, h.next]
  get? a := by
    rw [Context.get?_detach, Context.get?_detach, h.get?]
    split_ifs <;> rfl

/-- By induction on the drawables: handing them over gives out the same handles. -/
theorem Image.attach (h : Image t s s') (ds : List (Drawable ℝ)) :
    (Context.attach s' (ds.map (·.transform t))).2 = (Context.attach s ds).2 ∧
      Image t (Context.attach s ds).1 (Context.attach s' (ds.map (·.transform t))).1 := by
  induction ds generalizing s s' with
  | nil => exact ⟨rfl, h⟩
  | cons d ds ih =>
    obtain ⟨hhandles, hsink⟩ := ih (h.register d.path d.style)
    rw [List.map_cons, Context.attach_cons, Context.attach_cons]
    refine ⟨?_, hsink⟩
    have hfirst : (s'.register (d.transform t).path (d.transform t).style).2 =
        (s.register d.path d.style).2 := congrArg Handle.mk h.next
    exact congrArg₂ List.cons hfirst hhandles

end Recording

namespace Context

/-- The second context is the first one with everything drawn so far mapped by a
transform, and paths are drawn as at the start. -/
structure Drawn (t : Transform ℝ) (c c' : Context ℝ (Recording ℝ)) : Prop extends
    Seen t c c' where
  standard : Standard c
  nodes : ∀ name, Option.Rel (Node.Image t) (c.node? name) (c'.node? name)
  handles : c'.handles = c.handles
  unnamed : List.Forall₂ (fun r r' => Node.Image t r.node r'.node ∧ r'.handles = r.handles)
    c.unnamed c'.unnamed
  sink : Recording.Image t c.sink c'.sink

variable {c c' : Context ℝ (Recording ℝ)}

theorem Drawn.addNode (h : Drawn t c c') {n n' : Node ℝ} (hn : Node.Image t n n') :
    Drawn t (c.addNode n) (c'.addNode n') := by
  obtain ⟨hhandles, hsink⟩ := h.sink.attach n.drawables
  rw [← hn.drawables] at hhandles hsink
  have hseen := h.toSeen.addNode n n'
  have hstandard := h.standard.addNode n
  unfold Context.addNode at hseen hstandard ⊢
  rw [hn.name] at hseen ⊢
  generalize n.name = label at hseen hstandard ⊢
  cases label with
  | none =>
    refine ⟨hseen, hstandard, h.nodes, h.handles, ?_, hsink⟩
    exact List.rel_append h.unnamed (.cons ⟨hn, hhandles⟩ .nil)
  | some name =>
    have hof : c'.handlesOf name = c.handlesOf name := by rw [handlesOf, handlesOf, h.handles]
    refine ⟨hseen, hstandard, fun name' => ?_, ?_, h.unnamed, ?_⟩
    · simp only [node?, Std.ExtTreeMap.getElem?_insert, Std.LawfulEqCmp.compare_eq_iff_eq]
      split_ifs
      · exact .some hn
      · exact h.nodes name'
    · dsimp only
      rw [hhandles, h.handles]
    · change Recording.Image t (detach _ (c.handlesOf name)) (detach _ (c'.handlesOf name))
      rw [hof]
      exact hsink.detach _

theorem kept_drawn (ht : Function.Injective t.apply) : Kept t (Node.Image t) (Drawn t) where
  seen h := h.toSeen
  move p h := ⟨h.toSeen.moved p, h.standard, h.nodes, h.handles, h.unnamed, h.sink⟩
  register h hn := h.addNode hn
  build s options h := image_build h.toSeen h.standard ht s options
  anchor name p h := h.addAnchor name p

theorem drawn_start (t : Transform ℝ) (historySize : Nat) (style : Style) (p : Point ℝ) :
    let c : Context ℝ (Recording ℝ) := start Recording.empty historySize style
    Drawn t { c with current := p } { c with transform := t, current := t.apply p } where
  identity := rfl
  transform := rfl
  current := rfl
  style := rfl
  registry := rfl
  standard := by rfl
  nodes name := by simp [node?, start]
  handles := rfl
  unnamed := .nil
  sink := ⟨rfl, fun h => by simp [start]⟩

end Context

end

end Drafting
