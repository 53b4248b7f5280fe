import Drafting.Mark
import Drafting.Position.Resolve
import Drafting.Sink

/-!
# The drawing context

A context holds the state of a drawing: the current point, the transform in force
with the transforms that can be restored, the nodes drawn so far with the handles
of their drawables, the box around everything drawn, the default style, the
registry of drawable kinds and the sink. Named nodes and their handles are two
tables over the names; an unnamed node is kept together with its handles.

This module holds the operations that cannot fail. Registering a node hands its
drawables to the sink and extends the bounds; a named node takes the place of any
node of that name, whose drawables leave the sink after the new ones have entered.
-/

namespace Drafting

variable {K S : Type} [Scalar K] [Sink K S]

/-- A node with the handles of its drawables, in order. -/
structure Registered (K : Type) where
  node : Node K
  handles : List Handle

/-- How many transforms can be restored unless asked otherwise. -/
def defaultHistorySize : Nat := 15

structure Context (K S : Type) where
  current : Point K
  transform : Transform K
  /-- The transforms that can be restored, latest first. -/
  history : List (Transform K)
  /-- How many transforms are kept for restoring. -/
  historySize : Nat
  nodes : NameMap (Node K)
  /-- The handles of the drawables of each named node, in order. -/
  handles : NameMap (List Handle)
  unnamed : List (Registered K)
  /-- The box around everything drawn so far. -/
  bounds : Box K
  /-- The style that every drawable starts from. -/
  style : Style
  registry : DrawableRegistry K
  sink : S

namespace Context

def start (sink : S) (historySize : Nat) (style : Style) : Context K S where
  current := Point.origin
  transform := Transform.identity
  history := []
  historySize
  nodes := ∅
  handles := ∅
  unnamed := []
  bounds := Box.empty
  style
  registry := DrawableRegistry.standard
  sink

def node? (c : Context K S) (name : String) : Option (Node K) := c.nodes[name]?

/-- What positions are resolved against. -/
def frame (c : Context K S) : Frame K := ⟨c.transform, c.current, c.node?⟩

/-- Keep a transform for restoring. Beyond the history's size the oldest is dropped. -/
def remember (c : Context K S) (t : Transform K) : Context K S :=
  { c with history := (t :: c.history).take c.historySize }

/-- Put a transform in force and keep the one before it. -/
def replaceTransform (c : Context K S) (t : Transform K) : Context K S :=
  { c.remember c.transform with transform := t }

/-- Put the latest kept transform back in force, and say whether there was one. -/
def restoreTransform (c : Context K S) : Bool × Context K S :=
  match c.history with
  | [] => (false, c)
  | t :: rest => (true, { c with transform := t, history := rest })

def resetTransform (c : Context K S) : Context K S := c.replaceTransform Transform.identity

/-- Hand drawables to the sink, in order. -/
def attach (sink : S) (drawables : List (Drawable K)) : S × List Handle :=
  drawables.foldl
    (fun (sink, handles) d =>
      let (sink, h) := Sink.register sink d.path d.style
      (sink, handles ++ [h]))
    (sink, [])

def detach (sink : S) (handles : List Handle) : S := handles.foldl Sink.remove sink

def handlesOf (c : Context K S) (name : String) : List Handle := c.handles[name]?.getD []

def addNode (c : Context K S) (node : Node K) : Context K S :=
  let (sink, handles) := attach c.sink node.drawables
  let c := { c with bounds := c.bounds.union node.box }
  match node.name with
  | none => { c with sink, unnamed := c.unnamed ++ [⟨node, handles⟩] }
  | some name =>
    { c with
      sink := detach sink (c.handlesOf name)
      handles := c.handles.insert name handles
      nodes := c.nodes.insert name node }

@[simp] theorem current_addNode (c : Context K S) (node : Node K) :
    (c.addNode node).current = c.current := by
  unfold addNode
  cases node.name <;> rfl

@[simp] theorem transform_addNode (c : Context K S) (node : Node K) :
    (c.addNode node).transform = c.transform := by
  unfold addNode
  cases node.name <;> rfl

@[simp] theorem history_addNode (c : Context K S) (node : Node K) :
    (c.addNode node).history = c.history := by
  unfold addNode
  cases node.name <;> rfl

@[simp] theorem historySize_addNode (c : Context K S) (node : Node K) :
    (c.addNode node).historySize = c.historySize := by
  unfold addNode
  cases node.name <;> rfl

/-- Remove a named node together with its drawables in the sink. -/
def removeNode (c : Context K S) (name : String) : Option (Node K) × Context K S :=
  (c.node? name,
    { c with
      sink := detach c.sink (c.handlesOf name)
      handles := c.handles.erase name
      nodes := c.nodes.erase name })

def setStyle (c : Context K S) (style : Style) : Context K S := { c with style }

def registerKind (c : Context K S) (kind : String) (builder : DrawableBuilder K) : Context K S :=
  { c with registry := c.registry.register kind builder }

end Context

end Drafting
