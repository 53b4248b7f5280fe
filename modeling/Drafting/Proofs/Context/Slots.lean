import Drafting.Context
import Mathlib.Data.List.Nodup
import Mathlib.Logic.Function.Basic
import Mathlib.Tactic.SplitIfs

/-!
# Slots and handles

A context keeps a node under its name or, when it has none, at a place of a list,
together with the handles of its drawables. Here both are slots: registering a node
fills one slot, removing a name empties one, and no other slot changes.

The second half follows the drawables of a node into a recording. They get the next
handles in order, and every other handle keeps its entry.
-/

namespace Drafting

variable {K S : Type}

namespace Context

inductive Slot
  | named (name : String)
  | unnamed (i : Nat)
deriving DecidableEq

def slot? (c : Context K S) : Slot → Option (Registered K)
  | .named name => (c.node? name).map fun n => ⟨n, c.handlesOf name⟩
  | .unnamed i => c.unnamed[i]?

/-- The slot that a node takes when it is registered. -/
def slotFor (c : Context K S) (node : Node K) : Slot :=
  match node.name with
  | none => .unnamed c.unnamed.length
  | some name => .named name

/-- The handles that leave the sink when a node is registered. -/
def displaced (c : Context K S) (node : Node K) : List Handle :=
  match node.name with
  | none => []
  | some name => c.handlesOf name

section
variable [Scalar K] [Sink K S]

theorem sink_addNode (c : Context K S) (node : Node K) :
    (c.addNode node).sink = detach (attach c.sink node.drawables).1 (c.displaced node) := by
  unfold addNode displaced
  cases node.name <;> rfl

theorem slot?_addNode (c : Context K S) (node : Node K) :
    (c.addNode node).slot? = Function.update c.slot? (c.slotFor node)
      (some ⟨node, (attach c.sink node.drawables).2⟩) := by
  funext s
  unfold addNode slotFor
  cases node.name with
  | none =>
    cases s with
    | named name => rfl
    | unnamed i =>
      simp only [slot?, Function.update_apply, Slot.unnamed.injEq]
      split_ifs with h
      · simp [h]
      · rcases Nat.lt_or_gt_of_ne h with hi | hi
        · rw [List.getElem?_append_left hi]
        · rw [List.getElem?_eq_none (by simp; omega), List.getElem?_eq_none (by omega)]
  | some name =>
    cases s with
    | named name' =>
      simp only [slot?, node?, handlesOf, Function.update_apply, Slot.named.injEq,
        Std.ExtTreeMap.getElem?_insert, Std.LawfulEqCmp.compare_eq_iff_eq,
        eq_comm (a := name)]
      split_ifs with h <;> rfl
    | unnamed i => rfl

omit [Scalar K] in
theorem slot?_removeNode (c : Context K S) (name : String) :
    (c.removeNode name).2.slot? = Function.update c.slot? (.named name) none := by
  funext s
  cases s with
  | named name' =>
    simp only [removeNode, slot?, node?, handlesOf, Function.update_apply, Slot.named.injEq,
      Std.ExtTreeMap.getElem?_erase, Std.LawfulEqCmp.compare_eq_iff_eq,
        eq_comm (a := name)]
    split_ifs with h <;> rfl
  | unnamed i => rfl

omit [Scalar K] in
theorem node?_removeNode (c : Context K S) (name name' : String) :
    (c.removeNode name).2.node? name' = if name = name' then none else c.node? name' := by
  simp only [removeNode, node?, Std.ExtTreeMap.getElem?_erase, Std.LawfulEqCmp.compare_eq_iff_eq]

theorem node?_addNode (c : Context K S) (node : Node K) (name : String) :
    (c.addNode node).node? name = if node.name = some name then some node else c.node? name := by
  unfold addNode
  cases node.name with
  | none => simp [node?]
  | some name' =>
    simp only [node?, Std.ExtTreeMap.getElem?_insert, Std.LawfulEqCmp.compare_eq_iff_eq,
      Option.some.injEq]

/-- Each node is registered under its own name, and that is valid. -/
def NamesAgree (c : Context K S) : Prop :=
  ∀ name node, c.node? name = some node → node.name = some name ∧ Name.isValid name = true

omit [Scalar K] in
theorem NamesAgree.removeNode {c : Context K S} (hc : c.NamesAgree) (name : String) :
    (c.removeNode name).2.NamesAgree := by
  intro name' node hn
  rw [node?_removeNode] at hn
  split_ifs at hn
  exact hc name' node hn

theorem NamesAgree.addNode {c : Context K S} (hc : c.NamesAgree) {node : Node K}
    (hname : ∀ name, node.name = some name → Name.isValid name = true) :
    (c.addNode node).NamesAgree := by
  intro name node' hn
  rw [node?_addNode] at hn
  split_ifs at hn with he
  · cases hn
    exact ⟨he, hname name he⟩
  · exact hc name node' hn

omit [Scalar K] in
private theorem foldl_register (sink : S) (hs : List Handle) (ds : List (Drawable K)) :
    ds.foldl
        (fun (sink, handles) d =>
          let (sink, h) := Sink.register sink d.path d.style
          (sink, handles ++ [h]))
        (sink, hs) =
      ((attach sink ds).1, hs ++ (attach sink ds).2) := by
  induction ds generalizing sink hs with
  | nil => simp [attach]
  | cons d ds ih =>
    simp only [attach, List.foldl_cons, List.nil_append]
    rw [ih, ih, List.append_assoc]

omit [Scalar K] in
theorem attach_cons (sink : S) (d : Drawable K) (ds : List (Drawable K)) :
    attach sink (d :: ds) =
      let (sink', h) := Sink.register sink d.path d.style
      ((attach sink' ds).1, h :: (attach sink' ds).2) := by
  change List.foldl _ _ _ = _
  rw [List.foldl_cons]
  exact foldl_register _ _ _

end

def Holds (sink : Recording K) (h : Handle) (d : Drawable K) : Prop :=
  sink.get? h = some ⟨d.path, d.style⟩

def Fresh (sink : Recording K) : Prop :=
  ∀ h, sink.get? h ≠ none → h.id.toNat < sink.next.toNat

theorem get?_detach (sink : Recording K) (hs : List Handle) (h : Handle) :
    (detach sink hs).get? h = if h ∈ hs then none else sink.get? h := by
  induction hs generalizing sink with
  | nil => simp [detach]
  | cons a hs ih =>
    change (detach (sink.remove a) hs).get? h = _
    rw [ih, Recording.get?_remove]
    by_cases hm : h ∈ hs
    · simp [hm]
    · simp [hm, eq_comm]

theorem next_detach (sink : Recording K) (hs : List Handle) :
    (detach sink hs).next = sink.next := by
  induction hs generalizing sink with
  | nil => rfl
  | cons a hs ih => exact ih (sink.remove a)

/-- What a recording is after drawables have been handed to it, as long as its
handles do not run out. -/
structure Attached (sink sink' : Recording K) (hs : List Handle) (ds : List (Drawable K)) :
    Prop where
  next_eq : sink'.next.toNat = sink.next.toNat + ds.length
  holds : List.Forall₂ (Holds sink') hs ds
  nodup : hs.Nodup
  le_of_mem : ∀ h ∈ hs, sink.next.toNat ≤ h.id.toNat
  lt_of_mem : ∀ h ∈ hs, h.id.toNat < sink'.next.toNat
  get?_of_notMem : ∀ h, h ∉ hs → sink'.get? h = sink.get? h

theorem attached_attach (sink : Recording K) (ds : List (Drawable K))
    (hn : sink.next.toNat + ds.length < UInt64.size) :
    Attached sink (attach sink ds).1 (attach sink ds).2 ds := by
  induction ds generalizing sink with
  | nil => exact ⟨rfl, .nil, .nil, by simp [attach], by simp [attach], fun _ _ => rfl⟩
  | cons d ds ih =>
    rw [List.length_cons] at hn
    have hnext : (sink.register d.path d.style).1.next.toNat = sink.next.toNat + 1 := by
      simp only [Recording.register, UInt64.toNat_add, UInt64.toNat_one]
      exact Nat.mod_eq_of_lt (Nat.lt_of_le_of_lt (by omega) hn)
    obtain ⟨hlen, hholds, hnodup, hle, hlt, hother⟩ :=
      ih (sink.register d.path d.style).1 (by omega)
    rw [attach_cons]
    change Attached _ (attach (sink.register d.path d.style).1 ds).1
      (⟨sink.next⟩ :: (attach (sink.register d.path d.style).1 ds).2) _
    generalize attach (sink.register d.path d.style).1 ds = t at *
    have hnew : (⟨sink.next⟩ : Handle) ∉ t.2 := by
      intro hm
      have := hle _ hm
      simp only at this
      omega
    refine ⟨?_, .cons ?_ hholds, List.nodup_cons.mpr ⟨hnew, hnodup⟩, ?_, ?_, ?_⟩
    · rw [hlen, List.length_cons]
      omega
    · rw [Holds, hother _ hnew, Recording.get?_register, if_pos rfl]
    · intro h hm
      cases hm with
      | head => exact Nat.le_refl _
      | tail _ hm =>
        have := hle h hm
        omega
    · intro h hm
      cases hm with
      | head =>
        change sink.next.toNat < t.1.next.toNat
        omega
      | tail _ hm => exact hlt h hm
    · intro h hm
      rw [List.mem_cons, not_or] at hm
      rw [hother h hm.2, Recording.get?_register, if_neg]
      intro hid
      exact hm.1 (Handle.ext hid.symm)

end Context

end Drafting
