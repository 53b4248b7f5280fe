import Drafting.Proofs.Context.Calls
import Drafting.Proofs.Context.Slots
import Mathlib.Data.List.Forall2

/-!
# Nodes and their entries in the sink

In every drawing that starts from an empty recording, the two tables of named nodes
have the same names, each drawable of a kept node has one entry in the recording under
a handle of its own, and there are no other entries.

The invariant is carried through registering a node in two parts: emptying the slot
that the node will take, and filling an empty slot under handles not yet in use. The
recording does them in the opposite order, which makes no difference to its entries.
-/

namespace Drafting

variable {K : Type}

/-- Nodes come to the context from outside only as they are built. -/
def Operation.Admissible [Scalar K] : Operation K → Prop
  | addNode node => node.Built
  | _ => True

namespace Context

def Owns (slots : Slot → Option (Registered K)) (s : Slot) (i : Nat) (h : Handle) : Prop :=
  ∃ r, slots s = some r ∧ r.handles[i]? = some h

/-- Slots and a recording agree: each drawable of a kept node has its entry, in
order, no handle is kept twice, and each entry is of a kept handle. -/
structure Accounts (slots : Slot → Option (Registered K)) (sink : Recording K) : Prop where
  holds : ∀ {s r}, slots s = some r → List.Forall₂ (Holds sink) r.handles r.node.drawables
  unique : ∀ {s s' i i' h}, Owns slots s i h → Owns slots s' i' h → s = s' ∧ i = i'
  owned : ∀ {h}, sink.get? h ≠ none → ∃ s i, Owns slots s i h

theorem accounts_empty : Accounts (fun _ => none) (Recording.empty : Recording K) where
  holds h := nomatch h
  unique := fun ⟨_, h, _⟩ => nomatch h
  owned h := absurd (Recording.get?_empty _) h

theorem get?_ne_none_of_holds {sink : Recording K} {hs : List Handle} {ds : List (Drawable K)}
    (h : List.Forall₂ (Holds sink) hs ds) : ∀ a ∈ hs, sink.get? a ≠ none := by
  refine (List.forall₂_and_left hs ds).mp (h.imp fun a d had => ⟨?_, had⟩) |>.1
  rw [had]
  exact Option.some_ne_none _

theorem holds_of_get?_eq {sink sink' : Recording K} {hs : List Handle} {ds : List (Drawable K)}
    (h : List.Forall₂ (Holds sink) hs ds) (he : ∀ a ∈ hs, sink'.get? a = sink.get? a) :
    List.Forall₂ (Holds sink') hs ds :=
  ((List.forall₂_and_left hs ds).mpr ⟨he, h⟩).imp fun _ _ had => had.1.trans had.2

section
variable {slots : Slot → Option (Registered K)} {s s₀ : Slot} {i : Nat} {h : Handle}
  {r? : Option (Registered K)}

theorem owns_update_of_ne (hs : s ≠ s₀) :
    Owns (Function.update slots s₀ r?) s i h ↔ Owns slots s i h := by
  simp only [Owns, Function.update_of_ne hs]

theorem owns_update_none :
    Owns (Function.update slots s₀ none) s i h ↔ s ≠ s₀ ∧ Owns slots s i h := by
  by_cases hs : s = s₀
  · subst hs
    simp [Owns]
  · rw [owns_update_of_ne hs]
    simp [hs]

theorem owns_update_self {r : Registered K} :
    Owns (Function.update slots s₀ (some r)) s₀ i h ↔ r.handles[i]? = some h := by
  simp [Owns]

end

namespace Accounts

variable {slots : Slot → Option (Registered K)} {sink sink' : Recording K} {s₀ : Slot}

theorem get?_ne_none (ha : Accounts slots sink) {s : Slot} {i : Nat} {h : Handle}
    (ho : Owns slots s i h) : sink.get? h ≠ none := by
  obtain ⟨r, hr, hi⟩ := ho
  exact get?_ne_none_of_holds (ha.holds hr) h (List.mem_of_getElem? hi)

/-- A slot is emptied together with the entries of its handles. -/
theorem erase (ha : Accounts slots sink) {hs : List Handle}
    (hmem : ∀ h, h ∈ hs ↔ ∃ i, Owns slots s₀ i h)
    (hsink : ∀ h, sink'.get? h = if h ∈ hs then none else sink.get? h) :
    Accounts (Function.update slots s₀ none) sink' where
  holds := by
    intro s r hr
    have hne : s ≠ s₀ := by
      intro hs
      rw [hs, Function.update_self] at hr
      cases hr
    rw [Function.update_of_ne hne] at hr
    refine holds_of_get?_eq (ha.holds hr) fun h hm => ?_
    rw [hsink, if_neg]
    intro hh
    obtain ⟨i, ho⟩ := (hmem h).mp hh
    obtain ⟨j, hj⟩ := List.mem_iff_getElem?.mp hm
    exact hne (ha.unique ⟨r, hr, hj⟩ ho).1
  unique := by
    intro s s' i i' h ho ho'
    exact ha.unique (owns_update_none.mp ho).2 (owns_update_none.mp ho').2
  owned := by
    intro h hget
    rw [hsink] at hget
    split_ifs at hget with hm
    · exact absurd rfl hget
    · obtain ⟨s, i, ho⟩ := ha.owned hget
      have hne : s ≠ s₀ := by
        intro hs
        exact hm ((hmem h).mpr ⟨i, hs ▸ ho⟩)
      exact ⟨s, i, owns_update_none.mpr ⟨hne, ho⟩⟩

theorem fill (ha : Accounts slots sink) {r : Registered K} (hempty : slots s₀ = none)
    (hholds : List.Forall₂ (Holds sink') r.handles r.node.drawables) (hnodup : r.handles.Nodup)
    (hnew : ∀ h ∈ r.handles, sink.get? h = none)
    (hother : ∀ h, h ∉ r.handles → sink'.get? h = sink.get? h) :
    Accounts (Function.update slots s₀ (some r)) sink' where
  holds := by
    intro s r' hr
    by_cases hs : s = s₀
    · subst hs
      rw [Function.update_self, Option.some_inj] at hr
      exact hr ▸ hholds
    · rw [Function.update_of_ne hs] at hr
      refine holds_of_get?_eq (ha.holds hr) fun h hm => hother h fun hm' => ?_
      exact get?_ne_none_of_holds (ha.holds hr) h hm (hnew h hm')
  unique := by
    -- A handle kept at the new slot has no entry yet, and one kept elsewhere has.
    have hdisj {s i j h} (hs : s ≠ s₀) (ho : Owns (Function.update slots s₀ (some r)) s i h)
        (hj : r.handles[j]? = some h) : False :=
      ha.get?_ne_none ((owns_update_of_ne hs).mp ho) (hnew h (List.mem_of_getElem? hj))
    intro s s' i i' h ho ho'
    by_cases hs : s = s₀ <;> by_cases hs' : s' = s₀
    · subst hs hs'
      have hi := owns_update_self.mp ho
      have hi' := owns_update_self.mp ho'
      obtain ⟨hlt, -⟩ := List.getElem?_eq_some_iff.mp hi
      exact ⟨rfl, (List.getElem?_inj hlt hnodup).mp (hi.trans hi'.symm)⟩
    · subst hs
      exact (hdisj hs' ho' (owns_update_self.mp ho)).elim
    · subst hs'
      exact (hdisj hs ho (owns_update_self.mp ho')).elim
    · exact ha.unique ((owns_update_of_ne hs).mp ho) ((owns_update_of_ne hs').mp ho')
  owned := by
    intro h hget
    by_cases hm : h ∈ r.handles
    · obtain ⟨i, hi⟩ := List.mem_iff_getElem?.mp hm
      exact ⟨s₀, i, owns_update_self.mpr hi⟩
    · rw [hother h hm] at hget
      obtain ⟨s, i, ho⟩ := ha.owned hget
      have hne : s ≠ s₀ := by
        intro hs
        obtain ⟨r', hr', -⟩ := ho
        rw [hs, hempty] at hr'
        cases hr'
      exact ⟨s, i, (owns_update_of_ne hne).mpr ho⟩

end Accounts

/-- Tables of named nodes, list of unnamed nodes and recording belong together. -/
structure Consistent (c : Context K (Recording K)) : Prop where
  mem_handles_iff : ∀ name, name ∈ c.handles ↔ name ∈ c.nodes
  name_of_node? : ∀ {name node}, c.node? name = some node →
    node.name = some name ∧ Name.isValid name = true
  accounts : Accounts c.slot? c.sink

/-- Consistency is about the nodes, their handles and the sink alone. -/
theorem Consistent.congr {c c' : Context K (Recording K)} (hc : c.Consistent)
    (hnodes : c'.nodes = c.nodes) (hhandles : c'.handles = c.handles)
    (hunnamed : c'.unnamed = c.unnamed) (hsink : c'.sink = c.sink) : c'.Consistent := by
  have hnode : c'.node? = c.node? := by
    funext name
    simp only [node?, hnodes]
  have hslot : c'.slot? = c.slot? := by
    funext s
    cases s with
    | named name => simp only [slot?, handlesOf, hnode, hhandles]
    | unnamed i => simp only [slot?, hunnamed]
  refine ⟨?_, ?_, ?_⟩
  · simpa only [hnodes, hhandles] using hc.mem_handles_iff
  · intro name node h
    rw [hnode] at h
    exact hc.name_of_node? h
  · simpa only [hslot, hsink] using hc.accounts

theorem Consistent.namesAgree {c : Context K (Recording K)} (hc : c.Consistent) : c.NamesAgree :=
  fun _ _ => hc.name_of_node?

theorem Consistent.mem_handlesOf_iff {c : Context K (Recording K)} (hc : c.Consistent)
    (name : String) (h : Handle) :
    h ∈ c.handlesOf name ↔ ∃ i, Owns c.slot? (.named name) i h := by
  by_cases hn : name ∈ c.nodes
  · simp [Owns, slot?, node?, getElem?_pos c.nodes name hn, List.mem_iff_getElem?]
  · have hn' : name ∉ c.handles := mt (hc.mem_handles_iff name).mp hn
    simp [Owns, slot?, node?, handlesOf, getElem?_neg c.nodes name hn,
      getElem?_neg c.handles name hn']

theorem Consistent.mem_displaced_iff {c : Context K (Recording K)} (hc : c.Consistent)
    (node : Node K) (h : Handle) :
    h ∈ c.displaced node ↔ ∃ i, Owns c.slot? (c.slotFor node) i h := by
  unfold displaced slotFor
  cases node.name with
  | none => simp [Owns, slot?]
  | some name => exact hc.mem_handlesOf_iff name h

variable [Scalar K]

theorem consistent_start (historySize : Nat) (style : Style) :
    (start Recording.empty historySize style : Context K (Recording K)).Consistent where
  mem_handles_iff name := by simp [start]
  name_of_node? := by simp [start, node?]
  accounts := by
    have hslot : (start Recording.empty historySize style : Context K (Recording K)).slot? =
        fun _ => none := by
      funext s
      cases s <;> simp [slot?, start, node?]
    rw [hslot]
    exact accounts_empty

omit [Scalar K] in
theorem Consistent.removeNode {c : Context K (Recording K)} (hc : c.Consistent) (name : String) :
    (c.removeNode name).2.Consistent where
  mem_handles_iff name' := by
    simp [Context.removeNode, hc.mem_handles_iff]
  name_of_node? := hc.namesAgree.removeNode name _ _
  accounts := by
    rw [slot?_removeNode]
    exact hc.accounts.erase (hc.mem_handlesOf_iff name) (get?_detach c.sink _)

/-- The node is registered under handles that come after all those in use. -/
theorem Consistent.addNode {c : Context K (Recording K)} (hc : c.Consistent) (hf : Fresh c.sink)
    {node : Node K} (hname : ∀ name, node.name = some name → Name.isValid name = true)
    (hn : c.sink.next.toNat + node.drawables.length < UInt64.size) :
    (c.addNode node).Consistent where
  mem_handles_iff name := by
    unfold Context.addNode
    cases node.name with
    | none => exact hc.mem_handles_iff name
    | some name' => simp [hc.mem_handles_iff]
  name_of_node? := hc.namesAgree.addNode hname _ _
  accounts := by
    have ha := attached_attach c.sink node.drawables hn
    have hnew : ∀ h ∈ (attach c.sink node.drawables).2, c.sink.get? h = none := by
      intro h hm
      by_contra hget
      exact absurd (hf h hget) (Nat.not_lt.mpr (ha.le_of_mem h hm))
    -- Without the node that gives way, the slot is empty.
    have he : Accounts (Function.update c.slot? (c.slotFor node) none)
        (detach c.sink (c.displaced node)) :=
      hc.accounts.erase (hc.mem_displaced_iff node) (get?_detach c.sink _)
    have hkept : ∀ h ∈ (attach c.sink node.drawables).2, h ∉ c.displaced node := by
      intro h hm hd
      obtain ⟨i, ho⟩ := (hc.mem_displaced_iff node h).mp hd
      exact hc.accounts.get?_ne_none ho (hnew h hm)
    have hu : (c.addNode node).slot? =
        Function.update (Function.update c.slot? (c.slotFor node) none) (c.slotFor node)
          (some ⟨node, (attach c.sink node.drawables).2⟩) := by
      rw [slot?_addNode, Function.update_idem]
    rw [hu, sink_addNode]
    refine he.fill (Function.update_self ..) (holds_of_get?_eq ha.holds fun h hm => ?_) ha.nodup
      (fun h hm => ?_) fun h hm => ?_
    · rw [get?_detach, if_neg (hkept h hm)]
    · rw [get?_detach, if_neg (hkept h hm), hnew h hm]
    · rw [get?_detach, get?_detach, ha.get?_of_notMem h hm]

/-- A consistent context whose next handle is not in use. -/
structure Sound (c : Context K (Recording K)) : Prop where
  consistent : c.Consistent
  fresh : Fresh c.sink

omit [Scalar K] in
theorem Sound.congr {c c' : Context K (Recording K)} (hc : c.Sound)
    (hnodes : c'.nodes = c.nodes) (hhandles : c'.handles = c.handles)
    (hunnamed : c'.unnamed = c.unnamed) (hsink : c'.sink = c.sink) : c'.Sound where
  consistent := hc.consistent.congr hnodes hhandles hunnamed hsink
  fresh := by
    rw [hsink]
    exact hc.fresh

theorem sound_start (historySize : Nat) (style : Style) :
    (start Recording.empty historySize style : Context K (Recording K)).Sound where
  consistent := consistent_start historySize style
  fresh h hget := absurd (Recording.get?_empty h) hget

omit [Scalar K] in
theorem Sound.removeNode {c : Context K (Recording K)} (hc : c.Sound) (name : String) :
    (c.removeNode name).2.Sound where
  consistent := hc.consistent.removeNode name
  fresh := by
    intro h hget
    change (detach c.sink _).get? h ≠ none at hget
    change h.id.toNat < (detach c.sink _).next.toNat
    rw [get?_detach] at hget
    rw [next_detach]
    split_ifs at hget with hm
    · exact absurd rfl hget
    · exact hc.fresh h hget

theorem next_addNode (c : Context K (Recording K)) {node : Node K}
    (hn : c.sink.next.toNat + node.drawables.length < UInt64.size) :
    (c.addNode node).sink.next.toNat = c.sink.next.toNat + node.drawables.length := by
  rw [sink_addNode, next_detach, (attached_attach c.sink node.drawables hn).next_eq]

theorem Sound.addNode {c : Context K (Recording K)} (hc : c.Sound) {node : Node K}
    (hnode : node.Built) (hn : c.sink.next.toNat + node.drawables.length < UInt64.size) :
    (c.addNode node).Sound where
  consistent := hc.consistent.addNode hc.fresh (fun _ => hnode.isValid_name) hn
  fresh := by
    have ha := attached_attach c.sink node.drawables hn
    intro h hget
    rw [sink_addNode, get?_detach] at hget
    rw [sink_addNode, next_detach]
    split_ifs at hget with hd
    · exact absurd rfl hget
    · by_cases hm : h ∈ (attach c.sink node.drawables).2
      · exact ha.lt_of_mem h hm
      · rw [ha.get?_of_notMem h hm] at hget
        have := hc.fresh h hget
        rw [ha.next_eq]
        omega

/-- One operation keeps a context sound and counts the handles on. -/
theorem Sound.apply {c : Context K (Recording K)} (hc : c.Sound) {op : Operation K}
    (hop : op.Admissible) (hn : c.sink.next.toNat + op.registrations c < UInt64.size) :
    (op.apply c).Sound ∧
      (op.apply c).sink.next.toNat = c.sink.next.toNat + op.registrations c := by
  cases op with
  | call k =>
    have hk := k.outcome c
    simp only [Operation.apply, Operation.registrations] at hn ⊢
    generalize k.act c = r at hk hn ⊢
    cases hk with
    | failed e => exact ⟨hc, rfl⟩
    | moved p q => exact ⟨hc.congr rfl rfl rfl rfl, rfl⟩
    | transformed t => exact ⟨hc.congr rfl rfl rfl rfl, rfl⟩
    | drawn n q hnode =>
      have hq : ({ c with current := q } : Context K (Recording K)).Sound :=
        hc.congr rfl rfl rfl rfl
      exact ⟨hq.addNode hnode hn, next_addNode _ hn⟩
  | addNode node => exact ⟨hc.addNode hop hn, next_addNode c hn⟩
  | removeNode name => exact ⟨hc.removeNode name, congrArg _ (next_detach ..)⟩
  | restoreTransform =>
    change c.restoreTransform.2.Sound ∧ c.restoreTransform.2.sink.next.toNat = c.sink.next.toNat
    unfold restoreTransform
    cases c.history with
    | nil => exact ⟨hc, rfl⟩
    | cons t rest => exact ⟨hc.congr rfl rfl rfl rfl, rfl⟩
  | resetTransform => exact ⟨hc.congr rfl rfl rfl rfl, rfl⟩
  | setStyle style => exact ⟨hc.congr rfl rfl rfl rfl, rfl⟩
  | registerKind kind builder => exact ⟨hc.congr rfl rfl rfl rfl, rfl⟩

/-- By induction on the run: the next handle is the number of registrations so far. -/
theorem Sound.run {c : Context K (Recording K)} (hc : c.Sound) (ops : List (Operation K))
    (hops : ∀ op ∈ ops, op.Admissible)
    (hn : c.sink.next.toNat + c.registrations ops < UInt64.size) :
    (c.run ops).Sound ∧
      (c.run ops).sink.next.toNat = c.sink.next.toNat + c.registrations ops := by
  induction ops generalizing c with
  | nil => exact ⟨hc, rfl⟩
  | cons op ops ih =>
    rw [registrations] at hn
    obtain ⟨hs, hnext⟩ := hc.apply (hops op List.mem_cons_self) (by omega)
    obtain ⟨hs', hnext'⟩ := ih hs (fun op' hm => hops op' (List.mem_cons_of_mem op hm)) (by omega)
    refine ⟨hs', ?_⟩
    rw [run_cons, registrations, hnext', hnext, Nat.add_assoc]

/-- Of the entries in the recording, those of the handles are gone, and only those. -/
def Detaches (sink sink' : Recording K) (hs : List Handle) : Prop :=
  ∀ h, sink.get? h ≠ none → sink'.get? h = if h ∈ hs then none else sink.get? h

omit [Scalar K] in
theorem detaches_removeNode (c : Context K (Recording K)) (name : String) :
    Detaches c.sink (c.removeNode name).2.sink (c.handlesOf name) :=
  fun h _ => get?_detach c.sink _ h

theorem Sound.detaches_addNode {c : Context K (Recording K)} (hc : c.Sound) {node : Node K}
    (hn : c.sink.next.toNat + node.drawables.length < UInt64.size) :
    Detaches c.sink (c.addNode node).sink (c.displaced node) := by
  intro h hget
  have ha := attached_attach c.sink node.drawables hn
  have hm : h ∉ (attach c.sink node.drawables).2 := by
    intro hm
    exact absurd (hc.fresh h hget) (Nat.not_lt.mpr (ha.le_of_mem h hm))
  rw [sink_addNode, get?_detach, ha.get?_of_notMem h hm]

/-- After every run from an empty recording nodes, handles and entries belong
together, so that removing or replacing a node takes out its own entries only. -/
theorem consistent_run (historySize : Nat) (style : Style) (ops : List (Operation K))
    (hops : ∀ op ∈ ops, op.Admissible)
    (hn : (start Recording.empty historySize style : Context K (Recording K)).registrations ops <
      UInt64.size) :
    let c₀ : Context K (Recording K) := start Recording.empty historySize style
    let c := c₀.run ops
    c.Consistent ∧
      (∀ name, Detaches c.sink (c.removeNode name).2.sink (c.handlesOf name)) ∧
      ∀ node, c₀.registrations ops + node.drawables.length < UInt64.size →
        Detaches c.sink (c.addNode node).sink (c.displaced node) := by
  intro c₀ c
  have hnext : c₀.sink.next.toNat = 0 := rfl
  obtain ⟨hs, hcount⟩ := (sound_start historySize style).run ops hops (by rw [hnext]; omega)
  change c.sink.next.toNat = c₀.sink.next.toNat + c₀.registrations ops at hcount
  refine ⟨hs.consistent, detaches_removeNode c, fun node hnode => ?_⟩
  have hnode' : c.sink.next.toNat + node.drawables.length < UInt64.size := by
    rw [hcount, hnext]
    omega
  exact hs.detaches_addNode hnode'

/-- A name is drawn twice, a call fails, an unnamed line is drawn and the name is
removed. -/
theorem consistent_redrawn :
    let corner (x y : Float) : Position Float := ⟨.cartesian x y, true⟩
    let ops : List (Operation Float) :=
      [.call (.rect (corner 0 0) (corner 2 1) ⟨some "a", none, Style.empty⟩),
        .call (.line [corner 0 0, corner 2 1] ⟨none, none, Style.empty⟩),
        .call (.rect (corner 0 0) (corner 3 1) ⟨some "a", some "end", Style.empty⟩),
        .call (.anchor "p" ⟨.anchor "ghost" .center, true⟩),
        .removeNode "a"]
    (∀ op ∈ ops, op.Admissible) ∧
      ((start Recording.empty 15 Style.empty : Context Float (Recording Float)).registrations ops <
        UInt64.size) ∧
      ((start Recording.empty 15 Style.empty : Context Float (Recording Float)).run
        ops).Consistent := by
  intro corner ops
  have hops : ∀ op ∈ ops, op.Admissible := by
    simp [ops, Operation.Admissible]
  have hn : (start Recording.empty 15 Style.empty :
      Context Float (Recording Float)).registrations ops < UInt64.size := by
    decide +kernel
  exact ⟨hops, hn, (consistent_run 15 Style.empty ops hops hn).1⟩

end Context

end Drafting
