import Drafting.Proofs.Context.Reachable
import Mathlib.Data.List.DropRight

/-!
# Restoring transforms

Each change of the transform in force keeps the one before it, and restoring takes the
kept ones back, latest first. What a run without restoring has kept is the list of the
transforms it has replaced on top of what was kept before, cut off at the size of the
history. How often a transform can be restored after the run, and which one comes back
each time, is read off this list.
-/

namespace Drafting

variable {K S : Type}

namespace Context

theorem restoreTransform_fst_iff {c : Context K S} :
    c.restoreTransform.1 = true ↔ 0 < c.history.length := by
  unfold restoreTransform
  cases c.history <;> simp

theorem restoreTransform_snd_of_false {c : Context K S} (h : c.restoreTransform.1 = false) :
    c.restoreTransform.2 = c := by
  unfold restoreTransform at h ⊢
  cases hh : c.history with
  | nil => rfl
  | cons t rest => simp [hh] at h

theorem history_restoreTransform (c : Context K S) :
    c.restoreTransform.2.history = c.history.tail := by
  unfold restoreTransform
  cases h : c.history <;> simp [h]

theorem historySize_restoreTransform (c : Context K S) :
    c.restoreTransform.2.historySize = c.historySize := by
  unfold restoreTransform
  cases c.history <;> rfl

def restores : Nat → Context K S → Context K S
  | 0, c => c
  | n + 1, c => restores n c.restoreTransform.2

theorem history_restores (n : Nat) (c : Context K S) :
    (c.restores n).history = c.history.drop n := by
  induction n generalizing c with
  | zero => rfl
  | succ n ih => rw [restores, ih, history_restoreTransform, List.drop_tail]

theorem transform_restores {n : Nat} {c : Context K S} (hn : n ≤ c.history.length) :
    (c.transform :: c.history)[n]? = some (c.restores n).transform := by
  induction n generalizing c with
  | zero => rfl
  | succ n ih =>
    cases hh : c.history with
    | nil => simp [hh] at hn
    | cons t rest =>
      have hc : c.restoreTransform.2 = { c with transform := t, history := rest } := by
        simp only [restoreTransform, hh]
      rw [hh, List.length_cons] at hn
      rw [restores, hc, List.getElem?_cons_succ]
      exact ih (c := { c with transform := t, history := rest }) (by simpa using hn)

structure SameTransforms (c c' : Context K S) : Prop where
  transform_eq : c'.transform = c.transform
  history_eq : c'.history = c.history
  historySize_eq : c'.historySize = c.historySize

end Context

variable [Scalar K] [Sink K S]

namespace Operation

/-- Whether an operation replaces the transform in force. It does when it is a transform
operation and succeeds, or the reset. -/
def mutates : Operation K → Context K S → Bool
  | call (.transform op), c =>
    match Action.changeTransform op c with
    | .ok _ _ => true
    | .error _ _ => false
  | resetTransform, _ => true
  | _, _ => false

/-- The three things that an operation can do to the transforms. -/
inductive Effect (op : Operation K) (c : Context K S) : Prop
  | mutated (hm : op.mutates c = true) (t : Transform K) (h : op.apply c = c.replaceTransform t)
  | restored (h : op = .restoreTransform)
  | kept (hm : op.mutates c = false) (h : c.SameTransforms (op.apply c))

theorem sameTransforms_of_call {k : Call K} {c : Context K S}
    (hk : ∀ c', k.act c ≠ .ok .done c') : c.SameTransforms ((call k).apply c) := by
  have hout := k.outcome c
  simp only [apply]
  generalize k.act c = r at hk hout ⊢
  cases hout with
  | failed e => exact ⟨rfl, rfl, rfl⟩
  | moved p q => exact ⟨rfl, rfl, rfl⟩
  | transformed t => exact absurd rfl (hk _)
  | drawn n q hn => constructor <;> simp

theorem exists_transform_of_done {k : Call K} {c c' : Context K S}
    (h : k.act c = .ok .done c') : ∃ op, k = .transform op := by
  cases k
  case transform op => exact ⟨op, rfl⟩
  all_goals
    obtain ⟨_, _, hanswer⟩ := Action.map_ok_iff.mp h
    cases hanswer

theorem effect_transform (op : TransformOp K) (c : Context K S) :
    (call (.transform op)).Effect c := by
  rcases Action.changeTransform_cases op c with ⟨t, ht⟩ | ⟨e, he⟩
  · have hact : (Call.transform op).act c = .ok .done (c.replaceTransform t) :=
      Action.map_ok_iff.mpr ⟨(), ht, rfl⟩
    exact .mutated (by simp only [mutates, ht]) t (by simp only [apply, hact])
  · have hact : (Call.transform op).act c = .error e c := Action.bind_of_error he
    have hsame : (call (.transform op)).apply c = c := by simp only [apply, hact]
    refine .kept (by simp only [mutates, he]) ?_
    rw [hsame]
    exact ⟨rfl, rfl, rfl⟩

theorem effect (op : Operation K) (c : Context K S) : op.Effect c := by
  cases op with
  | call k =>
    cases k
    case transform op => exact effect_transform op c
    all_goals
      refine .kept rfl (sameTransforms_of_call fun c' h => ?_)
      obtain ⟨op, hop⟩ := exists_transform_of_done h
      cases hop
  | addNode node =>
    refine .kept rfl ?_
    constructor <;> simp [apply]
  | removeNode name => exact .kept rfl ⟨rfl, rfl, rfl⟩
  | restoreTransform => exact .restored rfl
  | resetTransform => exact .mutated rfl _ rfl
  | setStyle style => exact .kept rfl ⟨rfl, rfl, rfl⟩
  | registerKind kind builder => exact .kept rfl ⟨rfl, rfl, rfl⟩

end Operation

namespace Context

theorem historySize_apply (op : Operation K) (c : Context K S) :
    (op.apply c).historySize = c.historySize := by
  cases op.effect c with
  | mutated _ t h =>
    rw [h]
    rfl
  | restored h =>
    subst h
    exact c.historySize_restoreTransform
  | kept _ h => exact h.historySize_eq

theorem length_history_apply {c : Context K S} (hc : c.history.length ≤ c.historySize)
    (op : Operation K) : (op.apply c).history.length ≤ c.historySize := by
  cases op.effect c with
  | mutated _ t h =>
    rw [h]
    exact List.length_take_le _ _
  | restored h =>
    subst h
    change c.restoreTransform.2.history.length ≤ c.historySize
    rw [history_restoreTransform, List.length_tail]
    omega
  | kept _ h =>
    rw [h.history_eq]
    exact hc

theorem Reachable.length_history_le {c : Context K S} (hc : c.Reachable) :
    c.history.length ≤ c.historySize := by
  induction hc with
  | start sink historySize style => exact Nat.zero_le _
  | apply _ _ ih =>
    rw [historySize_apply]
    exact length_history_apply ih _
  | changeSink sink _ ih => exact ih
  | changeRegistry registry _ ih => exact ih

/-- The transforms that a run replaces, in the order in which it does. -/
def replaced : Context K S → List (Operation K) → List (Transform K)
  | _, [] => []
  | c, op :: ops =>
    if op.mutates c then c.transform :: replaced (op.apply c) ops
    else replaced (op.apply c) ops

variable {c : Context K S} {ops : List (Operation K)}

/-- By induction on the run: a replaced transform goes on top, and what falls out at the
other end would not be kept by the operations after it either. -/
theorem history_run (hops : ∀ op ∈ ops, op ≠ .restoreTransform)
    (hc : c.history.length ≤ c.historySize) :
    (c.run ops).history = ((c.replaced ops).reverse ++ c.history).take c.historySize := by
  induction ops generalizing c with
  | nil => exact (List.take_of_length_le hc).symm
  | cons op ops ih =>
    obtain ⟨hop, hops⟩ := List.forall_mem_cons.mp hops
    have hsize := historySize_apply op c
    have ih := ih hops (hsize ▸ length_history_apply hc op)
    rw [run_cons, ih, hsize, replaced]
    cases op.effect c with
    | mutated hm t h =>
      have hhistory : (op.apply c).history = (c.transform :: c.history).take c.historySize := by
        rw [h]
        rfl
      rw [if_pos hm, hhistory, List.reverse_cons, List.append_assoc, List.singleton_append]
      simp only [List.take_append, List.take_take]
      congr 2
      omega
    | restored h => exact absurd h hop
    | kept hm h => rw [if_neg (by simp [hm]), h.history_eq]

theorem head?_replaced (hops : ∀ op ∈ ops, op ≠ .restoreTransform) :
    (c.replaced ops ++ [(c.run ops).transform]).head? = some c.transform := by
  induction ops generalizing c with
  | nil => rfl
  | cons op ops ih =>
    obtain ⟨hop, hops⟩ := List.forall_mem_cons.mp hops
    rw [replaced, run_cons]
    cases op.effect c with
    | mutated hm t h =>
      rw [if_pos hm]
      rfl
    | restored h => exact absurd h hop
    | kept hm h => rw [if_neg (by simp [hm]), ih hops, h.transform_eq]

/-- The transforms that come back after a run are those it has replaced, latest first,
and then those kept before it. -/
theorem transform_restores_run (hops : ∀ op ∈ ops, op ≠ .restoreTransform)
    (hc : c.history.length ≤ c.historySize) {n : Nat}
    (hn : n ≤ min (c.history.length + (c.replaced ops).length) c.historySize) :
    ((c.replaced ops ++ [(c.run ops).transform]).reverse ++ c.history)[n]? =
      some ((c.run ops).restores n).transform := by
  have hhistory := history_run hops hc
  have hlength : n ≤ (c.run ops).history.length := by
    rw [hhistory, List.length_take, List.length_append, List.length_reverse]
    omega
  rw [← transform_restores hlength, hhistory, ← List.take_succ_cons,
    List.getElem?_take_of_lt (by omega)]
  simp

theorem transform_restores_replaced (hops : ∀ op ∈ ops, op ≠ .restoreTransform)
    (hc : c.history.length ≤ c.historySize) {j : Nat} (hj : 1 ≤ j)
    (hle : j ≤ min (c.replaced ops).length c.historySize) :
    (c.replaced ops)[(c.replaced ops).length - j]? = some ((c.run ops).restores j).transform := by
  have hlength : j < (c.replaced ops ++ [(c.run ops).transform]).length := by
    rw [List.length_append, List.length_singleton]
    omega
  have hindex : (c.replaced ops ++ [(c.run ops).transform]).length - 1 - j =
      (c.replaced ops).length - j := by
    rw [List.length_append, List.length_singleton, Nat.add_sub_cancel]
  rw [← transform_restores_run hops hc (by omega),
    List.getElem?_append_left (by rwa [List.length_reverse]), List.getElem?_reverse hlength,
    hindex, List.getElem?_append_left (by omega)]

/-- Restoring all that a run has replaced brings back the transform it started with. -/
theorem transform_restores_start (hops : ∀ op ∈ ops, op ≠ .restoreTransform)
    (hc : c.history.length ≤ c.historySize) (hk : (c.replaced ops).length ≤ c.historySize) :
    ((c.run ops).restores (c.replaced ops).length).transform = c.transform := by
  have hindex : (c.replaced ops ++ [(c.run ops).transform]).length - 1 -
      (c.replaced ops).length = 0 := by
    rw [List.length_append, List.length_singleton, Nat.add_sub_cancel, Nat.sub_self]
  have hlast := transform_restores_run hops hc (n := (c.replaced ops).length) (by omega)
  rw [List.getElem?_append_left (by simp), List.getElem?_reverse (by simp), hindex,
    ← List.head?_eq_getElem?, head?_replaced hops] at hlast
  exact (Option.some.inj hlast).symm

/-- Restoring further brings back what was kept before the run. -/
theorem transform_restores_kept (hops : ∀ op ∈ ops, op ≠ .restoreTransform)
    (hc : c.history.length ≤ c.historySize) {i : Nat}
    (hi : (c.replaced ops).length + i < min (c.history.length + (c.replaced ops).length)
      c.historySize) :
    c.history[i]? = some ((c.run ops).restores ((c.replaced ops).length + i + 1)).transform := by
  have hlength : (c.replaced ops ++ [(c.run ops).transform]).reverse.length =
      (c.replaced ops).length + 1 := by
    rw [List.length_reverse, List.length_append, List.length_singleton]
  rw [← transform_restores_run hops hc (by omega), List.getElem?_append_right (by omega), hlength]
  congr 1
  omega

theorem drop_history_run (hops : ∀ op ∈ ops, op ≠ .restoreTransform)
    (hc : c.history.length ≤ c.historySize) (hk : (c.replaced ops).length ≤ c.historySize) :
    (c.run ops).history.drop (c.replaced ops).length =
      c.history.rdrop (c.history.length + (c.replaced ops).length - c.historySize) := by
  rw [history_run hops hc, List.drop_take, List.drop_left' (List.length_reverse ..), List.rdrop,
    List.take_eq_take_iff]
  omega

/-- The history never outgrows its size. After a run without restoring, a transform can be
restored as often as the history allows; the transforms that come back are those the run
has replaced, latest first, and when the history holds all of them, the transform and the
part of the history from before the run. -/
theorem restore_after_run :
    (∀ c : Context K S, c.Reachable → c.history.length ≤ c.historySize) ∧
    ∀ (c : Context K S) (ops : List (Operation K)), c.history.length ≤ c.historySize →
      (∀ op ∈ ops, op ≠ .restoreTransform) →
      let d := c.run ops
      let past := c.replaced ops
      let left := c.history.rdrop (c.history.length + past.length - c.historySize)
      (∀ n, (d.restores n).restoreTransform.1 = true ↔
        n < min (c.history.length + past.length) c.historySize) ∧
      (∀ n, (d.restores n).restoreTransform.1 = false →
        (d.restores n).restoreTransform.2 = d.restores n) ∧
      (∀ j, 1 ≤ j → j ≤ min past.length c.historySize →
        past[past.length - j]? = some (d.restores j).transform) ∧
      (past.length ≤ c.historySize →
        (d.restores past.length).transform = c.transform ∧
        (d.restores past.length).history = left ∧
        ∀ i, i < left.length →
          left[i]? = some (d.restores (past.length + i + 1)).transform) := by
  refine ⟨fun c => Reachable.length_history_le, fun c ops hc hops => ?_⟩
  intro d past left
  have hd : d.history = (past.reverse ++ c.history).take c.historySize := history_run hops hc
  refine ⟨fun n => ?_, fun n => restoreTransform_snd_of_false,
    fun j hj hle => transform_restores_replaced hops hc hj hle,
    fun hk => ⟨transform_restores_start hops hc hk, ?_, fun i hi => ?_⟩⟩
  · rw [restoreTransform_fst_iff, history_restores, hd]
    simp only [List.length_drop, List.length_take, List.length_append, List.length_reverse]
    omega
  · rw [history_restores]
    exact drop_history_run hops hc hk
  · have hi : i < c.history.length - (c.history.length + past.length - c.historySize) := by
      simpa [left, List.rdrop] using hi
    have hkept : past.length + i < min (c.history.length + past.length) c.historySize := by
      omega
    calc left[i]?
        = c.history[i]? := List.getElem?_take_of_lt hi
      _ = some (d.restores (past.length + i + 1)).transform :=
        transform_restores_kept hops hc hkept

/-- Two changes with a failing one and a move in between fill a history of two, so the
transform kept before them is lost and the one in force before them is not. -/
theorem restore_after_run_of_two :
    let start : Context Float (Recording Float) := Context.start Recording.empty 2 Style.empty
    let c := start.run [.call (.transform (.translate ⟨1, 0⟩))]
    let ops : List (Operation Float) :=
      [.call (.transform (.scale 2 2)), .call (.transform (.scale 0 0)),
        .call (.moveTo ⟨.cartesian 1 1, true⟩), .resetTransform]
    let d := c.run ops
    c.history.length ≤ c.historySize ∧ (∀ op ∈ ops, op ≠ .restoreTransform) ∧
      (c.replaced ops).length = 2 ∧ (d.restores 2).transform = c.transform ∧
      (d.restores 2).history = [] ∧ (d.restores 2).restoreTransform.1 = false := by
  intro start c ops d
  have hreach : c.Reachable :=
    (Reachable.start _ _ _).run (by simp [Operation.Admissible])
  have hc := restore_after_run.1 c hreach
  have hops : ∀ op ∈ ops, op ≠ .restoreTransform := by simp [ops]
  have hk : (c.replaced ops).length = 2 := by decide +kernel
  have hkept : c.history.length = 1 := by decide +kernel
  have hsize : c.historySize = 2 := by decide +kernel
  obtain ⟨hcount, -, -, hback⟩ := restore_after_run.2 c ops hc hops
  obtain ⟨htransform, hhistory, -⟩ := hback (by omega)
  rw [hk] at htransform hhistory
  rw [hkept, hsize] at hhistory
  have hlast := hcount 2
  rw [hk, hkept, hsize] at hlast
  refine ⟨hc, hops, hk, htransform, ?_, by simpa using hlast⟩
  rw [hhistory, List.rdrop, hkept]
  rfl

end Context

end Drafting
