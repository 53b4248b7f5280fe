import Drafting.Error

/-!
# Outcomes

When a step of a computation that may fail succeeds. Checks are chained, so a
chain succeeds exactly when each of its links does, and renaming the causes of a
failure changes no success. A run over a list keeps what each step keeps, fails only
as a step does, and succeeds only when all of them do.

Two computations are alike when they fail with the same cause or succeed with related
results. Chains of alike steps are alike.
-/

namespace Drafting

variable {ε ε' α α' β β' : Type}

theorem bind_eq_ok {x : Except ε α} {f : α → Except ε β} {b : β} :
    (x >>= f) = .ok b ↔ ∃ a, x = .ok a ∧ f a = .ok b := by
  cases x with
  | error e => simp [bind, Except.bind]
  | ok a => simp [bind, Except.bind]

theorem map_eq_ok {x : Except ε α} {f : α → β} {b : β} :
    f <$> x = .ok b ↔ ∃ a, x = .ok a ∧ f a = b := by
  cases x with
  | error e => simp [Functor.map, Except.map]
  | ok a => simp [Functor.map, Except.map]

theorem map_eq_error {x : Except ε α} {f : α → β} {e : ε} :
    f <$> x = .error e ↔ x = .error e := by
  cases x with
  | error e' => simp [Functor.map, Except.map]
  | ok a => simp [Functor.map, Except.map]

theorem mapError_eq_ok {x : Except ε α} {f : ε → ε'} {a : α} :
    x.mapError f = .ok a ↔ x = .ok a := by
  cases x with
  | error e => exact ⟨nofun, nofun⟩
  | ok b =>
    constructor
    · intro h
      cases h
      rfl
    · intro h
      cases h
      rfl

/-- What each step preserves, a run of steps preserves. -/
theorem of_foldlM_eq_ok {f : α → β → Except ε α} {P : α → Prop} {bs : List β}
    (hstep : ∀ a, P a → ∀ b ∈ bs, ∀ a', f a b = .ok a' → P a') {a a' : α} (ha : P a)
    (h : bs.foldlM f a = .ok a') : P a' := by
  induction bs generalizing a with
  | nil =>
    cases h
    exact ha
  | cons b bs ih =>
    rw [List.foldlM_cons] at h
    obtain ⟨a₁, hfirst, hrest⟩ := bind_eq_ok.mp h
    have ha₁ : P a₁ := hstep a ha b List.mem_cons_self a₁ hfirst
    exact ih (fun a ha b hb => hstep a ha b (List.mem_cons_of_mem _ hb)) ha₁ hrest

theorem exists_of_foldlM_eq_error {f : α → β → Except ε α} {bs : List β} {a : α} {e : ε}
    (h : bs.foldlM f a = .error e) : ∃ a', ∃ b ∈ bs, f a' b = .error e := by
  induction bs generalizing a with
  | nil => cases h
  | cons b bs ih =>
    rw [List.foldlM_cons] at h
    cases hfirst : f a b with
    | error e' =>
      rw [hfirst] at h
      cases h
      exact ⟨a, b, List.mem_cons_self, hfirst⟩
    | ok a₁ =>
      rw [hfirst] at h
      obtain ⟨a', b', hb', he⟩ := ih h
      exact ⟨a', b', List.mem_cons_of_mem _ hb', he⟩

theorem exists_of_foldlM_eq_ok {f : α → β → Except ε α} {bs : List β} {a a' : α} {b : β}
    (h : bs.foldlM f a = .ok a') (hb : b ∈ bs) : ∃ a₁ a₂, f a₁ b = .ok a₂ := by
  induction bs generalizing a with
  | nil => cases hb
  | cons c bs ih =>
    rw [List.foldlM_cons] at h
    obtain ⟨a₁, hfirst, hrest⟩ := bind_eq_ok.mp h
    rcases List.mem_cons.mp hb with rfl | hb
    · exact ⟨a, a₁, hfirst⟩
    · exact ih hrest hb

/-- Both fail with the same cause, or both succeed with related results. -/
inductive Alike (R : α → α' → Prop) : Except ε α → Except ε α' → Prop
  | ok {a : α} {a' : α'} : R a a' → Alike R (.ok a) (.ok a')
  | error (e : ε) : Alike R (.error e) (.error e)

namespace Alike

variable {R : α → α' → Prop} {Q : β → β' → Prop} {x : Except ε α} {x' : Except ε α'}

theorem bind (h : Alike R x x') {f : α → Except ε β} {f' : α' → Except ε β'}
    (hf : ∀ a a', R a a' → Alike Q (f a) (f' a')) : Alike Q (x >>= f) (x' >>= f') := by
  cases h with
  | ok h => exact hf _ _ h
  | error e => exact .error e

theorem mapError (h : Alike R x x') (wrap : ε → ε') :
    Alike R (x.mapError wrap) (x'.mapError wrap) := by
  cases h with
  | ok h => exact .ok h
  | error e => exact .error (wrap e)

theorem of_map (x : Except ε α) (f : α → α') : Alike (fun a a' => a' = f a) x (x.map f) := by
  cases x with
  | ok a => exact .ok rfl
  | error e => exact .error e

end Alike

end Drafting
