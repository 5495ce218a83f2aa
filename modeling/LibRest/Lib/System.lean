import Mathlib.Logic.Basic

/-!
# Labelled transition systems

A system has initial states and a partial step function. The label of a step settles every choice
of the step (which thread moves, what a call outside the system returns), so a run is the list of
its labels and can be evaluated (`Sys.run`).

- **Guarded runs.** `S.Reach G s`: a run whose steps all meet the guard `G` ends in `s`. The guard
  sees the state before the step and the label. `Any` lets every step pass.
- **Invariants** (`Reach.inv`). What holds initially and is kept by each step that meets the guard
  holds of every state that such runs reach.
- **Exact guards** (`throughout_iff_along`). Where a step from a state with `P` keeps `P` exactly
  when it meets `G`, all states of a run have `P` exactly when all its steps meet `G`.
- **What a run shows** (`shows`). A step may show items. What a run shows is bounded by a budget
  that each step pays from (`shows_le`), and it is what a record of the state grows by
  (`shows_record`).
- **Simulation** (`Reach.sim`, `Reach.map`). If each step is matched by a step of a second system,
  or leaves its state alone, then reachable states are related to reachable states.
-/

namespace Lib

/-- Initial states, and the step that a label names (`none`: the step is not enabled). -/
structure Sys (σ α : Type) where
  init : σ → Prop
  next : σ → α → Option σ

namespace Sys

variable {σ α : Type} {S : Sys σ α} {G : σ → α → Prop} {s s' : σ} {a : α}

/-- The guard that every step meets. -/
def Any : σ → α → Prop := fun _ _ => True

/-- A run whose steps all meet `G` ends in the state. -/
inductive Reach (S : Sys σ α) (G : σ → α → Prop) : σ → Prop where
  | init {s : σ} : S.init s → Reach S G s
  | step {s s' : σ} {a : α} : Reach S G s → G s a → S.next s a = some s' → Reach S G s'

/-- The state after the steps `as`, if all are enabled. -/
def run (S : Sys σ α) : σ → List α → Option σ
  | s, [] => some s
  | s, a :: as => (S.next s a).bind fun s' => run S s' as

theorem run_cons {as : List α} : S.run s (a :: as) = (S.next s a).bind fun s' => S.run s' as := rfl

/-- The first step of a run, and the rest of it. -/
theorem run_cons_eq {as : List α} {t : σ} :
    S.run s (a :: as) = some t ↔ ∃ s', S.next s a = some s' ∧ S.run s' as = some t := by
  rw [run_cons, Option.bind_eq_some_iff]

/-- One run after another. -/
theorem run_append {as bs : List α} :
    S.run s (as ++ bs) = (S.run s as).bind fun t => S.run t bs := by
  induction as generalizing s with
  | nil => rfl
  | cons a as ih =>
    rw [List.cons_append, run_cons, run_cons, Option.bind_assoc]
    exact congrArg _ (funext fun s' => ih)

/-! ## Reachable states -/

/-- A run from a reachable state ends in a reachable state. -/
theorem Reach.run (h : S.Reach Any s) {as : List α} {t : σ} (hr : S.run s as = some t) :
    S.Reach Any t := by
  induction as generalizing s with
  | nil => obtain rfl := Option.some.inj hr; exact h
  | cons a as ih =>
    obtain ⟨s', hs, hr'⟩ := run_cons_eq.mp hr
    exact ih (.step h trivial hs) hr'

/-- What a run from an initial state shows at its end is shown by a reachable state. -/
theorem Reach.observe {β : Type} {b : β} (f : σ → β) (as : List α) (h0 : S.init s)
    (h : (S.run s as).map f = some b) : ∃ t, S.Reach Any t ∧ f t = b := by
  obtain ⟨t, hr, hf⟩ := Option.map_eq_some_iff.mp h
  exact ⟨t, Reach.run (.init h0) hr, hf⟩

/-- A run whose steps meet a guard meets a weaker one. -/
theorem Reach.mono {G' : σ → α → Prop} (hG : ∀ s a, S.Reach G s → G s a → G' s a)
    (h : S.Reach G s) : S.Reach G' s := by
  induction h with
  | init h => exact .init h
  | step hr hg hn ih => exact .step ih (hG _ _ hr hg) hn

/-- **Invariants.** The step case may use that the state before it is reachable, and so every
invariant proved before. -/
theorem Reach.inv {I : σ → Prop} (h0 : ∀ s, S.init s → I s)
    (hs : ∀ s a s', S.Reach G s → G s a → S.next s a = some s' → I s → I s')
    (h : S.Reach G s) : I s := by
  induction h with
  | init h => exact h0 _ h
  | step hr hg hn ih => exact hs _ _ _ hr hg hn ih

/-! ## Guards that are exact -/

/-- Every state of the run `as` from `s` has `P`. -/
def Throughout (S : Sys σ α) (P : σ → Prop) : σ → List α → Prop
  | s, [] => P s
  | s, a :: as => P s ∧ ∀ s', S.next s a = some s' → Throughout S P s' as

/-- Every step of the run `as` from `s` meets `G`. -/
def Along (S : Sys σ α) (G : σ → α → Prop) : σ → List α → Prop
  | _, [] => True
  | s, a :: as => G s a ∧ ∀ s', S.next s a = some s' → Along S G s' as

instance Along.decidable [∀ s a, Decidable (G s a)] :
    (s : σ) → (as : List α) → Decidable (S.Along G s as)
  | _, [] => .isTrue trivial
  | s, a :: as =>
    have : ∀ s', Decidable (S.Along G s' as) := fun s' => Along.decidable s' as
    inferInstanceAs (Decidable (G s a ∧ ∀ s' ∈ S.next s a, S.Along G s' as))

/-- A guard that is about labels. -/
theorem along_of_labels {P : α → Prop} (hG : ∀ s a, P a → G s a) {as : List α}
    (h : ∀ a ∈ as, P a) : S.Along G s as := by
  induction as generalizing s with
  | nil => trivial
  | cons a as ih =>
    refine ⟨hG s a (h a (List.mem_cons_self ..)), fun s' _ => ih fun b hb => ?_⟩
    exact h b (List.mem_cons_of_mem _ hb)

/-- A guarded run from a reachable state. -/
theorem Reach.along (h : S.Reach G s) {as : List α} {t : σ} (hg : S.Along G s as)
    (hr : S.run s as = some t) : S.Reach G t := by
  induction as generalizing s with
  | nil => obtain rfl := Option.some.inj hr; exact h
  | cons a as ih =>
    obtain ⟨s', hs, hr'⟩ := run_cons_eq.mp hr
    exact ih (.step h hg.1 hs) (hg.2 s' hs) hr'

/-- What a guarded run from an initial state shows at its end is shown by a state that guarded runs
reach. -/
theorem Reach.observe_along {β : Type} {b : β} (f : σ → β) (as : List α) (h0 : S.init s)
    (hg : S.Along G s as) (h : (S.run s as).map f = some b) : ∃ t, S.Reach G t ∧ f t = b := by
  obtain ⟨t, hr, hf⟩ := Option.map_eq_some_iff.mp h
  exact ⟨t, (Reach.init h0).along hg hr, hf⟩

theorem Throughout.head {P : σ → Prop} {as : List α} (h : S.Throughout P s as) : P s := by
  cases as with
  | nil => exact h
  | cons a as => exact h.1

/-- **Exact guards.** If a step from a state with `P` (and the invariant `I`) leads to a state
with `P` exactly when it meets `G`, the states of a run all have `P` exactly when its steps all
meet `G`. -/
theorem throughout_iff_along {I P : σ → Prop}
    (hI : ∀ s a s', I s → S.next s a = some s' → I s')
    (hP : ∀ s a s', I s → P s → S.next s a = some s' → (P s' ↔ G s a)) {as : List α} {t : σ}
    (hi : I s) (hp : P s) (hr : S.run s as = some t) :
    S.Throughout P s as ↔ S.Along G s as := by
  induction as generalizing s with
  | nil => exact ⟨fun _ => trivial, fun _ => hp⟩
  | cons a as ih =>
    obtain ⟨s₁, hs, hr'⟩ := run_cons_eq.mp hr
    have hsame : ∀ s', S.next s a = some s' → s' = s₁ := fun s' h => by
      rw [hs] at h; exact (Option.some.inj h).symm
    constructor
    · rintro ⟨-, hrest⟩
      have ht := hrest s₁ hs
      have hp₁ := ht.head
      refine ⟨(hP s a s₁ hi hp hs).mp hp₁, fun s' h => ?_⟩
      obtain rfl := hsame s' h
      exact (ih (hI _ _ _ hi hs) hp₁ hr').mp ht
    · rintro ⟨hg, hrest⟩
      have hp₁ := (hP s a s₁ hi hp hs).mpr hg
      refine ⟨hp, fun s' h => ?_⟩
      obtain rfl := hsame s' h
      exact (ih (hI _ _ _ hi hs) hp₁ hr').mpr (hrest s' h)

/-! ## What a run shows -/

/-- What the steps of the run `as` from `s` show, if a step shows what `f` says. -/
def shows {β : Type} (S : Sys σ α) (f : σ → α → List β) : σ → List α → List β
  | _, [] => []
  | s, a :: as => f s a ++ ((S.next s a).map fun s' => shows S f s' as).getD []

theorem shows_cons {β : Type} {f : σ → α → List β} (hn : S.next s a = some s') (as : List α) :
    S.shows f s (a :: as) = f s a ++ S.shows f s' as := by
  simp [shows, hn]

section

variable {β : Type} {f : σ → α → List β} {I : σ → Prop}

/-- **Budgets.** If each step that meets `G` pays for what it shows, a run shows no more than the
budget `b` that it starts with. -/
theorem shows_le {b : σ → Nat}
    (hs : ∀ s a s', I s → G s a → S.next s a = some s' → I s' ∧ (f s a).length + b s' ≤ b s)
    {as : List α} {t : σ}
    (hi : I s) (hg : S.Along G s as) (hr : S.run s as = some t) :
    (S.shows f s as).length ≤ b s := by
  induction as generalizing s with
  | nil => exact Nat.zero_le _
  | cons a as ih =>
    obtain ⟨s', hn, hr'⟩ := run_cons_eq.mp hr
    obtain ⟨hi', hpay⟩ := hs s a s' hi hg.1 hn
    have hrest := ih hi' (hg.2 s' hn) hr'
    rw [shows_cons hn, List.length_append]
    omega

/-- **Records.** If each step adds what it shows to a record, so does a run. -/
theorem shows_record {record : σ → List β}
    (hs : ∀ s a s', I s → S.next s a = some s' → I s' ∧ record s' = record s ++ f s a)
    {as : List α} {t : σ} (hi : I s) (hr : S.run s as = some t) :
    record t = record s ++ S.shows f s as := by
  induction as generalizing s with
  | nil =>
    obtain rfl := Option.some.inj hr
    exact (List.append_nil _).symm
  | cons a as ih =>
    obtain ⟨s', hn, hr'⟩ := run_cons_eq.mp hr
    obtain ⟨hi', hadd⟩ := hs s a s' hi hn
    rw [ih hi' hr', hadd, shows_cons hn, List.append_assoc]

end

/-! ## Simulation -/

/-- **Simulation.** `R` relates the states of two systems. If each step of `S` that meets `G` keeps
the related state of `T`, or is matched by a step of `T` that meets `G'`, then a reachable state of
`S` is related to a reachable state of `T`. -/
theorem Reach.sim {τ β : Type} {T : Sys τ β} {G' : τ → β → Prop} {R : σ → τ → Prop}
    (h0 : ∀ s, S.init s → ∃ t, T.init t ∧ R s t)
    (hs : ∀ s a s' t, S.Reach G s → G s a → S.next s a = some s' → R s t →
      R s' t ∨ ∃ b t', G' t b ∧ T.next t b = some t' ∧ R s' t')
    (h : S.Reach G s) : ∃ t, T.Reach G' t ∧ R s t := by
  induction h with
  | init h =>
    obtain ⟨t, ht, hR⟩ := h0 _ h
    exact ⟨t, .init ht, hR⟩
  | step hr hg hn ih =>
    obtain ⟨t, ht, hR⟩ := ih
    rcases hs _ _ _ t hr hg hn hR with hR' | ⟨b, t', hb, hn', hR'⟩
    · exact ⟨t, ht, hR'⟩
    · exact ⟨t', .step ht hb hn', hR'⟩

/-- A simulation by a function `f` of the state. -/
theorem Reach.map {τ β : Type} {T : Sys τ β} {G' : τ → β → Prop} (f : σ → τ)
    (h0 : ∀ s, S.init s → T.init (f s))
    (hs : ∀ s a s', S.Reach G s → G s a → S.next s a = some s' →
      f s' = f s ∨ ∃ b, G' (f s) b ∧ T.next (f s) b = some (f s'))
    (h : S.Reach G s) : T.Reach G' (f s) := by
  obtain ⟨t, ht, rfl⟩ := h.sim (R := fun s t => f s = t) (fun s hi => ⟨f s, h0 s hi, rfl⟩)
    fun s a s' t hr hg hn e => by
      subst e
      rcases hs s a s' hr hg hn with e | ⟨b, hb, hn'⟩
      · exact .inl e
      · exact .inr ⟨b, f s', hb, hn', rfl⟩
  exact ht

end Sys

end Lib
