import Mathlib.Logic.Function.Basic

/-!
# Tokens that are released once

A ledger counts the tokens that were made, and how often each was released; token `t` is the `t`-th
that was made. A call that starts with the ledger `L₀` has to release what it makes, once.

- **The duty** (`Settled`). Every token made since `L₀` was released once.
- **On the way** (`Holding`). Nothing made since `L₀` is released, and the call knows the token
  `held`, if any. If it loses a token, it knows less than it made (`Complete` fails), and no release
  of what it knows settles the rest (`settled_release`, `settled_none`).
-/

namespace Lib

/-- How many tokens were made, and how often each was released. -/
@[ext] structure Ledger where
  made : Nat
  releases : Nat → Nat

namespace Ledger

variable {L₀ L : Ledger} {t : Nat} {held : Option Nat}

def make (L : Ledger) : Ledger := ⟨L.made + 1, Function.update L.releases L.made 0⟩

def release (L : Ledger) (t : Nat) : Ledger :=
  ⟨L.made, Function.update L.releases t (L.releases t + 1)⟩

/-- The token was made since `L₀`. -/
def Since (L₀ L : Ledger) (t : Nat) : Prop := L₀.made ≤ t ∧ t < L.made

/-- Every token made since `L₀` was released once. -/
def Settled (L₀ L : Ledger) : Prop := ∀ t, Since L₀ L t → L.releases t = 1

/-- Nothing made since `L₀` is released, and `held` was made since. -/
structure Holding (L₀ : Ledger) (held : Option Nat) (L : Ledger) : Prop where
  mono : L₀.made ≤ L.made
  unreleased : ∀ t, Since L₀ L t → L.releases t = 0
  own : ∀ t, held = some t → Since L₀ L t

/-- `held` is all that was made since `L₀`. -/
def Complete (L₀ : Ledger) (held : Option Nat) (L : Ledger) : Prop :=
  ∀ t, Since L₀ L t → held = some t

@[simp] theorem make_made (L : Ledger) : L.make.made = L.made + 1 := rfl

@[simp] theorem release_releases (L : Ledger) (t : Nat) :
    (L.release t).releases t = L.releases t + 1 :=
  Function.update_self ..

theorem release_releases_ne {u : Nat} (h : u ≠ t) : (L.release t).releases u = L.releases u :=
  Function.update_of_ne h ..

@[simp] theorem make_releases (L : Ledger) : L.make.releases L.made = 0 :=
  Function.update_self ..

theorem make_releases_ne {u : Nat} (h : u ≠ L.made) : L.make.releases u = L.releases u :=
  Function.update_of_ne h ..

theorem since_make : Since L₀ L.make t ↔ Since L₀ L t ∨ L₀.made ≤ t ∧ t = L.made := by
  simp only [Since, make_made]
  omega

theorem holding_refl (L : Ledger) : Holding L none L :=
  ⟨Nat.le_refl _, fun _ h => absurd h.1 (Nat.not_le.mpr h.2), nofun⟩

theorem complete_refl (L : Ledger) : Complete L none L :=
  fun _ h => absurd h.1 (Nat.not_le.mpr h.2)

theorem settled_refl (L : Ledger) : Settled L L :=
  fun _ h => absurd h.1 (Nat.not_le.mpr h.2)

theorem Holding.make (h : Holding L₀ none L) : Holding L₀ (some L.made) L.make := by
  refine ⟨Nat.le_succ_of_le h.mono, fun t ht => ?_, fun t ht => ?_⟩
  · by_cases e : t = L.made
    · subst e
      exact make_releases L
    · have hold : Since L₀ L t := (since_make.mp ht).resolve_right fun h => e h.2
      exact (make_releases_ne e).trans (h.unreleased t hold)
  · obtain rfl := Option.some.inj ht
    exact since_make.mpr (.inr ⟨h.mono, rfl⟩)

/-- The token that is made next is all that is known, if nothing was made before. -/
theorem complete_make : Complete L₀ (some L.made) L.make ↔ Complete L₀ none L := by
  constructor
  · intro hc t ht
    have e := Option.some.inj (hc t (since_make.mpr (.inl ht)))
    have hlt := ht.2
    omega
  · intro hc t ht
    rcases since_make.mp ht with hold | ⟨-, rfl⟩
    · cases hc t hold
    · rfl

/-- The call loses what it holds. -/
theorem Holding.lose (h : Holding L₀ held L) : Holding L₀ none L := ⟨h.mono, h.unreleased, nofun⟩

theorem Holding.incomplete (h : Holding L₀ (some t) L) : ¬ Complete L₀ none L := fun hc => by
  cases hc t (h.own t rfl)

/-- A call that holds nothing has settled exactly when it has made nothing. -/
theorem settled_none (h : Holding L₀ none L) : Settled L₀ L ↔ Complete L₀ none L := by
  constructor
  · intro hs t ht
    have hone := hs t ht
    rw [h.unreleased t ht] at hone
    cases hone
  · intro hc t ht
    cases hc t ht

/-- The release of what the call holds settles exactly if that is all it has made. -/
theorem settled_release (h : Holding L₀ (some t) L) :
    Settled L₀ (L.release t) ↔ Complete L₀ (some t) L := by
  constructor
  · intro hs u hu
    by_cases e : u = t
    · rw [e]
    · have hone := hs u hu
      rw [release_releases_ne e, h.unreleased u hu] at hone
      cases hone
  · intro hc u hu
    obtain rfl := Option.some.inj (hc u hu)
    simp [h.unreleased t hu]

/-- A second release of what the call holds. -/
theorem not_settled_twice (h : Holding L₀ (some t) L) :
    ¬ Settled L₀ ((L.release t).release t) := fun hs => by
  have hone := hs t (h.own t rfl)
  simp [h.unreleased t (h.own t rfl)] at hone

end Ledger

end Lib
