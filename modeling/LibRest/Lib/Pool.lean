import Mathlib.Logic.Function.Basic
import LibRest.Lib.Prog
import LibRest.Lib.System

/-!
# Calls that interleave

Calls `ι` run programs over one shared state, a step of an operation at a time, in any order. Each
call is made once and keeps the rest of its program; a call whose rest is `.ret a` has returned `a`.

- **Invariants** (`Pool.inv`): a condition `J` on the shared state, and for each call an assertion
  `L i` about the rest of its program and the shared state. A step keeps `J`, establishes the
  assertion of the call that moves, and disturbs no other.
- **One call** (`Pool.call_inv`): an assertion about the rest of its program only.
- **One call alone** (`Pool.reach_alone`): a guard that is about other calls holds where there are
  none.
-/

namespace Lib

/-- The shared state, and the rest of each call that was made. -/
structure Pool {Op : Type} (Res : Op → Type) (ι σ α : Type) where
  shared : σ
  calls : ι → Option (Prog Res α)

namespace Pool

variable {Op : Type} {Res : Op → Type} {ι σ χ γ α : Type}

inductive Act (ι γ χ : Type) where
  | call (i : ι) (g : γ)
  | step (i : ι) (c : χ)
  deriving DecidableEq, Repr

/-- The rest of a call that is at `o`, after a step. -/
def rest (o : Op) (k : Res o → Prog Res α) : Option (Res o) → Prog Res α
  | some r => k r
  | none => .op o k

/-- What a call has returned. -/
def result : Option (Prog Res α) → Option α
  | some (.ret a) => some a
  | _ => none

/-- The call has returned. -/
def returned (p : Option (Prog Res α)) : Bool := (result p).isSome

theorem result_eq_some {p : Option (Prog Res α)} {a : α} :
    result p = some a ↔ p = some (.ret a) := by
  constructor
  · intro h
    unfold result at h
    split at h <;> cases h
    rfl
  · rintro rfl; rfl

variable [DecidableEq ι]

/-- A step of the call `i`. -/
def stepNext (H : ι → Handler Res σ χ) (s : Pool Res ι σ α) (i : ι) (c : χ) :
    Option (Pool Res ι σ α) :=
  match s.calls i with
  | some (.op o k) =>
    (H i o s.shared c).map fun p =>
      ⟨p.2, Function.update s.calls i (some (rest o k p.1))⟩
  | _ => none

/-- The runs of a pool; `may` tells when a call can be made. -/
def sys (H : ι → Handler Res σ χ) (body : γ → Prog Res α)
    (may : (ι → Option (Prog Res α)) → ι → γ → Bool) (init : σ → Prop) :
    Sys (Pool Res ι σ α) (Act ι γ χ) where
  init s := init s.shared ∧ s.calls = fun _ => none
  next s
    | .call i g =>
      if (s.calls i).isNone && may s.calls i g then
        some { s with calls := Function.update s.calls i (some (body g)) }
      else none
    | .step i c => stepNext H s i c

variable {H : ι → Handler Res σ χ} {body : γ → Prog Res α}
  {may : (ι → Option (Prog Res α)) → ι → γ → Bool} {init : σ → Prop} {s s' : Pool Res ι σ α}

theorem call_eq {i : ι} {g : γ} (h : (sys H body may init).next s (.call i g) = some s') :
    s.calls i = none ∧ may s.calls i g = true ∧
      s' = { s with calls := Function.update s.calls i (some (body g)) } := by
  simp only [sys] at h
  split at h
  · rename_i hc
    rw [Bool.and_eq_true, Option.isNone_iff_eq_none] at hc
    exact ⟨hc.1, hc.2, (Option.some.inj h).symm⟩
  · cases h

theorem step_eq {i : ι} {c : χ} (h : (sys H body may init).next s (.step i c) = some s') :
    ∃ o k r σ', s.calls i = some (.op o k) ∧ H i o s.shared c = some (r, σ') ∧
      s' = ⟨σ', Function.update s.calls i (some (rest o k r))⟩ := by
  simp only [sys, stepNext] at h
  split at h
  · rename_i o k hcur
    obtain ⟨⟨r, σ'⟩, hr, e⟩ := Option.map_eq_some_iff.mp h
    exact ⟨o, k, r, σ', hcur, hr, e.symm⟩
  · cases h

/-- **Interleaved calls.** -/
theorem inv {G : Pool Res ι σ α → Act ι γ χ → Prop} {J : σ → Prop}
    {L : ι → Option (Prog Res α) → σ → Prop}
    (h0 : ∀ σ, init σ → J σ ∧ ∀ i, L i none σ)
    (hcall : ∀ calls i g σ, may calls i g = true → J σ → L i none σ → L i (some (body g)) σ)
    (hstep : ∀ (s : Pool Res ι σ α) i c o k r σ', G s (.step i c) → s.calls i = some (.op o k) →
      H i o s.shared c = some (r, σ') → J s.shared → (∀ j, L j (s.calls j) s.shared) →
      J σ' ∧ L i (some (rest o k r)) σ' ∧ ∀ j, j ≠ i → L j (s.calls j) σ')
    (h : (sys H body may init).Reach G s) : J s.shared ∧ ∀ i, L i (s.calls i) s.shared := by
  refine h.inv (I := fun s => J s.shared ∧ ∀ i, L i (s.calls i) s.shared) ?_ ?_
  · rintro s ⟨hi, hc⟩
    obtain ⟨hJ, hL⟩ := h0 _ hi
    exact ⟨hJ, fun i => by rw [hc]; exact hL i⟩
  · rintro s a s' - hg hn ⟨hJ, hL⟩
    cases a with
    | call i g =>
      obtain ⟨hnone, hmay, rfl⟩ := call_eq hn
      refine ⟨hJ, fun j => ?_⟩
      by_cases hj : j = i
      · subst hj
        show L j (Function.update s.calls j (some (body g)) j) s.shared
        rw [Function.update_self]
        exact hcall _ j g _ hmay hJ (hnone ▸ hL j)
      · show L j (Function.update s.calls i (some (body g)) j) s.shared
        rw [Function.update_of_ne hj]; exact hL j
    | step i c =>
      obtain ⟨o, k, r, σ', hcur, hr, rfl⟩ := step_eq hn
      obtain ⟨hJ', hi, hothers⟩ := hstep s i c o k r σ' hg hcur hr hJ hL
      refine ⟨hJ', fun j => ?_⟩
      by_cases hj : j = i
      · subst hj
        show L j (Function.update s.calls j (some (rest o k r)) j) σ'
        rw [Function.update_self]; exact hi
      · show L j (Function.update s.calls i (some (rest o k r)) j) σ'
        rw [Function.update_of_ne hj]; exact hothers j hj

/-- An assertion about the rest of one call that is kept whatever its operations return. -/
theorem call_inv {G : Pool Res ι σ α → Act ι γ χ → Prop} {i : ι} {L : Prog Res α → Prop}
    (hcall : ∀ s g, G s (.call i g) → L (body g))
    (hstep : ∀ o k, L (.op o k) → ∀ r, L (rest o k r)) (h : (sys H body may init).Reach G s) :
    ∀ p, s.calls i = some p → L p := by
  refine h.inv (I := fun s => ∀ p, s.calls i = some p → L p) ?_ ?_
  · rintro s ⟨-, hc⟩ p hp
    rw [hc] at hp
    cases hp
  · rintro s a s' - hg hn ih p hp
    cases a with
    | call j g =>
      obtain ⟨-, -, rfl⟩ := call_eq hn
      replace hp : Function.update s.calls j (some (body g)) i = some p := hp
      by_cases hj : i = j
      · subst hj
        rw [Function.update_self] at hp
        obtain rfl := Option.some.inj hp
        exact hcall s g hg
      · rw [Function.update_of_ne hj] at hp
        exact ih p hp
    | step j c =>
      obtain ⟨o, k, r, σ', hcur, -, rfl⟩ := step_eq hn
      replace hp : Function.update s.calls j (some (rest o k r)) i = some p := hp
      by_cases hj : i = j
      · subst hj
        rw [Function.update_self] at hp
        obtain rfl := Option.some.inj hp
        exact hstep o k (ih _ hcur) r
      · rw [Function.update_of_ne hj] at hp
        exact ih p hp

/-- A call that was not made after a step was not made before. -/
theorem calls_before {a : Act ι γ χ} (hn : (sys H body may init).next s a = some s') {j : ι}
    (hj : s'.calls j = none) : s.calls j = none := by
  cases a with
  | call i g =>
    obtain ⟨hnone, -, rfl⟩ := call_eq hn
    have e : Function.update s.calls i (some (body g)) j = none := hj
    by_cases hi : j = i
    · rw [hi]; exact hnone
    · rwa [Function.update_of_ne hi] at e
  | step i c =>
    obtain ⟨o, k, r, σ', -, -, rfl⟩ := step_eq hn
    have e : Function.update s.calls i (some (rest o k r)) j = none := hj
    by_cases hi : j = i
    · rw [hi, Function.update_self] at e
      cases e
    · rwa [Function.update_of_ne hi] at e

/-- A run of one call meets a guard that is about other calls. -/
theorem reach_alone {G : Pool Res ι σ α → Act ι γ χ → Prop} {i : ι}
    (hG : ∀ s a, (∀ j, j ≠ i → s.calls j = none) → G s a)
    (h : (sys H body may init).Reach Sys.Any s) (hs : ∀ j, j ≠ i → s.calls j = none) :
    (sys H body may init).Reach G s := by
  induction h with
  | init h => exact .init h
  | step _ _ hn ih =>
    have hbefore : ∀ j, j ≠ i → _ := fun j hj => calls_before hn (hs j hj)
    exact .step (ih hbefore) (hG _ _ hbefore) hn

end Pool

end Lib
