import LibRest.Lib.Pool

/-!
# Protocols of programs

What a program has to keep to when it calls an interface, as an automaton (`Protocol`): what it may
call in a state, and the state after each result. The state is ghost state, which belongs to one
call.

- **Rules** (`Prog.Safe`). A program that makes only calls that it may make, whatever they return.
  The rules follow the program: `safe_call`, `Safe.bind`, `Safe.all`.
- **Ownership** (`Apart`). What the ghost states of different calls own is different.
- **Interleaved calls** (`Pool.safe`). If each program is safe from the initial ghost state, and
  each step of a call keeps a relation `R` between the ghost states of all calls and the shared
  state, then `R` holds in every state of a run.
-/

namespace Lib

/-- What may be called in a ghost state, and the ghost state after a call. -/
structure Protocol {Op : Type} (Res : Op → Type) (γ : Type) where
  may : γ → Op → Prop
  next : γ → (o : Op) → Res o → γ

variable {Op : Type} {Res : Op → Type} {γ α β : Type}

/-- The ghost state after a step of a call at `o`: it stays if the call goes on. -/
def Protocol.after (P : Protocol Res γ) (g : γ) (o : Op) : Option (Res o) → γ
  | some r => P.next g o r
  | none => g

namespace Prog

variable {P : Protocol Res γ} {Q : α → γ → Prop} {g : γ}

/-- From the ghost state, the program keeps to the protocol and ends with `Q`. -/
def Safe (P : Protocol Res γ) : Prog Res α → (α → γ → Prop) → γ → Prop
  | .ret a, Q, g => Q a g
  | .op o k, Q, g => P.may g o ∧ ∀ r, Safe P (k r) Q (P.next g o r)

theorem Safe.mono {p : Prog Res α} {Q' : α → γ → Prop} (h : p.Safe P Q g)
    (hQ : ∀ a g, Q a g → Q' a g) : p.Safe P Q' g := by
  induction p generalizing g with
  | ret a => exact hQ a g h
  | op o k ih => exact ⟨h.1, fun r => ih r (h.2 r)⟩

theorem Safe.bind {p : Prog Res α} {f : α → Prog Res β} {Q : β → γ → Prop}
    (h : p.Safe P (fun a g => (f a).Safe P Q g) g) : (p >>= f).Safe P Q g := by
  induction p generalizing g with
  | ret a => exact h
  | op o k ih => exact ⟨h.1, fun r => ih r (h.2 r)⟩

theorem safe_call {o : Op} {k : Res o → Prog Res α} (ho : P.may g o)
    (hk : ∀ r, (k r).Safe P Q (P.next g o r)) : (call o >>= k).Safe P Q g :=
  ⟨ho, hk⟩

/-- Calls that may be made in the ghost state and keep it. -/
theorem Safe.all {p : Prog Res α} {N : Op → Prop} (hp : p.All N)
    (hN : ∀ o, N o → P.may g o ∧ ∀ r, P.next g o r = g) : p.Safe P (fun _ g' => g' = g) g := by
  induction p with
  | ret a => rfl
  | op o k ih =>
    obtain ⟨hmay, hkeep⟩ := hN o hp.1
    exact ⟨hmay, fun r => by rw [hkeep r]; exact ih r (hp.2 r)⟩

end Prog

/-! ## Ownership -/

section

variable {ι : Type} {own : γ → Option β} {gs : ι → γ} {i : ι}

/-- No two ghost states own the same. -/
def Apart (own : γ → Option β) (gs : ι → γ) : Prop :=
  ∀ i j b, own (gs i) = some b → own (gs j) = some b → i = j

/-- A ghost state that gets what is its own already, or what is nobody's. -/
theorem Apart.update [DecidableEq ι] (h : Apart own gs)
    (hb : ∀ b, own g = some b → own (gs i) = some b ∨ ∀ j, own (gs j) ≠ some b) :
    Apart own (Function.update gs i g) := by
  have hother : ∀ j b, j ≠ i → own g = some b → own (gs j) ≠ some b := by
    intro j b hj e e'
    rcases hb b e with hold | hnew
    · exact hj (h j i b e' hold)
    · exact hnew j e'
  intro j k b ej ek
  by_cases hj : j = i <;> by_cases hk : k = i
  · rw [hj, hk]
  · rw [hj, Function.update_self] at ej
    rw [Function.update_of_ne hk] at ek
    exact absurd ek (hother k b hk ej)
  · rw [hk, Function.update_self] at ek
    rw [Function.update_of_ne hj] at ej
    exact absurd ej (hother j b hj ek)
  · rw [Function.update_of_ne hj] at ej
    rw [Function.update_of_ne hk] at ek
    exact h j k b ej ek

/-- What is owned is still owned after a step of `i` that keeps what it has. -/
theorem owned_update [DecidableEq ι] {b : β} (h : ∃ j, own (gs j) = some b)
    (hi : own (gs i) = some b → own g = some b) :
    ∃ j, own (Function.update gs i g j) = some b := by
  obtain ⟨j, hj⟩ := h
  by_cases hji : j = i
  · subst hji
    exact ⟨j, by rw [Function.update_self]; exact hi hj⟩
  · exact ⟨j, by rw [Function.update_of_ne hji]; exact hj⟩

end

/-! ## Interleaved calls -/

namespace Pool

variable {ι σ χ κ : Type}

/-- A call that was not made is in the initial ghost state, and the rest of a call that was made is
safe. -/
def Follows (P : Protocol Res γ) (Q : α → γ → Prop) (g₀ : γ) (calls : ι → Option (Prog Res α))
    (gs : ι → γ) : Prop :=
  ∀ i, (calls i = none → gs i = g₀) ∧ ∀ p, calls i = some p → p.Safe P Q (gs i)

variable {P : Protocol Res γ} {Q : α → γ → Prop} {g₀ : γ} {calls : ι → Option (Prog Res α)}
  {gs : ι → γ} {i : ι}

/-- What a call that is at `o` may do. -/
theorem Follows.may {o : Op} {k : Res o → Prog Res α} (hf : Follows P Q g₀ calls gs)
    (hcur : calls i = some (.op o k)) : P.may (gs i) o :=
  ((hf i).2 _ hcur).1

variable [DecidableEq ι]

theorem Follows.call {p : Prog Res α} (hf : Follows P Q g₀ calls gs) (hnone : calls i = none)
    (hp : p.Safe P Q g₀) : Follows P Q g₀ (Function.update calls i (some p)) gs := by
  intro j
  by_cases hj : j = i
  · subst hj
    rw [Function.update_self]
    refine ⟨by simp, fun q e => ?_⟩
    obtain rfl := Option.some.inj e
    rw [(hf j).1 hnone]
    exact hp
  · rw [Function.update_of_ne hj]
    exact hf j

theorem Follows.step {o : Op} {k : Res o → Prog Res α} (hf : Follows P Q g₀ calls gs)
    (hcur : calls i = some (.op o k)) (r : Option (Res o)) :
    Follows P Q g₀ (Function.update calls i (some (rest o k r)))
      (Function.update gs i (P.after (gs i) o r)) := by
  intro j
  by_cases hj : j = i
  · subst hj
    rw [Function.update_self, Function.update_self]
    refine ⟨by simp, fun q e => ?_⟩
    obtain rfl := Option.some.inj e
    have hsafe := (hf j).2 _ hcur
    cases r with
    | none => exact hsafe
    | some x => exact hsafe.2 x
  · rw [Function.update_of_ne hj, Function.update_of_ne hj]
    exact hf j

/-- **Interleaved calls** that keep to a protocol. -/
theorem safe {H : ι → Handler Res σ χ} {body : κ → Prog Res α}
    {may : (ι → Option (Prog Res α)) → ι → κ → Bool} {init : σ → Prop} {s : Pool Res ι σ α}
    {R : (ι → γ) → σ → Prop} {G : Pool Res ι σ α → Act ι κ χ → Prop}
    (h₀ : ∀ σ, init σ → R (fun _ => g₀) σ)
    (hbody : ∀ calls i k, may calls i k = true → (body k).Safe P Q g₀)
    (hstep : ∀ (s : Pool Res ι σ α) i c o k r σ' gs, G s (.step i c) → s.calls i = some (.op o k) →
      H i o s.shared c = some (r, σ') → Follows P Q g₀ s.calls gs → R gs s.shared →
      R (Function.update gs i (P.after (gs i) o r)) σ')
    (h : (sys H body may init).Reach G s) : ∃ gs, R gs s.shared ∧ Follows P Q g₀ s.calls gs := by
  refine h.inv (I := fun s => ∃ gs, R gs s.shared ∧ Follows P Q g₀ s.calls gs) ?_ ?_
  · rintro s ⟨hi, hc⟩
    refine ⟨fun _ => g₀, h₀ _ hi, fun i => ⟨fun _ => rfl, fun p hp => ?_⟩⟩
    rw [hc] at hp
    cases hp
  · rintro s a s' - hg hn ⟨gs, hR, hf⟩
    cases a with
    | call i k =>
      obtain ⟨hnone, hmay, rfl⟩ := call_eq hn
      exact ⟨gs, hR, hf.call hnone (hbody _ _ _ hmay)⟩
    | step i c =>
      obtain ⟨o, k, r, σ', hcur, hr, rfl⟩ := step_eq hn
      exact ⟨_, hstep s i c o k r σ' gs hg hcur hr hf hR, hf.step hcur r⟩

end Pool

end Lib
