import Mathlib.Order.Defs.Unbundled
import LibRest.Lib.Pool

/-!
# Rely and guarantee

What a program does while others step on the same state. `rg H R G p Q s`: from `s`, if the steps
of the others are all in the rely `R`, then each step of `p` is in the guarantee `G`, and when `p`
returns, `Q` holds and stays. The rely is a preorder: any number of steps of the others.

- **Soundness** (`rg_step`, `rg_stable`, `rg_result`). The rest of a call keeps its `rg` when the
  call steps and when others do, and at its end the postcondition holds. So `rg` is an assertion
  about the rest of a call, as the invariants of a pool need one for each call.
- **Rules** (`rg_ret`, `rg_call`, `rg_bind`, `rg_mono`). An assertion that the others keep is
  stated before each operation (`rg_call`).
- A step that does not return (`none`) has to be in the rely too: the operation goes on from it.
-/

namespace Lib

namespace Prog

variable {Op : Type} {Res : Op → Type} {α β σ χ : Type}

/-- The program keeps the guarantee `G` and ends with `Q`, among steps in `R`. -/
def rg (H : Handler Res σ χ) (R G : σ → σ → Prop) : Prog Res α → (α → σ → Prop) → σ → Prop
  | .ret a, Q, s => ∀ s', R s s' → Q a s'
  | .op o k, Q, s => ∀ s', R s s' → ∀ c r s'', H o s' c = some (r, s'') →
    G s' s'' ∧ match r with
      | some r => rg H R G (k r) Q s''
      | none => R s' s''

variable {H : Handler Res σ χ} {R G G' : σ → σ → Prop} {Q Q' : α → σ → Prop} {s s' : σ}
  {p : Prog Res α}

/-! ## Soundness -/

/-- Steps of the others. -/
theorem rg_stable [IsTrans σ R] (h : rg H R G p Q s) (hs : R s s') : rg H R G p Q s' := by
  cases p with
  | ret a => exact fun t ht => h t (IsTrans.trans _ _ _ hs ht)
  | op o k => exact fun t ht => h t (IsTrans.trans _ _ _ hs ht)

/-- A step of the program. -/
theorem rg_step [IsPreorder σ R] {o : Op} {k : Res o → Prog Res α} {c : χ} {r : Option (Res o)}
    (h : rg H R G (.op o k) Q s) (hs : H o s c = some (r, s')) :
    G s s' ∧ rg H R G (Pool.rest o k r) Q s' := by
  obtain ⟨hG, hr⟩ := h s (Std.Refl.refl s) c r s' hs
  refine ⟨hG, ?_⟩
  cases r with
  | some r => exact hr
  | none => exact rg_stable h hr

/-- The end of the program. -/
theorem rg_result [IsPreorder σ R] {a : α} (h : rg H R G (.ret a) Q s) : Q a s :=
  h s (Std.Refl.refl s)

/-! ## Rules -/

theorem rg_ret {a : α} (hQ : ∀ s s', R s s' → Q a s → Q a s') (h : Q a s) :
    rg H R G (.ret a) Q s :=
  fun s' hs => hQ s s' hs h

theorem rg_mono (h : rg H R G p Q s) (hG : ∀ s s', G s s' → G' s s')
    (hQ : ∀ a s, Q a s → Q' a s) : rg H R G' p Q' s := by
  induction p generalizing s with
  | ret a => exact fun s' hs => hQ a s' (h s' hs)
  | op o k ih =>
    intro s' hs c r s'' hstep
    obtain ⟨hg, hr⟩ := h s' hs c r s'' hstep
    refine ⟨hG _ _ hg, ?_⟩
    cases r with
    | some r => exact ih r hr
    | none => exact hr

/-- One program after another. -/
theorem rg_bind [IsPreorder σ R] {f : α → Prog Res β} {Q : β → σ → Prop}
    (h : rg H R G p (fun a s' => rg H R G (f a) Q s') s) : rg H R G (p >>= f) Q s := by
  induction p generalizing s with
  | ret a => exact rg_result (H := H) (R := R) (G := G) h
  | op o k ih =>
    intro s' hs c r s'' hstep
    obtain ⟨hG, hr⟩ := h s' hs c r s'' hstep
    refine ⟨hG, ?_⟩
    cases r with
    | some r => exact ih r hr
    | none => exact hr

/-- A call of one operation. The others keep `P`, and each step from `P` is in the guarantee and
leads on. -/
theorem rg_call {o : Op} {k : Res o → Prog Res α} {P : σ → Prop}
    (hP : ∀ s s', R s s' → P s → P s') (h : P s)
    (hstep : ∀ s c r s', P s → H o s c = some (r, s') →
      G s s' ∧ match r with
        | some r => rg H R G (k r) Q s'
        | none => R s s') :
    rg H R G (call o >>= k) Q s :=
  fun s' hs c r s'' => hstep s' c r s'' (hP s s' hs h)

end Prog

end Lib
