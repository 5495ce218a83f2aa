import LibRest.Lib.Prog

/-!
# Runs with a log

`logged H` is the interface `H` on states with a log of its steps: each step adds its operation and
its choice. So a property of a run can be compared with what the interface did in it.

- A run of `H` is a run of `logged H`, whatever the log has before (`exec_logged`), and histories
  likewise (`Hist.logged`).
- **Exact conditions** (`Hist.each_iff`). If one call has `P` exactly when its steps are all `Good`,
  the calls of a history all have `P` exactly when all steps of the history are `Good`.
-/

namespace Lib

namespace Prog

variable {Op : Type} {Res : Op → Type} {α γ σ χ : Type} {H : Handler Res σ χ}

/-- The operations of a run, each with its choice. -/
abbrev Log (Op χ : Type) := List (Op × χ)

/-- `H`, on states with a log. -/
def logged (H : Handler Res σ χ) : Handler Res (σ × Log Op χ) χ := fun o s c =>
  (H o s.1 c).map fun x => (x.1, x.2, s.2 ++ [(o, c)])

theorem logged_eq_some {o : Op} {s t : σ × Log Op χ} {c : χ} {r : Option (Res o)} :
    logged H o s c = some (r, t) ↔ H o s.1 c = some (r, t.1) ∧ t.2 = s.2 ++ [(o, c)] := by
  obtain ⟨t, l⟩ := t
  unfold logged
  cases H o s.1 c with
  | none => simp
  | some x =>
    obtain ⟨r', s'⟩ := x
    simp only [Option.map_some, Option.some.injEq, Prod.mk.injEq, and_assoc]
    exact and_congr_right fun _ => and_congr_right fun _ => eq_comm

theorem finish_logged {o : Op} {s t : σ × Log Op χ} {c : χ} {r : Res o} :
    finish (logged H) o s c = some (r, t) ↔
      finish H o s.1 c = some (r, t.1) ∧ t.2 = s.2 ++ [(o, c)] := by
  rw [finish_eq_some, finish_eq_some, logged_eq_some]

/-- A call of one operation. -/
theorem wp_logged {o : Op} {k : Res o → Prog Res α} {Q : α → σ × Log Op χ → Prop}
    {s : σ × Log Op χ}
    (hk : ∀ c r s', H o s.1 c = some (some r, s') →
      wp (logged H) (k r) Q (s', s.2 ++ [(o, c)])) :
    wp (logged H) (call o >>= k) Q s := by
  refine wp_bind.mpr fun c r t h => ?_
  obtain ⟨hf, hl⟩ := finish_logged.mp h
  obtain ⟨s', l⟩ := t
  obtain rfl := hl
  exact hk c r s' (finish_eq_some.mp hf)

/-- A run of `H` adds the same steps to every log. -/
theorem exec_logged {p : Prog Res α} {s s' : σ} {a : α} {cs rest : List χ}
    (h : exec H p s cs = some (a, s', rest)) :
    ∃ steps : Log Op χ, ∀ l, exec (logged H) p (s, l) cs = some (a, (s', l ++ steps), rest) := by
  induction p generalizing s cs with
  | ret b =>
    simp only [exec, Option.some.injEq, Prod.mk.injEq] at h
    obtain ⟨rfl, rfl, rfl⟩ := h
    exact ⟨[], fun l => by rw [List.append_nil]; rfl⟩
  | op o k ih =>
    cases cs with
    | nil => cases h
    | cons c cs =>
      obtain ⟨⟨r, s₁⟩, hs, hr⟩ := Option.bind_eq_some_iff.mp h
      obtain ⟨steps, hsteps⟩ := ih r hr
      refine ⟨(o, c) :: steps, fun l => ?_⟩
      have hf : finish (logged H) o (s, l) c = some (r, s₁, l ++ [(o, c)]) :=
        finish_logged.mpr ⟨hs, rfl⟩
      simp only [exec, hf, Option.bind_some]
      rw [hsteps, List.append_assoc, List.singleton_append]

theorem exec_of_logged {p : Prog Res α} {s t : σ × Log Op χ} {a : α} {cs rest : List χ}
    (h : exec (logged H) p s cs = some (a, t, rest)) : exec H p s.1 cs = some (a, t.1, rest) := by
  induction p generalizing s cs with
  | ret b =>
    simp only [exec, Option.some.injEq, Prod.mk.injEq] at h
    obtain ⟨rfl, rfl, rfl⟩ := h
    rfl
  | op o k ih =>
    cases cs with
    | nil => cases h
    | cons c cs =>
      obtain ⟨⟨r, s₁⟩, hs, hr⟩ := Option.bind_eq_some_iff.mp h
      obtain ⟨hf, -⟩ := finish_logged.mp hs
      simp only [exec, hf, Option.bind_some]
      exact ih r hr

/-! ## Histories -/

/-- The call without the logs. -/
def Entry.plain (e : Entry γ α (σ × Log Op χ)) : Entry γ α σ :=
  ⟨e.called, e.result, e.before.1, e.after.1⟩

variable {body : γ → Prog Res α}

/-- A history of `H` is a history with a log. -/
theorem Hist.logged {s s' : σ} {es : List (Entry γ α σ)} (h : Hist H body s es s') :
    ∃ es' l, Hist (logged H) body (s, []) es' (s', l) ∧ es'.map Entry.plain = es := by
  induction h with
  | nil => exact ⟨[], [], .nil, rfl⟩
  | @snoc es s₁ s₂ g a _ hr ih =>
    obtain ⟨es', l, h', rfl⟩ := ih
    obtain ⟨cs, hcs⟩ := hr
    obtain ⟨steps, hsteps⟩ := exec_logged hcs
    refine ⟨_, l ++ steps, .snoc h' ⟨cs, hsteps l⟩, ?_⟩
    simp [Entry.plain]

/-- **Exact conditions.** -/
theorem Hist.each_iff {I : σ → Prop} {P : Entry γ α σ → Prop} {Good : Op × χ → Prop} {s : σ}
    {es : List (Entry γ α (σ × Log Op χ))} {t : σ × Log Op χ}
    (hwp : ∀ g s, I s → wp (Prog.logged H) (body g)
      (fun a t => I t.1 ∧ (P ⟨g, a, s, t.1⟩ ↔ ∀ x ∈ t.2, Good x)) (s, []))
    (hi : I s) (h : Hist (Prog.logged H) body (s, []) es t) :
    I t.1 ∧ ((∀ e ∈ es, P e.plain) ↔ ∀ x ∈ t.2, Good x) := by
  induction h with
  | nil => exact ⟨hi, by simp⟩
  | @snoc es t₁ t₂ g a _ hr ih =>
    obtain ⟨hi₁, hes⟩ := ih
    obtain ⟨cs, hcs⟩ := hr
    obtain ⟨steps, hsteps⟩ := exec_logged (exec_of_logged hcs)
    have hone := wp_exec (hwp g t₁.1 hi₁) (hsteps [])
    have htwo : t₂ = (t₂.1, t₁.2 ++ steps) := by
      have e := hcs.symm.trans (hsteps t₁.2)
      simp only [Option.some.injEq, Prod.mk.injEq, true_and, and_true] at e
      exact e
    refine ⟨hone.1, ?_⟩
    rw [htwo]
    simp only [List.mem_append, List.mem_singleton, or_imp, forall_and, forall_eq]
    exact and_congr hes hone.2

end Prog

end Lib
