import Mathlib.Tactic.ByContra
import LibRest.Lib.Prog
import LibRest.Lib.System

/-!
# Bounded progress

That something happens within so many steps of one party, whatever the others do.

- **Runs** (`Sys.meets`, `Sys.within`). `M s n` says that at most `n` steps of the party `W` are
  left from `s`: each of its steps lowers the number, and the steps of the others do not raise it.
  Then a run with so many steps of the party meets the goal. The number may depend on more than the
  state shows, so `M` is a relation.
- **Programs** (`Prog.Within`). The most operations that a program can make.
-/

namespace Lib

namespace Sys

variable {σ α : Type} {S : Sys σ α} {G : σ → α → Prop} {I P : σ → Prop} {W : α → Bool}
  {M : σ → Nat → Prop} {s t : σ}

/-- **Bounded progress.** Some state of the run meets the goal. -/
theorem meets (hI : ∀ s a s', I s → G s a → S.next s a = some s' → I s')
    (hpos : ∀ s, I s → M s 0 → P s)
    (hs : ∀ s a s' n, I s → ¬ P s → G s a → M s n → S.next s a = some s' →
      P s' ∨ ∃ n', M s' n' ∧ n' + (W a).toNat ≤ n)
    {as : List α} {n : Nat} (hi : I s) (hm : M s n) (hg : S.Along G s as)
    (hr : S.run s as = some t) (hc : n ≤ as.countP W) : ¬ S.Throughout (fun s => ¬ P s) s as := by
  induction as generalizing s n with
  | nil =>
    intro hnot
    obtain rfl : n = 0 := by simpa using hc
    exact hnot (hpos s hi hm)
  | cons a as ih =>
    rintro ⟨hnot, hrest⟩
    obtain ⟨s', hn, hr'⟩ := run_cons_eq.mp hr
    rcases hs s a s' n hi hnot hg.1 hm hn with hP | ⟨n', hm', hle⟩
    · exact (hrest s' hn).head hP
    · have hc' : n' ≤ as.countP W := by
        rw [List.countP_cons] at hc
        cases hW : W a <;> simp [hW] at hc hle <;> omega
      exact ih (hI s a s' hi hg.1 hn) hm' (hg.2 s' hn) hr' hc' (hrest s' hn)

/-- A goal that stays met does so along a run. -/
theorem stays (hI : ∀ s a s', I s → G s a → S.next s a = some s' → I s')
    (hP : ∀ s a s', I s → P s → G s a → S.next s a = some s' → P s')
    {as : List α} (hi : I s) (hp : P s) (hg : S.Along G s as) (hr : S.run s as = some t) : P t := by
  induction as generalizing s with
  | nil => obtain rfl := Option.some.inj hr; exact hp
  | cons a as ih =>
    obtain ⟨s', hn, hr'⟩ := run_cons_eq.mp hr
    exact ih (hI s a s' hi hg.1 hn) (hP s a s' hi hp hg.1 hn) (hg.2 s' hn) hr'

/-- **Bounded progress** to a goal that stays met. -/
theorem within (hI : ∀ s a s', I s → G s a → S.next s a = some s' → I s')
    (hP : ∀ s a s', I s → P s → G s a → S.next s a = some s' → P s')
    (hpos : ∀ s, I s → M s 0 → P s)
    (hs : ∀ s a s' n, I s → ¬ P s → G s a → M s n → S.next s a = some s' →
      P s' ∨ ∃ n', M s' n' ∧ n' + (W a).toNat ≤ n)
    {as : List α} {n : Nat} (hi : I s) (hm : M s n) (hg : S.Along G s as)
    (hr : S.run s as = some t) (hc : n ≤ as.countP W) : P t := by
  by_contra hnot
  refine meets hI hpos hs hi hm hg hr hc ?_
  clear hm hc
  induction as generalizing s with
  | nil => obtain rfl := Option.some.inj hr; exact hnot
  | cons a as ih =>
    have hns : ¬ P s := fun hp => hnot (stays hI hP hi hp hg hr)
    obtain ⟨s₁, hn₁, hr'⟩ := run_cons_eq.mp hr
    refine ⟨hns, fun s' hn => ?_⟩
    obtain rfl : s₁ = s' := Option.some.inj (hn₁.symm.trans hn)
    exact ih (hI s a s₁ hi hg.1 hn) (hg.2 s₁ hn) hr'

end Sys

namespace Prog

variable {Op : Type} {Res : Op → Type} {α β : Type}

/-- The program makes at most `n` operations. -/
def Within : Prog Res α → Nat → Prop
  | .ret _, _ => True
  | .op _ k, n => 0 < n ∧ ∀ r, Within (k r) (n - 1)

theorem Within.mono {p : Prog Res α} {m n : Nat} (h : Within p m) (hle : m ≤ n) : Within p n := by
  induction p generalizing m n with
  | ret a => trivial
  | op o k ih => exact ⟨by have := h.1; omega, fun r => ih r (h.2 r) (by omega)⟩

theorem Within.bind {p : Prog Res α} {f : α → Prog Res β} {m n : Nat} (hp : Within p m)
    (hf : ∀ a, Within (f a) n) : Within (p >>= f) (m + n) := by
  induction p generalizing m with
  | ret a => exact (hf a).mono (by omega)
  | op o k ih =>
    have hpos := hp.1
    refine ⟨by omega, fun r => ?_⟩
    have hk := ih r (hp.2 r)
    exact hk.mono (by omega)

end Prog

end Lib
