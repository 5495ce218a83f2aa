import Mathlib.Logic.Basic

/-!
# Programs that call an interface

`Prog Res α` is a program that calls operations `o : Op`, each with a result of type `Res o`, and
returns an `α`. It is a finite tree: a call, and for each result the rest of the program. What an
operation does is not part of the program, so one program can be run alone, or interleaved with
others (`Lib/Pool.lean`), over one meaning of the operations.

- **The meaning of the operations** (`Handler`). One step of a call on a state. The choice `χ`
  settles what the interface may do; `none` as a result says that the call goes on after the step.
- **Running alone** (`exec`). Each call takes one step; the list has the choices of the calls.
- **Weakest preconditions** (`wp`): the postcondition holds after every run, for all choices. The
  rules follow the program: `wp_bind`, `Refines.wp_call`; `wp_exec` is what `wp` says of a run, and
  `wp_of_exec` the other way round.
- **Fewer choices** (`Refines`). A handler that rules out some steps of another has its rules.
- **Histories** (`Hist`): calls one after the other on one state. `Hist.each` proves a property
  of every call of a history from the `wp` of one call.
-/

namespace Lib

/-- A program over the operations `Op`. -/
inductive Prog {Op : Type} (Res : Op → Type) (α : Type) where
  | ret (a : α)
  | op (o : Op) (k : Res o → Prog Res α)

/-- One step of a call: `some (some r, s')` if it returns `r`, `some (none, s')` if it goes on. -/
abbrev Handler {Op : Type} (Res : Op → Type) (σ χ : Type) :=
  (o : Op) → σ → χ → Option (Option (Res o) × σ)

namespace Prog

variable {Op : Type} {Res : Op → Type} {α β γ σ χ : Type}

/-- Sequencing. -/
def bind : Prog Res α → (α → Prog Res β) → Prog Res β
  | .ret a, f => f a
  | .op o k, f => .op o fun r => (k r).bind f

instance : Monad (Prog Res) where
  pure := .ret
  bind := Prog.bind

/-- The call of one operation. -/
def call (o : Op) : Prog Res (Res o) := .op o .ret

/-! ## The operations of a program -/

/-- Every operation of the program has `P`, whatever the calls return. -/
def All (P : Op → Prop) : Prog Res α → Prop
  | .ret _ => True
  | .op o k => P o ∧ ∀ r, All P (k r)

theorem All.bind {P : Op → Prop} {p : Prog Res α} {f : α → Prog Res β} (hp : p.All P)
    (hf : ∀ a, (f a).All P) : (p >>= f).All P := by
  induction p with
  | ret a => exact hf a
  | op o k ih => exact ⟨hp.1, fun r => ih r (hp.2 r)⟩

/-! ## Running alone -/

/-- One step of a call, if the call returns with it. -/
def finish (H : Handler Res σ χ) (o : Op) (s : σ) (c : χ) : Option (Res o × σ) :=
  match H o s c with
  | some (some r, s') => some (r, s')
  | _ => none

theorem finish_eq_some {H : Handler Res σ χ} {o : Op} {s s' : σ} {c : χ} {r : Res o} :
    finish H o s c = some (r, s') ↔ H o s c = some (some r, s') := by
  unfold finish
  split
  · rename_i r₁ s₁ e; rw [e]; simp
  · rename_i hne
    constructor
    · intro h; cases h
    · intro h; exact absurd h (hne r s')

/-- Every step of `H'` is a step of `H`. -/
def Refines (H' H : Handler Res σ χ) : Prop := ∀ o s c x, H' o s c = some x → H o s c = some x

theorem Refines.refl (H : Handler Res σ χ) : Refines H H := fun _ _ _ _ h => h

theorem Refines.finish {H H' : Handler Res σ χ} (hH : Refines H' H) {o : Op} {s s' : σ} {c : χ}
    {r : Res o} (h : finish H' o s c = some (r, s')) : H o s c = some (some r, s') :=
  hH _ _ _ _ (finish_eq_some.mp h)

/-- The run of a program with the choices `cs` of its calls, and the choices left over. -/
def exec (H : Handler Res σ χ) : Prog Res α → σ → List χ → Option (α × σ × List χ)
  | .ret a, s, cs => some (a, s, cs)
  | .op _ _, _, [] => none
  | .op o k, s, c :: cs => (finish H o s c).bind fun p => exec H (k p.1) p.2 cs

/-- The program, run alone from `s`, can return `a` in the state `s'`. -/
def Returns (H : Handler Res σ χ) (p : Prog Res α) (s : σ) (a : α) (s' : σ) : Prop :=
  ∃ cs, exec H p s cs = some (a, s', [])

theorem exec_bind {H : Handler Res σ χ} {p : Prog Res α} {f : α → Prog Res β} {s : σ}
    {cs : List χ} :
    exec H (p >>= f) s cs = (exec H p s cs).bind fun x => exec H (f x.1) x.2.1 x.2.2 := by
  induction p generalizing s cs with
  | ret a => rfl
  | op o k ih =>
    cases cs with
    | nil => rfl
    | cons c cs =>
      show ((finish H o s c).bind fun x => exec H (k x.1 >>= f) x.2 cs) =
        ((finish H o s c).bind fun x => exec H (k x.1) x.2 cs).bind _
      rw [Option.bind_assoc]
      exact congrArg _ (funext fun x => ih x.1)

/-- The first operation of a run. -/
theorem exec_call {H : Handler Res σ χ} {o : Op} {k : Res o → Prog Res α} {s : σ} {cs : List χ}
    {x : α × σ × List χ} (h : exec H (call o >>= k) s cs = some x) :
    ∃ c cs' r s', cs = c :: cs' ∧ H o s c = some (some r, s') ∧ exec H (k r) s' cs' = some x := by
  cases cs with
  | nil => cases h
  | cons c cs =>
    obtain ⟨⟨r, s'⟩, hf, hr⟩ := Option.bind_eq_some_iff.mp h
    exact ⟨c, cs, r, s', rfl, finish_eq_some.mp hf, hr⟩

/-- The first part of a run. -/
theorem exec_seq {H : Handler Res σ χ} {p : Prog Res α} {f : α → Prog Res β} {s : σ}
    {cs : List χ} {x : β × σ × List χ} (h : exec H (p >>= f) s cs = some x) :
    ∃ a s' cs', exec H p s cs = some (a, s', cs') ∧ exec H (f a) s' cs' = some x := by
  rw [exec_bind] at h
  obtain ⟨⟨a, s', cs'⟩, hp, hf⟩ := Option.bind_eq_some_iff.mp h
  exact ⟨a, s', cs', hp, hf⟩

/-- What a run shows at its end is shown by a state in which the program can return. -/
theorem Returns.observe {H : Handler Res σ χ} {p : Prog Res α} {s : σ} {β : Type} {b : β}
    (f : σ → β) (cs : List χ)
    (h : (exec H p s cs).map (fun x => (f x.2.1, x.2.2.length)) = some (b, 0)) :
    ∃ a s', p.Returns H s a s' ∧ f s' = b := by
  obtain ⟨⟨a, s', rest⟩, hr, hb⟩ := Option.map_eq_some_iff.mp h
  obtain ⟨hf, hrest⟩ := Prod.mk.inj hb
  obtain rfl := List.eq_nil_of_length_eq_zero hrest
  exact ⟨a, s', ⟨cs, hr⟩, hf⟩

/-! ## Weakest preconditions -/

/-- Every run of the program from `s` ends with `Q`. -/
def wp (H : Handler Res σ χ) : Prog Res α → (α → σ → Prop) → σ → Prop
  | .ret a, Q, s => Q a s
  | .op o k, Q, s => ∀ c r s', finish H o s c = some (r, s') → wp H (k r) Q s'

section Rules

variable {H : Handler Res σ χ} {Q Q' : α → σ → Prop} {s s' : σ}

theorem wp_mono {p : Prog Res α} (h : wp H p Q s) (hQ : ∀ a s, Q a s → Q' a s) :
    wp H p Q' s := by
  induction p generalizing s with
  | ret a => exact hQ a s h
  | op o k ih => exact fun c r s' hs => ih r (h c r s' hs)

theorem wp_bind {p : Prog Res α} {f : α → Prog Res β} {Q : β → σ → Prop} :
    wp H (p >>= f) Q s ↔ wp H p (fun a s' => wp H (f a) Q s') s := by
  induction p generalizing s with
  | ret a => exact Iff.rfl
  | op o k ih => exact forall₄_congr fun c r s' _ => ih r

/-- A call of one operation, of a handler that rules out steps of `H'`. -/
theorem Refines.wp_call {H' : Handler Res σ χ} (hH : Refines H H') {o : Op}
    {k : Res o → Prog Res α}
    (hk : ∀ c r s', H' o s c = some (some r, s') → wp H (k r) Q s') :
    wp H (call o >>= k) Q s :=
  wp_bind.mpr fun c r s' h => hk c r s' (hH.finish h)

/-- **Soundness.** What `wp` says of a run. -/
theorem wp_exec {p : Prog Res α} {a : α} {cs rest : List χ} (h : wp H p Q s)
    (hr : exec H p s cs = some (a, s', rest)) : Q a s' := by
  induction p generalizing s cs with
  | ret b =>
    simp only [exec, Option.some.injEq, Prod.mk.injEq] at hr
    obtain ⟨rfl, rfl, -⟩ := hr
    exact h
  | op o k ih =>
    cases cs with
    | nil => cases hr
    | cons c cs =>
      obtain ⟨⟨r, s₁⟩, hs, hr⟩ := Option.bind_eq_some_iff.mp hr
      exact ih r (h c r s₁ hs) hr

/-- **Completeness.** What holds after every run is a `wp`. -/
theorem wp_of_exec {p : Prog Res α}
    (h : ∀ a s' cs rest, exec H p s cs = some (a, s', rest) → Q a s') : wp H p Q s := by
  induction p generalizing s with
  | ret a => exact h a s [] [] rfl
  | op o k ih =>
    intro c r s₁ hs
    refine ih r fun a s' cs rest hr => h a s' (c :: cs) rest ?_
    simp only [exec, hs, Option.bind_some]
    exact hr

/-- A run of a handler that rules out steps of `H'` is a run of `H'`. -/
theorem Refines.exec {H' : Handler Res σ χ} (hH : Refines H H') {p : Prog Res α} {a : α}
    {cs rest : List χ} (hr : Prog.exec H p s cs = some (a, s', rest)) :
    Prog.exec H' p s cs = some (a, s', rest) := by
  induction p generalizing s cs with
  | ret b => exact hr
  | op o k ih =>
    cases cs with
    | nil => cases hr
    | cons c cs =>
      obtain ⟨⟨r, s₁⟩, hs, hr⟩ := Option.bind_eq_some_iff.mp hr
      have hs' : Prog.finish H' o s c = some (r, s₁) := finish_eq_some.mpr (hH.finish hs)
      simp only [Prog.exec, hs', Option.bind_some]
      exact ih r hr

theorem wp_returns {p : Prog Res α} {a : α} (h : wp H p Q s) (hr : p.Returns H s a s') :
    Q a s' := by
  obtain ⟨cs, hcs⟩ := hr
  exact wp_exec h hcs

end Rules

/-! ## Histories -/

/-- One call of a history: what was called, what it returned, the states before and after. -/
structure Entry (γ α σ : Type) where
  called : γ
  result : α
  before : σ
  after : σ

/-- The calls `es`, one after the other, lead from `s` to `s'`. -/
inductive Hist (H : Handler Res σ χ) (body : γ → Prog Res α) (s : σ) :
    List (Entry γ α σ) → σ → Prop where
  | nil : Hist H body s [] s
  | snoc {es : List (Entry γ α σ)} {s₁ s₂ : σ} {g : γ} {a : α} :
      Hist H body s es s₁ → (body g).Returns H s₁ a s₂ → Hist H body s (es ++ [⟨g, a, s₁, s₂⟩]) s₂

/-- A call of a history, and the calls before it. -/
theorem Hist.split {H : Handler Res σ χ} {body : γ → Prog Res α} {s s' : σ}
    {es₁ es₂ : List (Entry γ α σ)} {e : Entry γ α σ} (h : Hist H body s (es₁ ++ e :: es₂) s') :
    Hist H body s es₁ e.before ∧ (body e.called).Returns H e.before e.result e.after := by
  generalize hes : es₁ ++ e :: es₂ = es at h
  induction h generalizing es₂ with
  | nil => simp at hes
  | @snoc es s₁ s₂ g a hist hr ih =>
    rcases List.eq_nil_or_concat es₂ with rfl | ⟨es₂', x, rfl⟩
    · obtain ⟨rfl, e'⟩ := List.append_inj' hes rfl
      obtain rfl := List.singleton_inj.mp e'
      exact ⟨hist, hr⟩
    · rw [List.concat_eq_append, ← List.cons_append, ← List.append_assoc] at hes
      exact ih (List.append_inj' hes rfl).1

/-- Runs the calls one after the other, each with its choices. -/
def histRun (H : Handler Res σ χ) (body : γ → Prog Res α) :
    σ → List (γ × List χ) → Option (List (Entry γ α σ) × σ)
  | s, [] => some ([], s)
  | s, (g, cs) :: rest =>
    match exec H (body g) s cs with
    | some (a, s₁, []) => (histRun H body s₁ rest).map fun p => (⟨g, a, s, s₁⟩ :: p.1, p.2)
    | _ => none

theorem Hist.of_run {H : Handler Res σ χ} {body : γ → Prog Res α} {s s₁ s' : σ}
    {es es' : List (Entry γ α σ)} {calls : List (γ × List χ)} (h : Hist H body s es s₁)
    (hr : histRun H body s₁ calls = some (es', s')) : Hist H body s (es ++ es') s' := by
  induction calls generalizing es es' s₁ with
  | nil =>
    simp only [histRun, Option.some.injEq, Prod.mk.injEq] at hr
    obtain ⟨rfl, rfl⟩ := hr
    rwa [List.append_nil]
  | cons p calls ih =>
    obtain ⟨g, cs⟩ := p
    simp only [histRun] at hr
    split at hr
    · rename_i a s₂ he
      obtain ⟨⟨es'', s''⟩, hr', hp⟩ := Option.map_eq_some_iff.mp hr
      simp only [Prod.mk.injEq] at hp
      obtain ⟨rfl, rfl⟩ := hp
      rw [List.append_cons]
      exact ih (.snoc h ⟨cs, he⟩) hr'
    · cases hr

/-- What a run of calls shows at its end is shown by a history. -/
theorem Hist.observe {H : Handler Res σ χ} {p : γ → Prog Res α} {s : σ} {β : Type} {b : β}
    (f : List (Entry γ α σ) × σ → β) (calls : List (γ × List χ))
    (h : (histRun H p s calls).map f = some b) : ∃ es s', Hist H p s es s' ∧ f (es, s') = b := by
  obtain ⟨⟨es, s'⟩, hr, hf⟩ := Option.map_eq_some_iff.mp h
  exact ⟨es, s', Hist.of_run .nil hr, hf⟩

/-- **Histories.** If each call from a state with `I` ends in a state with `I` and with `R` of the
call, every call of a history from a state with `I` has `R`. -/
theorem Hist.each {H : Handler Res σ χ} {body : γ → Prog Res α} {I : σ → Prop}
    {R : γ → α → σ → σ → Prop} {s s' : σ} {es : List (Entry γ α σ)}
    (hwp : ∀ g s, I s → wp H (body g) (fun a s' => I s' ∧ R g a s s') s) (hi : I s)
    (h : Hist H body s es s') : I s' ∧ ∀ e ∈ es, R e.called e.result e.before e.after := by
  induction h with
  | nil => exact ⟨hi, fun e he => by cases he⟩
  | @snoc es s₁ s₂ g a _ hr ih =>
    obtain ⟨hi₁, hes⟩ := ih
    obtain ⟨hi₂, hR⟩ := wp_returns (hwp g s₁ hi₁) hr
    refine ⟨hi₂, fun e he => ?_⟩
    rcases List.mem_append.mp he with he | he
    · exact hes e he
    · obtain rfl := List.mem_singleton.mp he; exact hR

end Prog

end Lib
