import Mathlib.Logic.Basic

/-!
# Mutual exclusion

A mutex is the thread that has it, if any. Each thread says whether it is in a section that it
locked. `Excl` ties the two together: exactly the owner is in such a section. It is kept by a lock
of the free mutex, by an unlock of a thread in its section, and by all other steps; and at most one
thread is in its section (`Excl.unique`).
-/

namespace Lib

/-- The owner `m` of the mutex is the one thread in a locked section. -/
def Excl {ι : Type} (m : Option ι) (holds : ι → Bool) : Prop := ∀ i, m = some i ↔ holds i = true

namespace Excl

variable {ι : Type} {m : Option ι} {holds holds' : ι → Bool} {i j : ι}

theorem free (h : ∀ i, holds i = false) : Excl none holds := fun i => by simp [h i]

theorem owner (h : Excl m holds) (hi : holds i = true) : m = some i := (h i).mpr hi

theorem unique (h : Excl m holds) (hi : holds i = true) (hj : holds j = true) : i = j := by
  have e := h.owner hi
  rw [h.owner hj] at e
  exact (Option.some.inj e).symm

theorem keep (h : Excl m holds) (he : ∀ j, holds' j = holds j) : Excl m holds' := fun j => by
  rw [he j]; exact h j

theorem lock (h : Excl none holds) (hi : holds' i = true) (he : ∀ j, j ≠ i → holds' j = holds j) :
    Excl (some i) holds' := fun j => by
  by_cases hj : j = i
  · subst hj; simp [hi]
  · have hn : holds j ≠ true := fun e => by cases h.owner e
    rw [he j hj]
    exact ⟨fun e => absurd (Option.some.inj e).symm hj, fun e => absurd e hn⟩

theorem unlock (h : Excl m holds) (hi : holds i = true) (hi' : holds' i = false)
    (he : ∀ j, j ≠ i → holds' j = holds j) : Excl none holds' := fun j => by
  by_cases hj : j = i
  · subst hj; simp [hi']
  · have hn : holds j ≠ true := fun e => hj (h.unique e hi)
    rw [he j hj]
    exact ⟨nofun, fun e => absurd e hn⟩

end Excl

end Lib
