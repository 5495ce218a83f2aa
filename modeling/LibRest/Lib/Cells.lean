import Mathlib.Data.List.Infix

/-!
# Cells

An array of a fixed size, with writes and reads that fail outside of it. What a proof knows of an
array is how its contents begin: a write that starts within the known part extends or changes it
(`prefix_write`).
-/

namespace Lib

variable {α : Type} {n : Nat}

/-- The `len` elements from the offset `off` on; `none` if some of them are outside. -/
def readAt (l : List α) (off len : Nat) : Option (List α) :=
  if off + len ≤ l.length then some ((l.drop off).take len) else none

theorem readAt_eq {l : List α} {off len : Nat} (h : off + len ≤ l.length) :
    readAt l off len = some ((l.drop off).take len) :=
  if_pos h

/-- An array of `n` elements. -/
structure Cells (α : Type) (n : Nat) where
  toList : List α
  size : toList.length = n

namespace Cells

/-- The elements `xs` are written from the offset `off` on; `none` if they do not fit. -/
def write (b : Cells α n) (off : Nat) (xs : List α) : Option (Cells α n) :=
  if h : off + xs.length ≤ n then
    some ⟨b.toList.take off ++ xs ++ b.toList.drop (off + xs.length), by
      simp only [List.length_append, List.length_take, List.length_drop, b.size]
      omega⟩
  else none

/-- A write within the array succeeds. What was known up to its offset stays, and what was known
after it. -/
theorem prefix_write {b : Cells α n} {p : List α} (hp : p <+: b.toList) {off : Nat}
    (ho : off ≤ p.length) {xs : List α} (h : off + xs.length ≤ n) :
    ∃ b', b.write off xs = some b' ∧
      p.take off ++ xs ++ p.drop (off + xs.length) <+: b'.toList := by
  refine ⟨_, dif_pos h, ?_⟩
  obtain ⟨t, e⟩ := hp
  show _ <+: b.toList.take off ++ xs ++ b.toList.drop (off + xs.length)
  rw [← e, List.take_append_of_le_length ho, List.drop_append, ← List.append_assoc]
  exact List.prefix_append ..

/-- A write right after the known part. -/
theorem prefix_append {b : Cells α n} {p : List α} (hp : p <+: b.toList) {xs : List α}
    (h : p.length + xs.length ≤ n) :
    ∃ b', b.write p.length xs = some b' ∧ p ++ xs <+: b'.toList := by
  obtain ⟨b', hb, hpre⟩ := prefix_write hp (Nat.le_refl _) h
  refine ⟨b', hb, ?_⟩
  rwa [List.take_length, List.drop_eq_nil_of_le (by omega), List.append_nil] at hpre

/-- What is read from the start is known. -/
theorem readAt_prefix {b : Cells α n} {p : List α} (hp : p <+: b.toList) :
    readAt b.toList 0 p.length = some p := by
  rw [readAt_eq (by have := hp.length_le; omega), List.drop_zero, ← List.prefix_iff_eq_take.mp hp]

end Cells

end Lib
