import Mathlib.Data.List.Induction
import Mathlib.Data.Nat.Bitwise

/-!
# Bits

A number as a list of bits, the most significant one first (`bits`), and back (`ofBits`). A property
of bytes is decided on the 256 of them (`forall_byte`).
-/

namespace Lib

/-- The `n` lowest bits of `k`, the most significant one first. -/
def bits : Nat → Nat → List Bool
  | 0, _ => []
  | n + 1, k => k.testBit n :: bits n k

def ofBits (l : List Bool) : Nat := l.foldl (fun k b => 2 * k + b.toNat) 0

@[simp] theorem bits_length (n k : Nat) : (bits n k).length = n := by
  induction n with
  | zero => rfl
  | succ n ih => simp [bits, ih]

theorem foldl_bits (n k i : Nat) :
    (bits n k).foldl (fun k b => 2 * k + b.toNat) i = i * 2 ^ n + k % 2 ^ n := by
  induction n generalizing i with
  | zero => simp [bits, Nat.mod_one]
  | succ n ih =>
    have hbit : k % 2 ^ (n + 1) = 2 ^ n * (k.testBit n).toNat + k % 2 ^ n := by
      rw [Nat.pow_succ, Nat.mod_mul, Nat.toNat_testBit, Nat.add_comm]
    rw [bits, List.foldl_cons, ih, hbit, Nat.add_mul, Nat.pow_succ]
    grind

theorem ofBits_bits {n k : Nat} (h : k < 2 ^ n) : ofBits (bits n k) = k := by
  rw [ofBits, foldl_bits, Nat.zero_mul, Nat.zero_add, Nat.mod_eq_of_lt h]

/-- The lowest bit is the last one. -/
theorem bits_concat (n k : Nat) : bits (n + 1) k = bits n (k / 2) ++ [k.testBit 0] := by
  induction n with
  | zero => rfl
  | succ n ih => rw [bits, ih, bits, List.cons_append, Nat.testBit_succ]

theorem bits_ofBits (l : List Bool) : bits l.length (ofBits l) = l := by
  induction l using List.reverseRecOn with
  | nil => rfl
  | append_singleton l b ih =>
    have hlast : ofBits (l ++ [b]) = 2 * ofBits l + b.toNat := by simp [ofBits]
    have hdiv : (2 * ofBits l + b.toNat) / 2 = ofBits l := by
      have := Bool.toNat_lt b
      omega
    have hbit : (2 * ofBits l + b.toNat).testBit 0 = b := by cases b <;> simp
    rw [List.length_append, List.length_singleton, bits_concat, hlast, hdiv, hbit, ih]

/-- Two numbers side by side. -/
theorem bits_append {m k : Nat} (h : k < 2 ^ m) (n j : Nat) :
    bits n j ++ bits m k = bits (n + m) (j * 2 ^ m + k) := by
  induction m generalizing k with
  | zero =>
    obtain rfl : k = 0 := by simpa using h
    simp [bits]
  | succ m ih =>
    have hhalf : k / 2 < 2 ^ m := by
      rw [Nat.pow_succ] at h
      omega
    have hdouble : j * 2 ^ (m + 1) + k = 2 * (j * 2 ^ m) + k := by
      rw [Nat.pow_succ, ← Nat.mul_assoc, Nat.mul_comm]
    have hdiv : (j * 2 ^ (m + 1) + k) / 2 = j * 2 ^ m + k / 2 := by
      rw [hdouble]
      omega
    have hbit : (j * 2 ^ (m + 1) + k).testBit 0 = k.testBit 0 := by
      rw [hdouble, Nat.testBit_zero, Nat.testBit_zero, Nat.mul_add_mod]
    rw [← Nat.add_assoc, bits_concat, bits_concat, hdiv, hbit, ← List.append_assoc, ih hhalf]

theorem ofBits_lt (l : List Bool) : ofBits l < 2 ^ l.length := by
  rw [← bits_ofBits l, ofBits, foldl_bits, bits_length, Nat.zero_mul, Nat.zero_add]
  exact Nat.mod_lt _ (Nat.two_pow_pos _)

theorem forall_byte {p : UInt8 → Prop} (h : ∀ n : Fin 256, p (UInt8.ofNat n.val)) (a : UInt8) :
    p a := by
  have ha := h ⟨a.toNat, a.toNat_lt⟩
  simpa using ha

end Lib
