import Mathlib.Data.List.Induction
import Mathlib.Data.Nat.ModEq

/-!
# Blocks

A list that is read in blocks of `n` elements.

- **Reading.** `blocks n l` has the whole blocks of `l` and `leftover n l` what is left, which is
  shorter than a block. Whole blocks in front of a list are read as they are
  (`blocks_flatten_append`).
- **Filling up.** `cut n z l` fills the last block up with `z`. Reading a list of words of `m`
  elements in blocks of `n ≤ m` and filling up loses no word (`blocks_cut`).
- **Streams.** A fold over the blocks of a message that comes in pieces: a `Stream` keeps what is
  not a whole block yet. The cuts between the pieces make no difference (`push_push`).
- **Chaining.** If the same value comes out of two chains of blocks neither of which ends in the
  other, the step has one output for two different inputs on these chains (`Collides.of_foldl`).
-/

namespace Lib

variable {α σ : Type} {n m : Nat}

/-- The first `k` pieces of `n` elements. -/
def pieces (n : Nat) : Nat → List α → List (List α)
  | 0, _ => []
  | k + 1, l => l.take n :: pieces n k (l.drop n)

/-- The whole blocks of `n` elements. -/
def blocks (n : Nat) (l : List α) : List (List α) := pieces n (l.length / n) l

/-- What is left after the whole blocks. -/
def leftover (n : Nat) (l : List α) : List α := l.drop (l.length / n * n)

/-! ## Reading -/

theorem blocks_of_short {l : List α} (h : l.length < n) : blocks n l = [] := by
  simp [blocks, Nat.div_eq_of_lt h, pieces]

theorem leftover_of_short {l : List α} (h : l.length < n) : leftover n l = l := by
  simp [leftover, Nat.div_eq_of_lt h]

theorem leftover_length (l : List α) : (leftover n l).length = l.length % n := by
  have h := Nat.mod_add_div' l.length n
  simp only [leftover, List.length_drop]
  omega

theorem leftover_length_lt (hn : 0 < n) (l : List α) : (leftover n l).length < n := by
  rw [leftover_length]
  exact Nat.mod_lt _ hn

/-- A whole block in front of a list is read as it is. -/
theorem blocks_append_left {p : List α} (hp : p.length = n) (hn : 0 < n) (l : List α) :
    blocks n (p ++ l) = p :: blocks n l := by
  have hdiv : (p ++ l).length / n = l.length / n + 1 := by
    rw [List.length_append, hp, Nat.add_comm, Nat.add_div_right _ hn]
  rw [blocks, hdiv, pieces, List.take_left' hp, List.drop_left' hp, blocks]

theorem leftover_append_left {p : List α} (hp : p.length = n) (hn : 0 < n) (l : List α) :
    leftover n (p ++ l) = leftover n l := by
  have hdiv : (p ++ l).length / n * n = p.length + l.length / n * n := by
    rw [List.length_append, hp, Nat.add_comm, Nat.add_div_right _ hn, Nat.succ_mul, Nat.add_comm]
  rw [leftover, hdiv, ← List.drop_drop, List.drop_left, leftover]

theorem blocks_flatten_append (hn : 0 < n) {ps : List (List α)} (h : ∀ p ∈ ps, p.length = n)
    (l : List α) : blocks n (ps.flatten ++ l) = ps ++ blocks n l := by
  induction ps with
  | nil => rfl
  | cons p ps ih =>
    have hp := h p List.mem_cons_self
    rw [List.flatten_cons, List.append_assoc, blocks_append_left hp hn,
      ih fun q hq => h q (List.mem_cons_of_mem p hq), List.cons_append]

theorem leftover_flatten_append (hn : 0 < n) {ps : List (List α)} (h : ∀ p ∈ ps, p.length = n)
    (l : List α) : leftover n (ps.flatten ++ l) = leftover n l := by
  induction ps with
  | nil => rfl
  | cons p ps ih =>
    have hp := h p List.mem_cons_self
    rw [List.flatten_cons, List.append_assoc, leftover_append_left hp hn]
    exact ih fun q hq => h q (List.mem_cons_of_mem p hq)

/-- Every list is whole blocks and what is left. -/
theorem exists_blocks (hn : 0 < n) (l : List α) :
    ∃ (ps : List (List α)) (r : List α),
      (∀ p ∈ ps, p.length = n) ∧ r.length < n ∧ l = ps.flatten ++ r := by
  induction h : l.length using Nat.strongRecOn generalizing l with
  | _ k ih =>
    by_cases hlt : l.length < n
    · exact ⟨[], l, by simp, hlt, rfl⟩
    · have hdrop : (l.drop n).length < k := by
        rw [List.length_drop]
        omega
      obtain ⟨ps, r, hps, hr, e⟩ := ih _ hdrop (l.drop n) rfl
      have htake : (l.take n).length = n := by
        rw [List.length_take]
        omega
      refine ⟨l.take n :: ps, r, ?_, hr, ?_⟩
      · intro p hp
        rcases List.mem_cons.mp hp with rfl | hp
        · exact htake
        · exact hps p hp
      · rw [List.flatten_cons, List.append_assoc, ← e, List.take_append_drop]

/-- There is one way to read a list. -/
theorem blocks_leftover (hn : 0 < n) {ps : List (List α)} {r : List α} (h : ∀ p ∈ ps, p.length = n)
    (hr : r.length < n) : blocks n (ps.flatten ++ r) = ps ∧ leftover n (ps.flatten ++ r) = r := by
  constructor
  · rw [blocks_flatten_append hn h, blocks_of_short hr, List.append_nil]
  · rw [leftover_flatten_append hn h, leftover_of_short hr]

theorem length_of_mem_blocks (hn : 0 < n) {l p : List α} (hp : p ∈ blocks n l) : p.length = n := by
  obtain ⟨ps, r, hps, hr, rfl⟩ := exists_blocks hn l
  rw [(blocks_leftover hn hps hr).1] at hp
  exact hps p hp

theorem flatten_blocks_append (hn : 0 < n) (l : List α) :
    (blocks n l).flatten ++ leftover n l = l := by
  obtain ⟨ps, r, hps, hr, rfl⟩ := exists_blocks hn l
  rw [(blocks_leftover hn hps hr).1, (blocks_leftover hn hps hr).2]

theorem blocks_append (hn : 0 < n) (l l' : List α) :
    blocks n (l ++ l') = blocks n l ++ blocks n (leftover n l ++ l') := by
  have h := blocks_flatten_append hn (fun p hp => length_of_mem_blocks (l := l) hn hp)
    (leftover n l ++ l')
  rwa [← List.append_assoc, flatten_blocks_append hn] at h

@[simp] theorem blocks_length (n : Nat) (l : List α) : (blocks n l).length = l.length / n := by
  have hpieces : ∀ k (l : List α), (pieces n k l).length = k := by
    intro k
    induction k with
    | zero => exact fun _ => rfl
    | succ k ih => exact fun l => by rw [pieces, List.length_cons, ih]
  exact hpieces _ l

/-- What the first elements of whole blocks are read as. -/
theorem blocks_of_append (hn : 0 < n) {ps : List (List α)} (h : ∀ p ∈ ps, p.length = n)
    {l l' : List α} (e : l ++ l' = ps.flatten) : blocks n l = ps.take (l.length / n) := by
  have hps := (blocks_leftover (r := []) hn h hn).1
  rw [List.append_nil, ← e, blocks_append hn] at hps
  rw [← hps, ← blocks_length, List.take_left]

theorem leftover_append (hn : 0 < n) (l l' : List α) :
    leftover n (l ++ l') = leftover n (leftover n l ++ l') := by
  have h := leftover_flatten_append hn (fun p hp => length_of_mem_blocks (l := l) hn hp)
    (leftover n l ++ l')
  rwa [← List.append_assoc, flatten_blocks_append hn] at h

/-! ## Filling up -/

/-- How many elements are missing after `k` elements to a whole block. -/
def missing (n k : Nat) : Nat := (n - k % n) % n

theorem missing_lt (hn : 0 < n) (k : Nat) : missing n k < n := Nat.mod_lt _ hn

theorem add_missing (hn : 0 < n) (k : Nat) : (k + missing n k) % n = 0 := by
  have hk := Nat.mod_lt k hn
  rw [missing, Nat.add_mod_mod, ← Nat.mod_add_mod]
  by_cases h : k % n = 0
  · simp [h]
  · rw [Nat.add_sub_cancel' (Nat.le_of_lt hk), Nat.mod_self]

/-- No smaller number fills a block. -/
theorem missing_eq {k r : Nat} (hr : r < n) (h : (k + r) % n = 0) : missing n k = r := by
  have hn : 0 < n := Nat.lt_of_le_of_lt (Nat.zero_le r) hr
  have hm := add_missing hn k
  have hlt := missing_lt hn k
  have hc : missing n k % n = r % n := Nat.ModEq.add_left_cancel' k (hm.trans h.symm)
  rwa [Nat.mod_eq_of_lt hlt, Nat.mod_eq_of_lt hr] at hc

/-- The blocks of `l`, with the last one filled up with `z`. -/
def cut (n : Nat) (z : α) (l : List α) : List (List α) :=
  blocks n (l ++ List.replicate (missing n l.length) z)

/-- There is one way to fill up. -/
theorem cut_eq {z : α} {ps : List (List α)} (h : ∀ p ∈ ps, p.length = n) {l : List α} {r : Nat}
    (hr : r < n) (e : ps.flatten = l ++ List.replicate r z) : cut n z l = ps := by
  have hn : 0 < n := Nat.lt_of_le_of_lt (Nat.zero_le r) hr
  have hps := blocks_leftover (r := []) hn h hn
  rw [List.append_nil] at hps
  have hmissing : missing n l.length = r := by
    apply missing_eq hr
    have hlen : l.length + r = ps.flatten.length := by rw [e]; simp
    rw [hlen, ← leftover_length, hps.2, List.length_nil]
  rw [cut, hmissing, ← e, hps.1]

theorem cut_flatten_append (hn : 0 < n) (z : α) {ps : List (List α)} (h : ∀ p ∈ ps, p.length = n)
    (l : List α) : cut n z (ps.flatten ++ l) = ps ++ cut n z l := by
  have hmissing : missing n (ps.flatten ++ l).length = missing n l.length := by
    rw [missing, ← leftover_length, leftover_flatten_append hn h, leftover_length, missing]
  rw [cut, hmissing, List.append_assoc, blocks_flatten_append hn h, cut]

theorem length_of_mem_cut (hn : 0 < n) {z : α} {l p : List α} (hp : p ∈ cut n z l) :
    p.length = n :=
  length_of_mem_blocks hn hp

theorem flatten_cut (hn : 0 < n) (z : α) (l : List α) :
    (cut n z l).flatten = l ++ List.replicate (missing n l.length) z := by
  have h := flatten_blocks_append hn (l ++ List.replicate (missing n l.length) z)
  have hleft : leftover n (l ++ List.replicate (missing n l.length) z) = [] := by
    apply List.eq_nil_of_length_eq_zero
    rw [leftover_length, List.length_append, List.length_replicate, add_missing hn]
  rwa [hleft, List.append_nil] at h

/-- Words of `m` elements that are read in blocks of `n ≤ m` come back. -/
theorem blocks_cut (hn : 0 < n) (hm : n ≤ m) (z : α) {ws : List (List α)}
    (h : ∀ w ∈ ws, w.length = m) : blocks m (cut n z ws.flatten).flatten = ws := by
  rw [flatten_cut hn]
  refine (blocks_leftover (Nat.lt_of_lt_of_le hn hm) h ?_).1
  rw [List.length_replicate]
  exact Nat.lt_of_lt_of_le (missing_lt hn _) hm

/-- Blocks come back from the words of `m` elements in them exactly if what is left after these
words was filled up. -/
theorem cut_blocks (hn : 0 < n) (hm : 0 < m) (z : α) {ps : List (List α)}
    (h : ∀ p ∈ ps, p.length = n) : cut n z (blocks m ps.flatten).flatten = ps ↔
      (leftover m ps.flatten).length < n ∧ ∀ a ∈ leftover m ps.flatten, a = z := by
  have hsplit := flatten_blocks_append hm ps.flatten
  constructor
  · intro e
    have hflat := flatten_cut hn z (blocks m ps.flatten).flatten
    rw [e] at hflat
    have hleft := List.append_cancel_left (hsplit.trans hflat)
    constructor
    · rw [hleft, List.length_replicate]
      exact missing_lt hn _
    · rw [hleft]
      exact fun a ha => List.eq_of_mem_replicate ha
  · rintro ⟨hlt, hz⟩
    apply cut_eq h hlt
    rw [← List.eq_replicate_of_mem hz, hsplit]

/-! ## Streams -/

/-- A fold over the blocks of a message, and what came in that is not a whole block yet. -/
@[ext]
structure Stream (σ α : Type) (n : Nat) where
  value : σ
  buffer : List α
  short : buffer.length < n

namespace Stream

variable {f : σ → List α → σ}

/-- A piece comes in. -/
def push (f : σ → List α → σ) (s : Stream σ α n) (l : List α) : Stream σ α n :=
  ⟨(blocks n (s.buffer ++ l)).foldl f s.value, leftover n (s.buffer ++ l),
    leftover_length_lt (Nat.lt_of_le_of_lt (Nat.zero_le _) s.short) _⟩

/-- The message ends with `l`. -/
def close (f : σ → List α → σ) (s : Stream σ α n) (l : List α) : σ := (s.push f l).value

/-- Where the message is cut makes no difference. -/
theorem push_push (s : Stream σ α n) (l l' : List α) :
    (s.push f l).push f l' = s.push f (l ++ l') := by
  have hn : 0 < n := Nat.lt_of_le_of_lt (Nat.zero_le _) s.short
  ext1
  · show _ = (blocks n (s.buffer ++ (l ++ l'))).foldl f s.value
    rw [← List.append_assoc, blocks_append hn, List.foldl_append]
    rfl
  · show _ = leftover n (s.buffer ++ (l ++ l'))
    rw [← List.append_assoc, leftover_append hn]
    rfl

theorem close_push (s : Stream σ α n) (l l' : List α) :
    (s.push f l).close f l' = s.close f (l ++ l') := by
  rw [close, push_push, close]

end Stream

/-! ## Chaining -/

/-- Two different inputs of the step, one on each chain from `v`, have one output. -/
def Collides (f : σ → List α → σ) (v : σ) (bs bs' : List (List α)) : Prop :=
  ∃ xs b xs' b', xs ++ [b] <+: bs ∧ xs' ++ [b'] <+: bs' ∧
    (xs.foldl f v, b) ≠ (xs'.foldl f v, b') ∧ f (xs.foldl f v) b = f (xs'.foldl f v) b'

/-- Two chains that end in one value: one ends in all the blocks of the other, or they collide. -/
theorem Collides.of_foldl {f : σ → List α → σ} {v : σ} {bs bs' : List (List α)}
    (h : bs.foldl f v = bs'.foldl f v) : bs <:+ bs' ∨ bs' <:+ bs ∨ Collides f v bs bs' := by
  induction bs using List.reverseRecOn generalizing bs' with
  | nil => exact .inl (List.nil_suffix)
  | append_singleton bs b ih =>
    rcases List.eq_nil_or_concat bs' with rfl | ⟨bs', b', rfl⟩
    · exact .inr (.inl List.nil_suffix)
    · rw [List.concat_eq_append] at h ⊢
      simp only [List.foldl_append, List.foldl_cons, List.foldl_nil] at h
      by_cases heq : (bs.foldl f v, b) = (bs'.foldl f v, b')
      · obtain ⟨hv, rfl⟩ := Prod.mk.inj heq
        rcases ih hv with ⟨t, rfl⟩ | ⟨t, rfl⟩ | ⟨xs, c, xs', c', hx, hx', hne, he⟩
        · exact .inl ⟨t, by rw [List.append_assoc]⟩
        · exact .inr (.inl ⟨t, by rw [List.append_assoc]⟩)
        · have hx'' := hx.trans (List.prefix_append bs [b])
          exact .inr (.inr ⟨xs, c, xs', c', hx'', hx'.trans (List.prefix_append bs' [b]), hne, he⟩)
      · exact .inr (.inr ⟨bs, b, bs', b', List.prefix_rfl, List.prefix_rfl, heq, h⟩)

end Lib
