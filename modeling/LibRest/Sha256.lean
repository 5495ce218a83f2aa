import LibRest.Encoding
import LibRest.Lib.Bits
import LibRest.Lib.Blocks
import Mathlib.Data.Nat.NthRoot.Defs
import Mathlib.Data.Nat.Prime.Defs

/-!
# SHA-256

What the class `SHA256` and `sha256` (`sha256.cpp`) compute. `Fips180` is the hash function of FIPS
180 for messages of whole bytes, from its definition: its tables are bits of roots of primes, its
schedule is a recursion on the words, its rotations are those of bit vectors, and it has the whole
message before it.

- **Compression** (`transformBlock_eq`). `transform` of a block is the compression function.
- **Pieces** (`Sha256.Reads`). After `init` and any `update` calls, the object is a stream of blocks
  whose message is the pieces one after the other.
- **Digest** (`digest_of_pieces`). `final` then gives the digest of the whole message, for messages
  of fewer than 2^29 bytes. The code keeps the length in bits in 32 bits.
- **Text** (`sha256_digits`). `sha256` writes the digest as 64 lower-case hexadecimal digits.
- **Collisions** (`sha256_collides`). Two inputs with one digest give two inputs of the compression
  function with one output.
-/

namespace LibRest

open Lib

/-! ## The hash function -/

namespace Fips180

def rotR (n : Nat) (x : UInt32) : UInt32 := ⟨x.toBitVec.rotateRight n⟩
def shR (n : Nat) (x : UInt32) : UInt32 := ⟨x.toBitVec >>> n⟩

def ch (x y z : UInt32) : UInt32 := (x &&& y) ^^^ (~~~x &&& z)
def maj (x y z : UInt32) : UInt32 := (x &&& y) ^^^ (x &&& z) ^^^ (y &&& z)
def bigSigma0 (x : UInt32) : UInt32 := rotR 2 x ^^^ rotR 13 x ^^^ rotR 22 x
def bigSigma1 (x : UInt32) : UInt32 := rotR 6 x ^^^ rotR 11 x ^^^ rotR 25 x
def smallSigma0 (x : UInt32) : UInt32 := rotR 7 x ^^^ rotR 18 x ^^^ shR 3 x
def smallSigma1 (x : UInt32) : UInt32 := rotR 17 x ^^^ rotR 19 x ^^^ shR 10 x

/-- The first 64 primes. -/
def primes : List Nat := (List.range 312).filter fun p => p.Prime

/-- The first 32 bits of the fractional part of the `n`-th root of `p`. -/
def rootBits (n p : Nat) : UInt32 := UInt32.ofNat (Nat.nthRoot n (p * 2 ^ (32 * n)) % 2 ^ 32)

/-- The constants of the rounds. -/
def k : List UInt32 := primes.map (rootBits 3)

/-- The initial value. -/
def h0 : MH :=
  ⟨rootBits 2 2, rootBits 2 3, rootBits 2 5, rootBits 2 7, rootBits 2 11, rootBits 2 13,
    rootBits 2 17, rootBits 2 19⟩

/-- The word `j` of a block, its most significant byte first. -/
def word (block : List UInt8) (j : Nat) : UInt32 :=
  UInt32.ofNat ((((block.getD (4 * j) 0).toNat * 256 + (block.getD (4 * j + 1) 0).toNat) * 256 +
    (block.getD (4 * j + 2) 0).toNat) * 256 + (block.getD (4 * j + 3) 0).toNat)

/-- The schedule. -/
def w (block : List UInt8) (t : Nat) : UInt32 :=
  if t < 16 then word block t
  else smallSigma1 (w block (t - 2)) + w block (t - 7) + smallSigma0 (w block (t - 15)) +
    w block (t - 16)
termination_by t

/-- The round `t`. -/
def round (block : List UInt8) (v : MH) (t : Nat) : MH :=
  let t1 := v.h + bigSigma1 v.e + ch v.e v.f v.g + k.getD t 0 + w block t
  let t2 := bigSigma0 v.a + maj v.a v.b v.c
  ⟨t1 + t2, v.a, v.b, v.c, v.d + t1, v.e, v.f, v.g⟩

/-- The compression function. -/
def compress (m : MH) (block : List UInt8) : MH :=
  let v := (List.range 64).foldl (round block) m
  ⟨m.a + v.a, m.b + v.b, m.c + v.c, m.d + v.d, m.e + v.e, m.f + v.f, m.g + v.g, m.h + v.h⟩

/-- The `n` lowest bytes of `x`, the most significant one first. -/
def bytes (n x : Nat) : List UInt8 :=
  (List.range n).map fun i => UInt8.ofNat (x / 256 ^ (n - 1 - i))

/-- The padding of a message of `len` bytes: a one bit, zero bits up to eight bytes before the end
of a block, and the length in bits. -/
def padding (len : Nat) : List UInt8 :=
  0x80 :: (List.replicate (missing 64 (len + 9)) 0 ++ bytes 8 (8 * len))

/-- The bytes of the words. -/
def output (m : MH) : List UInt8 :=
  [m.a, m.b, m.c, m.d, m.e, m.f, m.g, m.h].flatMap fun x => bytes 4 x.toNat

/-- The hash function. -/
def digest (message : List UInt8) : List UInt8 :=
  output ((blocks 64 (message ++ padding message.length)).foldl compress h0)

end Fips180

/-! ## Compression -/

/-- A number below 18 * 18 that is not a prime has a divisor below 18. -/
theorem prime_iff_of_lt {p : Nat} (h : p < 324) :
    p.Prime ↔ 2 ≤ p ∧ ∀ d < 18, 2 ≤ d → d < p → ¬ d ∣ p := by
  constructor
  · intro hp
    refine ⟨hp.two_le, fun d _ htwo hlt hd => ?_⟩
    rcases hp.eq_one_or_self_of_dvd d hd with rfl | rfl <;> omega
  · rintro ⟨htwo, hno⟩
    by_contra hp
    have hmin : p.minFac.Prime := Nat.minFac_prime (by omega)
    have hsq := Nat.minFac_sq_le_self (by omega) hp
    have hlt : p.minFac < 18 := by
      by_contra hge
      have : 18 ^ 2 ≤ p.minFac ^ 2 := Nat.pow_le_pow_left (by omega) 2
      omega
    have hne : p.minFac ≠ p := fun e => hp (e ▸ hmin)
    have hle := Nat.minFac_le (n := p) (by omega)
    exact hno p.minFac hlt hmin.two_le (by omega) (Nat.minFac_dvd p)

/-- The table of the source is that of the standard. -/
theorem sha256K_eq : sha256K = Fips180.k := by
  have hprimes : Fips180.primes =
      (List.range 312).filter fun p => 2 ≤ p ∧ ∀ d < 18, 2 ≤ d → d < p → ¬ d ∣ p := by
    refine List.filter_congr fun p hp => ?_
    have hlt := List.mem_range.mp hp
    exact decide_eq_decide.mpr (prime_iff_of_lt (by omega))
  rw [Fips180.k, hprimes]
  decide +kernel

theorem init_mH : Sha256.init.mH = Fips180.h0 := by decide +kernel

theorem sha256F1_eq (x : UInt32) : sha256F1 x = Fips180.bigSigma0 x := by
  apply UInt32.toBitVec_inj.mp
  simp [sha256F1, rotr, Fips180.bigSigma0, Fips180.rotR, BitVec.rotateRight_def]

theorem sha256F2_eq (x : UInt32) : sha256F2 x = Fips180.bigSigma1 x := by
  apply UInt32.toBitVec_inj.mp
  simp [sha256F2, rotr, Fips180.bigSigma1, Fips180.rotR, BitVec.rotateRight_def]

theorem sha256F3_eq (x : UInt32) : sha256F3 x = Fips180.smallSigma0 x := by
  apply UInt32.toBitVec_inj.mp
  simp [sha256F3, rotr, Fips180.smallSigma0, Fips180.rotR, Fips180.shR, BitVec.rotateRight_def]

theorem sha256F4_eq (x : UInt32) : sha256F4 x = Fips180.smallSigma1 x := by
  apply UInt32.toBitVec_inj.mp
  simp [sha256F4, rotr, Fips180.smallSigma1, Fips180.rotR, Fips180.shR, BitVec.rotateRight_def]

/-- A number below `2 ^ i` and one above it do not share a bit. -/
theorem or_shiftLeft {x y i : Nat} (h : x < 2 ^ i) : x ||| y <<< i = y * 2 ^ i + x := by
  rw [Nat.or_comm, ← Nat.shiftLeft_add_eq_or_of_lt h, Nat.shiftLeft_eq]

theorem pack32_eq (block : List UInt8) (j : Nat) :
    pack32 (block.drop (4 * j)) = Fips180.word block j := by
  have key : ∀ a b c d : UInt8,
      d.toUInt32 ||| (c.toUInt32 <<< 8) ||| (b.toUInt32 <<< 16) ||| (a.toUInt32 <<< 24) =
        UInt32.ofNat (((a.toNat * 256 + b.toNat) * 256 + c.toNat) * 256 + d.toNat) := by
    intro a b c d
    have ha := a.toNat_lt
    have hb := b.toNat_lt
    have hc := c.toNat_lt
    have hd := d.toNat_lt
    apply UInt32.toNat_inj.mp
    have hshift : ∀ {y i : Nat}, y < 2 ^ 8 → i ≤ 24 → y <<< i % 2 ^ 32 = y <<< i := by
      intro y i hy hi
      apply Nat.mod_eq_of_lt
      rw [Nat.shiftLeft_eq]
      calc y * 2 ^ i < 2 ^ 8 * 2 ^ i := Nat.mul_lt_mul_of_pos_right hy (Nat.two_pow_pos i)
        _ = 2 ^ (8 + i) := (Nat.pow_add ..).symm
        _ ≤ 2 ^ 32 := Nat.pow_le_pow_right (by decide) (by omega)
    simp only [UInt32.toNat_or, UInt32.toNat_shiftLeft, UInt8.toNat_toUInt32, UInt32.toNat_ofNat]
    rw [hshift hc (by decide), hshift hb (by decide), hshift ha (by decide),
      or_shiftLeft (i := 8) hd, or_shiftLeft (i := 16) (by omega),
      or_shiftLeft (i := 24) (by omega), UInt32.toNat_ofNat_of_lt' (by rw [UInt32.size]; omega)]
    omega
  simp only [pack32, Fips180.word, List.getD_eq_getElem?_getD, List.getElem?_drop]
  exact key ..

theorem unpack32_eq (x : UInt32) : unpack32 x = Fips180.bytes 4 x.toNat := by
  have hbyte : ∀ n : UInt32, n.toNat < 32 →
      (x >>> n).toUInt8 = UInt8.ofNat (x.toNat / 2 ^ n.toNat) := by
    intro n hn
    apply UInt8.toNat_inj.mp
    rw [UInt32.toNat_toUInt8, UInt32.toNat_shiftRight, Nat.mod_eq_of_lt hn,
      Nat.shiftRight_eq_div_pow]
    exact (UInt8.toNat_ofNat' ..).symm
  rw [unpack32, hbyte 24 (by decide), hbyte 16 (by decide), hbyte 8 (by decide)]
  simp [Fips180.bytes, List.range_succ]

/-- The schedule that the code computes. -/
theorem schedule_eq (block : List UInt8) :
    schedule block = (List.range 64).map (Fips180.w block) := by
  have hfirst : (List.range 16).map (fun j => pack32 (block.drop (4 * j))) =
      (List.range 16).map (Fips180.w block) := by
    refine List.map_congr_left fun j hj => ?_
    rw [pack32_eq, Fips180.w, if_pos (List.mem_range.mp hj)]
  have hloop : ∀ n, (List.range n).foldl (fun w i =>
      let j := i + 16
      w ++ [sha256F4 (w.getD (j - 2) 0) + w.getD (j - 7) 0 + sha256F3 (w.getD (j - 15) 0) +
        w.getD (j - 16) 0]) ((List.range 16).map (Fips180.w block)) =
      (List.range (16 + n)).map (Fips180.w block) := by
    intro n
    induction n with
    | zero => rfl
    | succ n ih =>
      have hget : ∀ j, j < 16 + n →
          ((List.range (16 + n)).map (Fips180.w block)).getD j 0 = Fips180.w block j := by
        intro j hj
        simp [List.getD_eq_getElem?_getD, hj]
      rw [List.range_succ (n := n), List.foldl_append, ih, List.foldl_cons, List.foldl_nil,
        ← Nat.add_assoc, List.range_succ, List.map_append]
      simp only [List.map_cons, List.map_nil]
      rw [hget _ (by omega), hget _ (by omega), hget _ (by omega), hget _ (by omega),
        sha256F3_eq, sha256F4_eq, Fips180.w.eq_def block (16 + n), if_neg (by omega),
        Nat.add_comm n 16]
  rw [schedule, hfirst]
  exact hloop 48

/-- `transform` of one block is the compression function. -/
theorem transformBlock_eq : transformBlock = Fips180.compress := by
  funext m block
  have hzip : sha256K.zip (schedule block) =
      (List.range 64).map fun t => (Fips180.k.getD t 0, Fips180.w block t) := by
    have hk : sha256K = (List.range 64).map fun t => Fips180.k.getD t 0 := by
      rw [← sha256K_eq]
      decide
    rw [hk, schedule_eq, List.zip_map']
  have hround : ∀ v t, sha256Round v (Fips180.k.getD t 0) (Fips180.w block t) =
      Fips180.round block v t := by
    intro v t
    simp only [sha256Round, Fips180.round, sha256F1_eq, sha256F2_eq]
    rfl
  simp only [transformBlock, Fips180.compress, hzip, List.foldl_map, hround]

/-! ## Pieces -/

theorem transform_eq (m : MH) (message : List UInt8) (blockNb : Nat) :
    transform m message blockNb = (pieces 64 blockNb message).foldl transformBlock m := by
  induction blockNb generalizing m message with
  | zero => rfl
  | succ n ih => rw [transform, ih, pieces, List.foldl_cons]

namespace Sha256

variable {c : Sha256} {message piece : List UInt8}

/-- `update` reads the blocks of what is there and what comes in, and keeps what is left. -/
theorem update_eq (h : c.mBlock.length < 64) (piece : List UInt8) : c.update piece =
    ⟨c.mTotLen + UInt32.ofNat ((c.mBlock ++ piece).length / 64 * 64),
      leftover 64 (c.mBlock ++ piece),
      (blocks 64 (c.mBlock ++ piece)).foldl transformBlock c.mH⟩ := by
  by_cases hlt : c.mBlock.length + piece.length < 64
  · have hshort : (c.mBlock ++ piece).length < 64 := by rwa [List.length_append]
    rw [update, if_pos hlt, leftover_of_short hshort, blocks_of_short hshort,
      Nat.div_eq_of_lt hshort]
    simp
  · have hrem : min piece.length (64 - c.mBlock.length) = 64 - c.mBlock.length := by omega
    have hfirst : (c.mBlock ++ piece.take (64 - c.mBlock.length)).length = 64 := by
      rw [List.length_append, List.length_take]
      omega
    have hsplit : c.mBlock ++ piece = (c.mBlock ++ piece.take (64 - c.mBlock.length)) ++
        piece.drop (64 - c.mBlock.length) := by
      rw [List.append_assoc, List.take_append_drop]
    have hlen : (piece.drop (64 - c.mBlock.length)).length =
        piece.length - (64 - c.mBlock.length) := List.length_drop
    have hcount : (c.mBlock ++ piece).length / 64 =
        (piece.length - (64 - c.mBlock.length)) / 64 + 1 := by
      rw [List.length_append]
      omega
    rw [update, if_neg hlt, hrem, hcount]
    rw [hsplit, leftover_append_left hfirst (by omega), blocks_append_left hfirst (by omega)]
    simp only [transform_eq, pieces, List.foldl_cons, List.foldl_nil, mk.injEq, true_and]
    rw [← hlen]
    refine ⟨?_, ?_⟩
    · rw [leftover, List.take_of_length_le]
      rw [List.length_drop]
      omega
    · rw [blocks, List.take_of_length_le (Nat.le_of_eq hfirst)]

/-- The stream that no byte came into. -/
def start : Stream MH UInt8 64 := ⟨init.mH, [], by decide⟩

/-- The object has read the message. -/
structure Reads (c : Sha256) (message : List UInt8) : Prop where
  mH : c.mH = (start.push transformBlock message).value
  mBlock : c.mBlock = (start.push transformBlock message).buffer
  mTotLen : c.mTotLen = UInt32.ofNat (message.length / 64 * 64)

theorem Reads.length (h : c.Reads message) : c.mBlock.length = message.length % 64 := by
  rw [h.mBlock]
  exact leftover_length message

theorem reads_init : init.Reads [] := ⟨rfl, rfl, rfl⟩

theorem Reads.update (h : c.Reads message) (piece : List UInt8) :
    (c.update piece).Reads (message ++ piece) := by
  have hlen := h.length
  have hpush := Stream.push_push (f := transformBlock) start message piece
  rw [update_eq (by omega)]
  refine ⟨?_, ?_, ?_⟩
  · rw [← hpush, h.mH, h.mBlock]
    rfl
  · rw [← hpush, h.mBlock]
    rfl
  · show c.mTotLen + UInt32.ofNat ((c.mBlock ++ piece).length / 64 * 64) = _
    rw [h.mTotLen, ← UInt32.ofNat_add, List.length_append, List.length_append, hlen]
    congr 1
    omega

/-- What any `update` calls have read: the pieces one after the other. -/
theorem Reads.updates (h : c.Reads message) (ps : List (List UInt8)) :
    (ps.foldl Sha256.update c).Reads (message ++ ps.flatten) := by
  induction ps generalizing c message with
  | nil =>
    rw [List.flatten_nil, List.append_nil]
    exact h
  | cons p ps ih =>
    rw [List.foldl_cons, List.flatten_cons, ← List.append_assoc]
    exact ih (h.update p)

/-! ## Digest -/

/-- The padding of the code: the length in bits has four bytes, after four zero bytes. -/
def padding (len : Nat) : List UInt8 :=
  [0x80] ++ List.replicate (missing 64 (len + 9) + 4) 0 ++ Fips180.bytes 4 (8 * len)

/-- The bytes of a word are those of a number of which it has the lowest bits. -/
theorem bytes_mod (x : Nat) : Fips180.bytes 4 (x % 2 ^ 32) = Fips180.bytes 4 x := by
  refine List.map_congr_left fun i hi => ?_
  have hi' := List.mem_range.mp hi
  apply UInt8.toNat_inj.mp
  rw [UInt8.toNat_ofNat', UInt8.toNat_ofNat']
  have hcases : i = 0 ∨ i = 1 ∨ i = 2 ∨ i = 3 := by omega
  rcases hcases with rfl | rfl | rfl | rfl <;> simp only [Nat.reduceSub, Nat.reducePow] <;> omega

/-- The length that `final` writes. -/
theorem Reads.lenB (h : c.Reads message) :
    unpack32 ((c.mTotLen + UInt32.ofNat c.mBlock.length) <<< 3) =
      Fips180.bytes 4 (8 * message.length) := by
  have hlen : message.length / 64 * 64 + message.length % 64 = message.length := by omega
  rw [h.mTotLen, h.length, ← UInt32.ofNat_add, hlen, unpack32_eq, ← bytes_mod (8 * message.length)]
  congr 1
  rw [UInt32.toNat_shiftLeft, UInt32.toNat_ofNat', Nat.shiftLeft_eq]
  show message.length % 2 ^ 32 * 2 ^ 3 % 2 ^ 32 = _
  omega

/-- `final` closes the stream with the padding. -/
theorem Reads.final (h : c.Reads message) : c.final =
    Fips180.output ((blocks 64 (message ++ padding message.length)).foldl transformBlock
      init.mH) := by
  have hlen := h.length
  -- the bytes after the message, in one or two blocks
  obtain ⟨blockNb, hnb, hzeros, htotal⟩ : ∃ blockNb,
      (if 55 < c.mBlock.length % 64 then 2 else 1) = blockNb ∧
        blockNb * 64 - 4 - (c.mBlock.length + 1) = missing 64 (message.length + 9) + 4 ∧
          (c.mBlock ++ padding message.length).length = blockNb * 64 := by
    refine ⟨_, rfl, ?_, ?_⟩
    · rw [missing, hlen]
      split <;> omega
    · simp only [padding, List.length_append, List.length_singleton, List.length_replicate,
        Fips180.bytes, List.length_map, List.length_range, missing, hlen]
      split <;> omega
  have hblocks : pieces 64 blockNb (c.mBlock ++ padding message.length) =
      blocks 64 (c.mBlock ++ padding message.length) := by
    rw [blocks, htotal, Nat.mul_div_cancel _ (by omega)]
  have hclose := Stream.close_push (f := transformBlock) start message (padding message.length)
  have hvalue : transform c.mH (c.mBlock ++ padding message.length) blockNb =
      (blocks 64 (message ++ padding message.length)).foldl transformBlock init.mH := by
    rw [transform_eq, hblocks, h.mH, h.mBlock]
    exact hclose
  have hblock : c.mBlock ++ ([0x80] : List UInt8) ++
      List.replicate (blockNb * 64 - 4 - (c.mBlock.length + 1)) (0 : UInt8) ++
        unpack32 ((c.mTotLen + UInt32.ofNat c.mBlock.length) <<< 3) =
      c.mBlock ++ padding message.length := by
    rw [hzeros, h.lenB, padding]
    simp only [List.append_assoc]
  simp only [Sha256.final, hnb, hblock, hvalue]
  rw [Fips180.output, funext unpack32_eq]

end Sha256

/-- The code pads a message as the standard does, if the length in bits fits into 32 bits. -/
theorem padding_eq {len : Nat} (h : 8 * len < 2 ^ 32) :
    Sha256.padding len = Fips180.padding len := by
  have hbytes : Fips180.bytes 8 (8 * len) = List.replicate 4 0 ++ Fips180.bytes 4 (8 * len) := by
    have hhigh : ∀ i, 4 ≤ i → 8 * len / 256 ^ i = 0 := fun i hi => by
      apply Nat.div_eq_of_lt
      calc 8 * len < 256 ^ 4 := h
        _ ≤ 256 ^ i := Nat.pow_le_pow_right (by decide) hi
    show UInt8.ofNat (8 * len / 256 ^ 7) :: UInt8.ofNat (8 * len / 256 ^ 6) ::
      UInt8.ofNat (8 * len / 256 ^ 5) :: UInt8.ofNat (8 * len / 256 ^ 4) ::
        Fips180.bytes 4 (8 * len) = _
    rw [hhigh 7 (by decide), hhigh 6 (by decide), hhigh 5 (by decide), hhigh 4 (by decide)]
    rfl
  rw [Sha256.padding, Fips180.padding, hbytes, ← List.replicate_append_replicate]
  simp only [List.append_assoc, List.cons_append, List.nil_append]

/-- **Digest.** `final` after `init` and any `update` calls gives the digest of the pieces, one
after the other, if they have fewer than 2^29 bytes together. -/
theorem digest_of_pieces (ps : List (List UInt8)) (h : 8 * ps.flatten.length < 2 ^ 32) :
    (ps.foldl Sha256.update Sha256.init).final = Fips180.digest ps.flatten := by
  have hreads := Sha256.reads_init.updates ps
  rw [List.nil_append] at hreads
  rw [hreads.final, padding_eq h, transformBlock_eq, init_mH, Fips180.digest]

/-- The text `abc` in three pieces. -/
theorem digest_of_pieces_abc :
    ([str "a", [], str "bc"].foldl Sha256.update Sha256.init).final = Fips180.digest (str "abc") :=
  digest_of_pieces [str "a", [], str "bc"] (by decide)

/-! ## Text -/

def isHexDigit (c : UInt8) : Bool := (48 ≤ c && c ≤ 57) || (97 ≤ c && c ≤ 102)

/-- The value of a hexadecimal digit. -/
def unhexDigit (c : UInt8) : UInt8 := if c < 58 then c - 48 else c - 87

/-- The bytes that pairs of hexadecimal digits stand for. -/
def unhex : Str → List UInt8
  | a :: b :: digits => (16 * unhexDigit a + unhexDigit b) :: unhex digits
  | _ => []

/-- The digit of a value below 16. -/
theorem hexDigit_value {v : UInt8} (h : v.toNat < 16) :
    isHexDigit (if v < 10 then 48 + v else 87 + v) = true ∧
      unhexDigit (if v < 10 then 48 + v else 87 + v) = v := by
  have hall : ∀ n : Fin 16, isHexDigit (if UInt8.ofNat n.val < 10 then 48 + UInt8.ofNat n.val else
      87 + UInt8.ofNat n.val) = true ∧ unhexDigit (if UInt8.ofNat n.val < 10 then
        48 + UInt8.ofNat n.val else 87 + UInt8.ofNat n.val) = UInt8.ofNat n.val := by decide
  simpa using hall ⟨v.toNat, h⟩

theorem hex2_digits (b : UInt8) :
    (hex2 b).length = 2 ∧ (∀ c ∈ hex2 b, isHexDigit c = true) ∧ unhex (hex2 b) = [b] := by
  have hhigh : (b >>> 4).toNat = b.toNat / 16 := by
    rw [UInt8.toNat_shiftRight, Nat.shiftRight_eq_div_pow]
    rfl
  have hlow : (b &&& 0x0f).toNat = b.toNat % 16 := by
    rw [UInt8.toNat_and]
    exact Nat.and_two_pow_sub_one_eq_mod b.toNat 4
  have hb := b.toNat_lt
  obtain ⟨hd, hv⟩ := hexDigit_value (v := b >>> 4) (by omega)
  obtain ⟨hd', hv'⟩ := hexDigit_value (v := b &&& 0x0f) (by omega)
  refine ⟨rfl, ?_, ?_⟩
  · intro c hc
    simp only [hex2, List.mem_cons, List.not_mem_nil, or_false] at hc
    rcases hc with rfl | rfl
    · exact hd
    · exact hd'
  · show [16 * unhexDigit _ + unhexDigit _] = [b]
    rw [hv, hv']
    congr 1
    apply UInt8.toNat_inj.mp
    rw [UInt8.toNat_add, UInt8.toNat_mul, hhigh, hlow]
    show (16 * (b.toNat / 16) % 256 + b.toNat % 16) % 256 = b.toNat
    omega

theorem unhex_hex (bs : List UInt8) : unhex (bs.flatMap hex2) = bs := by
  induction bs with
  | nil => rfl
  | cons b bs ih =>
    have hpair : ∀ digits, unhex (hex2 b ++ digits) = unhex (hex2 b) ++ unhex digits :=
      fun _ => rfl
    rw [List.flatMap_cons, hpair, ih, (hex2_digits b).2.2, List.singleton_append]

theorem hex_length (bs : List UInt8) : (bs.flatMap hex2).length = 2 * bs.length := by
  induction bs with
  | nil => rfl
  | cons b bs ih =>
    rw [List.flatMap_cons, List.length_append, (hex2_digits b).1, ih, List.length_cons]
    omega

theorem output_length (m : MH) : (Fips180.output m).length = 32 := rfl

theorem sha256_eq {input : Str} (h : 8 * input.length < 2 ^ 32) :
    sha256 input = (Fips180.digest input).flatMap hex2 := by
  have hreads := Sha256.reads_init.update input
  rw [List.nil_append] at hreads
  rw [sha256, hreads.final, padding_eq h, transformBlock_eq, init_mH, Fips180.digest]

/-- **Text.** `sha256` writes 64 lower-case hexadecimal digits, which stand for the digest. -/
theorem sha256_digits (input : Str) (h : 8 * input.length < 2 ^ 32) :
    (sha256 input).length = 64 ∧ (∀ c ∈ sha256 input, isHexDigit c = true) ∧
      unhex (sha256 input) = Fips180.digest input := by
  rw [sha256_eq h]
  refine ⟨?_, ?_, unhex_hex _⟩
  · rw [hex_length, Fips180.digest, output_length]
  · intro c hc
    obtain ⟨b, -, hb⟩ := List.mem_flatMap.mp hc
    exact (hex2_digits b).2.1 c hb

/-- The text that is hashed for the token header. -/
theorem sha256_digits_token : unhex (sha256 (str "0")) = Fips180.digest (str "0") :=
  (sha256_digits (str "0") (by decide)).2.2

/-! ## Collisions -/

theorem bytes_injective {x y : Nat} (hx : x < 2 ^ 32) (hy : y < 2 ^ 32)
    (h : Fips180.bytes 4 x = Fips180.bytes 4 y) : x = y := by
  have hbyte : ∀ {x y : Nat}, UInt8.ofNat x = UInt8.ofNat y → x % 2 ^ 8 = y % 2 ^ 8 := by
    intro x y e
    have e' := congrArg UInt8.toNat e
    rwa [UInt8.toNat_ofNat', UInt8.toNat_ofNat'] at e'
  simp only [Fips180.bytes, List.range_succ, List.range_zero, List.nil_append, List.cons_append,
    List.map_cons, List.map_nil, List.cons.injEq, and_true, Nat.reduceSub, Nat.reducePow] at h
  obtain ⟨h3, h2, h1, h0⟩ := h
  have := hbyte h3
  have := hbyte h2
  have := hbyte h1
  have := hbyte h0
  omega

theorem output_injective {m m' : MH} (h : Fips180.output m = Fips180.output m') : m = m' := by
  have hword : ∀ x y : UInt32, Fips180.bytes 4 x.toNat = Fips180.bytes 4 y.toNat → x = y :=
    fun x y e => UInt32.toNat_inj.mp (bytes_injective x.toNat_lt y.toNat_lt e)
  have hread : ∀ ws : List UInt32,
      blocks 4 (ws.flatMap fun x => Fips180.bytes 4 x.toNat) =
        ws.map fun x => Fips180.bytes 4 x.toNat := by
    intro ws
    have hlen : ∀ p ∈ ws.map (fun x => Fips180.bytes 4 x.toNat), p.length = 4 := by
      intro p hp
      obtain ⟨x, -, rfl⟩ := List.mem_map.mp hp
      rfl
    have hread := blocks_flatten_append (n := 4) (by omega) hlen []
    rw [List.append_nil] at hread
    rw [List.flatMap_def, hread]
    exact List.append_nil _
  have hwords := congrArg (blocks 4) h
  rw [Fips180.output, Fips180.output, hread, hread] at hwords
  have heq := (List.map_inj_right hword).mp hwords
  cases m
  cases m'
  simpa using heq

/-- A padded message does not end in another one. -/
theorem padding_suffix {a b : Str} (ha : 8 * a.length < 2 ^ 32) (hb : 8 * b.length < 2 ^ 32)
    (h : a ++ Fips180.padding a.length <:+ b ++ Fips180.padding b.length) : a = b := by
  have hend : ∀ {m : Str}, 8 * m.length < 2 ^ 32 →
      Fips180.bytes 4 (8 * m.length) <:+ m ++ Fips180.padding m.length := by
    intro m hm
    rw [← padding_eq hm, Sha256.padding, ← List.append_assoc]
    exact List.suffix_append ..
  have hsame : Fips180.bytes 4 (8 * a.length) = Fips180.bytes 4 (8 * b.length) := by
    rcases List.suffix_or_suffix_of_suffix ((hend ha).trans h) (hend hb) with hs | hs
    · exact hs.eq_of_length rfl
    · exact (hs.eq_of_length rfl).symm
  have hlen : a.length = b.length := by
    have := bytes_injective ha hb hsame
    omega
  have hall := h.eq_of_length (by rw [List.length_append, List.length_append, hlen])
  exact (List.append_inj hall hlen).1

/-- The padded message is whole blocks. -/
theorem flatten_padded (m : Str) : (blocks 64 (m ++ Fips180.padding m.length)).flatten =
    m ++ Fips180.padding m.length := by
  have hlen : (m ++ Fips180.padding m.length).length % 64 = 0 := by
    have hmissing := add_missing (n := 64) (by omega) (m.length + 9)
    simp only [Fips180.padding, Fips180.bytes, List.length_append, List.length_cons,
      List.length_replicate, List.length_map, List.length_range]
    omega
  have hsplit := flatten_blocks_append (n := 64) (by omega) (m ++ Fips180.padding m.length)
  have hnil : leftover 64 (m ++ Fips180.padding m.length) = [] := by
    apply List.eq_nil_of_length_eq_zero
    rw [leftover_length, hlen]
  rwa [hnil, List.append_nil] at hsplit

theorem flatten_suffix {α : Type} {bs bs' : List (List α)} (h : bs <:+ bs') :
    bs.flatten <:+ bs'.flatten := by
  obtain ⟨t, rfl⟩ := h
  rw [List.flatten_append]
  exact List.suffix_append ..

/-- **Collisions.** Two different inputs have different digests, or the compression function has one
output for two different inputs that come up while it reads them. -/
theorem sha256_collides {a b : Str} (ha : 8 * a.length < 2 ^ 32) (hb : 8 * b.length < 2 ^ 32)
    (hne : a ≠ b) : sha256 a ≠ sha256 b ∨
      Collides Fips180.compress Fips180.h0 (blocks 64 (a ++ Fips180.padding a.length))
        (blocks 64 (b ++ Fips180.padding b.length)) := by
  by_cases h : sha256 a = sha256 b
  · have hdigest : Fips180.digest a = Fips180.digest b := by
      rw [← unhex_hex (Fips180.digest a), ← sha256_eq ha, h, sha256_eq hb, unhex_hex]
    rcases Collides.of_foldl (output_injective hdigest) with hs | hs | hc
    · have hflat := flatten_suffix hs
      rw [flatten_padded, flatten_padded] at hflat
      exact absurd (padding_suffix ha hb hflat) hne
    · have hflat := flatten_suffix hs
      rw [flatten_padded, flatten_padded] at hflat
      exact absurd (padding_suffix hb ha hflat).symm hne
    · exact .inr hc
  · exact .inl h

/-- Two inputs of one byte. -/
theorem sha256_collides_bytes : sha256 [0] ≠ sha256 [1] ∨
    Collides Fips180.compress Fips180.h0 (blocks 64 ([0] ++ Fips180.padding 1))
      (blocks 64 ([1] ++ Fips180.padding 1)) :=
  sha256_collides (a := [0]) (b := [1]) (by decide) (by decide) (by decide)

end LibRest
