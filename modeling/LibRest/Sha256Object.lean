import LibRest.Sha256
import LibRest.Lib.Cells

/-!
# The object `SHA256` in memory

`SHA256` (`sha256.cpp`) with its arrays and its 32-bit counters. `Sha256` is the same object with
the bytes of `m_block` that are in use as a list.

- **The code**: `m_block` keeps stale bytes, lengths are `unsigned int` and wrap, and each `memcpy`,
  `memset` and block that is read is checked against its array: `none` is an access outside of it.
- **Simulation** (`Holds`). `init` establishes it, and `update` and `final` keep it (`Holds.update`,
  `Holds.final`).
- **Runs** (`object_run`). From any contents of the object, `init`, any `update` calls and `final`
  make no access outside of the arrays, and give what `Sha256` gives.
- **Text** (`sha256Text_eq`). So does the text that `sha256` prints into its array.
-/

namespace LibRest

open Lib

/-- An object of the class `SHA256`. -/
structure Sha256Object where
  mTotLen : UInt32
  mLen : UInt32
  mBlock : Cells UInt8 128
  mH : MH

/-- `transform` of `block_nb` blocks at `message`. `i << 6` is an `int`. -/
def transformAt (m : MH) (message : List UInt8) (off : Nat) (blockNb : UInt32) : Option MH :=
  if blockNb.toNat ≤ 2 ^ 25 then
    (readAt message off (64 * blockNb.toNat)).map fun p => transform m p blockNb.toNat
  else none

namespace Sha256Object

/-- `SHA256::init`. -/
def init (c : Sha256Object) : Sha256Object :=
  { c with mH := Sha256.init.mH, mLen := 0, mTotLen := 0 }

/-- `rem_len`: how many bytes of the message go into the block that was begun. -/
def remLen (c : Sha256Object) (len : UInt32) : UInt32 :=
  let tmpLen := 64 - c.mLen
  if len < tmpLen then len else tmpLen

/-- `SHA256::update`, with a message that has `len` bytes. -/
def update (c : Sha256Object) (message : List UInt8) (len : UInt32) : Option Sha256Object := do
  let remLen := c.remLen len
  let first ← readAt message 0 remLen.toNat
  let mBlock ← c.mBlock.write c.mLen.toNat first
  if c.mLen + len < 64 then
    return { c with mBlock := mBlock, mLen := c.mLen + len }
  let newLen := len - remLen
  let blockNb := newLen / 64
  let mH ← transformAt c.mH mBlock.toList 0 1
  let mH ← transformAt mH message remLen.toNat blockNb
  let last ← readAt message (remLen.toNat + (blockNb <<< 6).toNat) (newLen % 64).toNat
  let mBlock ← mBlock.write 0 last
  return ⟨c.mTotLen + (blockNb + 1) <<< 6, newLen % 64, mBlock, mH⟩

/-- `SHA256::final`. -/
def final (c : Sha256Object) : Option (Sha256Object × List UInt8) := do
  let blockNb : UInt32 := 1 + if 64 - 9 < c.mLen % 64 then 1 else 0
  let lenB := (c.mTotLen + c.mLen) <<< 3
  let pmLen := blockNb <<< 6
  let mBlock ← c.mBlock.write c.mLen.toNat (List.replicate (pmLen - c.mLen).toNat 0)
  let mBlock ← mBlock.write c.mLen.toNat [0x80]
  let mBlock ← mBlock.write (pmLen.toNat - 4) (unpack32 lenB)
  let m ← transformAt c.mH mBlock.toList 0 blockNb
  return ({ c with mBlock := mBlock, mH := m },
    [m.a, m.b, m.c, m.d, m.e, m.f, m.g, m.h].flatMap unpack32)

/-! ## Simulation -/

/-- The object holds what the list model has. -/
structure Holds (c : Sha256Object) (s : Sha256) : Prop where
  mTotLen : c.mTotLen = s.mTotLen
  mLen : c.mLen.toNat = s.mBlock.length
  short : s.mBlock.length < 64
  mBlock : s.mBlock <+: c.mBlock.toList
  mH : c.mH = s.mH

variable {c : Sha256Object} {s : Sha256}

theorem init_holds (c : Sha256Object) : c.init.Holds Sha256.init :=
  ⟨rfl, rfl, by decide, List.nil_prefix, rfl⟩

/-- `transform` reads the blocks that it is told to. -/
theorem transform_take (m : MH) (message : List UInt8) (n : Nat) :
    transform m (message.take (64 * n)) n = transform m message n := by
  induction n generalizing m message with
  | zero => rfl
  | succ n ih =>
    have hfirst : (message.take (64 * (n + 1))).take 64 = message.take 64 := by
      rw [List.take_take, Nat.min_eq_left (by omega)]
    have hrest : (message.take (64 * (n + 1))).drop 64 = (message.drop 64).take (64 * n) := by
      rw [List.drop_take]
      congr 1
    rw [transform, transform, hfirst, hrest, ih]

theorem transformAt_eq {message : List UInt8} {off : Nat} {blockNb : UInt32} (m : MH)
    (hn : blockNb.toNat ≤ 2 ^ 25) (h : off + 64 * blockNb.toNat ≤ message.length) :
    transformAt m message off blockNb = some (transform m (message.drop off) blockNb.toNat) := by
  rw [transformAt, if_pos hn, readAt_eq h, Option.map_some, transform_take]

/-- `transform` of the blocks at the start of `m_block`. -/
theorem transformAt_prefix {b : Cells UInt8 128} {p : List UInt8} {blockNb : UInt32} (m : MH)
    (hp : p <+: b.toList) (hn : blockNb.toNat ≤ 2 ^ 25) (h : p.length = 64 * blockNb.toNat) :
    transformAt m b.toList 0 blockNb = some (transform m p blockNb.toNat) := by
  rw [transformAt, if_pos hn, ← h, Cells.readAt_prefix hp, Option.map_some]

/-! The steps of `update`, for a message of `len` bytes. -/

section Update

variable {message : List UInt8} {len : UInt32}

theorem Holds.remLen (h : c.Holds s) (len : UInt32) :
    (c.remLen len).toNat = min len.toNat (64 - s.mBlock.length) := by
  have hr := h.short
  have htmp : (64 - c.mLen).toNat = 64 - s.mBlock.length := by
    rw [UInt32.toNat_sub, h.mLen]
    show (2 ^ 32 - s.mBlock.length + 64) % 2 ^ 32 = _
    omega
  unfold Sha256Object.remLen
  show (if len < 64 - c.mLen then len else 64 - c.mLen).toNat = _
  split
  case isTrue hlt =>
    rw [UInt32.lt_iff_toNat_lt, htmp] at hlt
    omega
  case isFalse hge =>
    rw [UInt32.lt_iff_toNat_lt, htmp] at hge
    omega

/-- The test for a message that does not fill the block. -/
theorem Holds.fits (h : c.Holds s) (hl : len.toNat < 2 ^ 31) :
    (c.mLen + len).toNat = s.mBlock.length + len.toNat ∧
      (c.mLen + len < 64 ↔ s.mBlock.length + len.toNat < 64) := by
  have hr := h.short
  have hsum : (c.mLen + len).toNat = s.mBlock.length + len.toNat := by
    rw [UInt32.toNat_add, h.mLen]
    omega
  exact ⟨hsum, by rw [UInt32.lt_iff_toNat_lt, hsum]; exact Iff.rfl⟩

/-- The first `memcpy`. -/
theorem Holds.first (h : c.Holds s) (hm : message.length = len.toNat) :
    ∃ b, readAt message 0 (c.remLen len).toNat = some (message.take (c.remLen len).toNat) ∧
      c.mBlock.write c.mLen.toNat (message.take (c.remLen len).toNat) = some b ∧
        s.mBlock ++ message.take (c.remLen len).toNat <+: b.toList := by
  have hr := h.short
  have hrem := h.remLen len
  have hroom : s.mBlock.length + (message.take (c.remLen len).toNat).length ≤ 128 := by
    rw [List.length_take]
    omega
  obtain ⟨b, hb, hpre⟩ := Cells.prefix_append h.mBlock hroom
  rw [← h.mLen] at hb
  exact ⟨b, by rw [readAt_eq (by omega), List.drop_zero], hb, hpre⟩

/-- The message does not fill the block. -/
theorem Holds.update_short (h : c.Holds s) (hm : message.length = len.toNat)
    (hlt : s.mBlock.length + len.toNat < 64) :
    ∃ c', c.update message len = some c' ∧ c'.Holds (s.update message) := by
  have hrem := h.remLen len
  have hl : len.toNat < 2 ^ 31 := by omega
  obtain ⟨hsum, hfits⟩ := h.fits hl
  obtain ⟨b, hread, hwrite, hpre⟩ := h.first hm
  have hcmp := hfits.mpr hlt
  refine ⟨{ c with mBlock := b, mLen := c.mLen + len }, ?_, ?_⟩
  · simp only [Sha256Object.update, hread, hwrite, hcmp, if_true, Option.bind_eq_bind,
      Option.bind_some]
    rfl
  · rw [List.take_of_length_le (by omega)] at hpre
    rw [Sha256.update, if_pos (by omega)]
    refine ⟨h.mTotLen, ?_, ?_, hpre, h.mH⟩
    · rw [hsum, List.length_append, hm]
    · rw [List.length_append, hm]
      exact hlt

/-- The message fills the block: the first block, the whole blocks after it, and the rest. -/
theorem Holds.update_long (h : c.Holds s) (hm : message.length = len.toNat)
    (hl : len.toNat < 2 ^ 31) (hge : ¬ s.mBlock.length + len.toNat < 64) :
    ∃ c', c.update message len = some c' ∧ c'.Holds (s.update message) := by
  have hr := h.short
  have hrem := h.remLen len
  have hcmp : ¬ c.mLen + len < 64 := mt (h.fits hl).2.mp hge
  obtain ⟨b1, hread, hwrite, hpre⟩ := h.first hm
  have hnew : (len - c.remLen len).toNat = len.toNat - (c.remLen len).toNat :=
    UInt32.toNat_sub_of_le _ _ (by rw [UInt32.le_iff_toNat_le]; omega)
  have hnb : ((len - c.remLen len) / 64).toNat = (len.toNat - (c.remLen len).toNat) / 64 := by
    rw [UInt32.toNat_div, hnew]
    rfl
  have hmod : ((len - c.remLen len) % 64).toNat = (len.toNat - (c.remLen len).toNat) % 64 := by
    rw [UInt32.toNat_mod, hnew]
    rfl
  rw [Sha256.update, if_neg (by omega), hm, ← hrem]
  simp only [← hnb, ← hmod]
  simp only [Sha256Object.update, hread, hwrite, hcmp, if_false, Option.bind_eq_bind,
    Option.bind_some]
  generalize (len - c.remLen len) / 64 = blockNb at *
  generalize (len - c.remLen len) % 64 = last at *
  generalize c.remLen len = remLen at *
  have hshift : (blockNb <<< 6).toNat = blockNb.toNat * 64 := by
    rw [UInt32.toNat_shiftLeft, Nat.shiftLeft_eq]
    show blockNb.toNat * 2 ^ 6 % 2 ^ 32 = _
    omega
  have hone : transformAt c.mH b1.toList 0 1 =
      some (transform c.mH (s.mBlock ++ message.take remLen.toNat) 1) := by
    refine transformAt_prefix c.mH hpre (by decide) ?_
    rw [List.length_append, List.length_take]
    show _ = 64 * 1
    omega
  have hwhole : remLen.toNat + 64 * blockNb.toNat ≤ message.length := by omega
  have hmany := transformAt_eq (transform c.mH (s.mBlock ++ message.take remLen.toNat) 1)
    (by omega) hwhole
  have hlast : readAt message (remLen.toNat + (blockNb <<< 6).toNat) last.toNat =
      some (((message.drop remLen.toNat).drop (blockNb.toNat * 64)).take last.toNat) := by
    rw [readAt_eq (by omega), List.drop_drop, hshift]
  have hlength : (((message.drop remLen.toNat).drop (blockNb.toNat * 64)).take
      last.toNat).length = last.toNat := by
    simp only [List.length_take, List.length_drop]
    omega
  generalize ((message.drop remLen.toNat).drop (blockNb.toNat * 64)).take last.toNat = rest at *
  have hroom : ([] : List UInt8).length + rest.length ≤ 128 := by
    rw [hlength, List.length_nil]
    omega
  obtain ⟨b2, hb2, hpre2⟩ := Cells.prefix_append (b := b1) List.nil_prefix hroom
  rw [List.length_nil] at hb2
  have htot : (blockNb + 1) <<< 6 = UInt32.ofNat ((blockNb.toNat + 1) * 64) := by
    apply UInt32.toNat_inj.mp
    rw [UInt32.toNat_shiftLeft, UInt32.toNat_add, UInt32.toNat_ofNat', Nat.shiftLeft_eq]
    show (blockNb.toNat + 1) % 2 ^ 32 * 2 ^ 6 % 2 ^ 32 = _
    omega
  simp only [hone, hmany, hlast, hb2, Option.bind_some]
  refine ⟨_, rfl, ?_, hlength.symm, ?_, hpre2, by rw [h.mH]⟩
  · rw [htot, h.mTotLen]
  · rw [hlength]
    omega

end Update

/-- `update` makes no access outside of the arrays, and does what the list model does. -/
theorem Holds.update (h : c.Holds s) {piece : List UInt8} (hp : piece.length < 2 ^ 31) :
    ∃ c', c.update piece (UInt32.ofNat piece.length) = some c' ∧ c'.Holds (s.update piece) := by
  have hlen : piece.length = (UInt32.ofNat piece.length).toNat :=
    (UInt32.toNat_ofNat_of_lt' (by rw [UInt32.size]; omega)).symm
  by_cases hlt : s.mBlock.length + (UInt32.ofNat piece.length).toNat < 64
  · exact h.update_short hlen hlt
  · exact h.update_long hlen (by omega) hlt

/-- How many blocks the padding ends. -/
theorem Holds.blockNb (h : c.Holds s) :
    ((1 : UInt32) + if 64 - 9 < c.mLen % 64 then 1 else 0).toNat =
      if 55 < s.mBlock.length % 64 then 2 else 1 := by
  have hcmp : (64 - 9 : UInt32) < c.mLen % 64 ↔ 55 < s.mBlock.length % 64 := by
    rw [UInt32.lt_iff_toNat_lt, UInt32.toNat_mod, h.mLen]
    exact Iff.rfl
  by_cases hlt : 55 < s.mBlock.length % 64
  · rw [if_pos (hcmp.mpr hlt), if_pos hlt]
    rfl
  · rw [if_neg (mt hcmp.mp hlt), if_neg hlt]
    rfl

/-- What the three writes of `final` leave at the start of `m_block`, for `pm` bytes in whole
blocks. -/
theorem Holds.padded (h : c.Holds s) {pm : Nat} (hpm : s.mBlock.length + 9 ≤ pm) (hle : pm ≤ 128)
    {lenB : List UInt8} (hb : lenB.length = 4) :
    ∃ b1 b2 b3, c.mBlock.write c.mLen.toNat (List.replicate (pm - c.mLen.toNat) 0) = some b1 ∧
      b1.write c.mLen.toNat [0x80] = some b2 ∧ b2.write (pm - 4) lenB = some b3 ∧
        s.mBlock ++ [0x80] ++ List.replicate (pm - 4 - (s.mBlock.length + 1)) 0 ++ lenB <+:
          b3.toList := by
  rw [h.mLen]
  have hroom : s.mBlock.length + (List.replicate (pm - s.mBlock.length) (0 : UInt8)).length ≤
      128 := by
    rw [List.length_replicate]
    omega
  have hone : s.mBlock.length + [(0x80 : UInt8)].length ≤ 128 := by
    rw [List.length_singleton]
    omega
  have hlast : pm - 4 + lenB.length ≤ 128 := by omega
  obtain ⟨b1, h1, hpre1⟩ := Cells.prefix_append h.mBlock hroom
  obtain ⟨b2, h2, hpre2⟩ := Cells.prefix_write hpre1 (by rw [List.length_append]; omega) hone
  rw [List.take_left, List.length_singleton, ← List.drop_drop, List.drop_left,
    List.drop_replicate] at hpre2
  obtain ⟨b3, h3, hpre3⟩ := Cells.prefix_write hpre2
    (by simp only [List.length_append, List.length_singleton, List.length_replicate]; omega) hlast
  refine ⟨b1, b2, b3, h1, h2, h3, ?_⟩
  have htake : (s.mBlock ++ [0x80] ++ List.replicate (pm - s.mBlock.length - 1) 0).take (pm - 4) =
      s.mBlock ++ [0x80] ++ List.replicate (pm - 4 - (s.mBlock.length + 1)) (0 : UInt8) := by
    rw [List.take_append, List.take_of_length_le (by simp; omega), List.take_replicate]
    congr 2
    simp only [List.length_append, List.length_singleton]
    omega
  rw [htake] at hpre3
  exact (List.prefix_append _ _).trans hpre3

/-- `final` makes no access outside of the arrays, and gives what the list model gives. -/
theorem Holds.final (h : c.Holds s) : ∃ c', c.final = some (c', s.final) := by
  have hr := h.short
  have hnb := h.blockNb
  have hlenB : UInt32.ofNat s.mBlock.length = c.mLen := by
    rw [← h.mLen, UInt32.ofNat_toNat]
  simp only [Sha256Object.final, Sha256.final, hlenB, h.mTotLen, ← hnb]
  generalize (1 : UInt32) + (if 64 - 9 < c.mLen % 64 then 1 else 0) = blockNb at *
  have hle : blockNb.toNat ≤ 2 := by
    rw [hnb]
    split <;> omega
  have hroom : s.mBlock.length + 9 ≤ blockNb.toNat * 64 := by
    rw [hnb]
    split <;> omega
  have hpm : (blockNb <<< 6).toNat = blockNb.toNat * 64 := by
    rw [UInt32.toNat_shiftLeft, Nat.shiftLeft_eq]
    show blockNb.toNat * 2 ^ 6 % 2 ^ 32 = _
    omega
  have hzeros : (blockNb <<< 6 - c.mLen).toNat = blockNb.toNat * 64 - c.mLen.toNat := by
    rw [UInt32.toNat_sub_of_le _ _ (by rw [UInt32.le_iff_toNat_le, hpm, h.mLen]; omega), hpm]
  have hfour : (unpack32 ((s.mTotLen + c.mLen) <<< 3)).length = 4 := rfl
  obtain ⟨b1, b2, b3, h1, h2, h3, hpre⟩ := h.padded hroom (by omega) hfour
  have hwhole : (s.mBlock ++ [(0x80 : UInt8)] ++ List.replicate (blockNb.toNat * 64 - 4 -
      (s.mBlock.length + 1)) (0 : UInt8) ++ unpack32 ((s.mTotLen + c.mLen) <<< 3)).length =
        64 * blockNb.toNat := by
    simp only [List.length_append, List.length_singleton, List.length_replicate, hfour]
    omega
  have htransform := transformAt_prefix c.mH hpre (by omega) hwhole
  rw [h.mH] at htransform
  rw [hzeros, hpm, h.mH]
  simp only [h1, h2, h3, htransform, Option.bind_eq_bind, Option.bind_some]
  exact ⟨_, rfl⟩

/-- **Runs.** From any contents of the object, `init`, any `update` calls and `final` make no
access outside of the arrays, and give what the list model gives. -/
theorem object_run (c : Sha256Object) {ps : List (List UInt8)} (h : ∀ p ∈ ps, p.length < 2 ^ 31) :
    ∃ c' c'', ps.foldlM (fun c p => c.update p (UInt32.ofNat p.length)) c.init = some c' ∧
      c'.final = some (c'', (ps.foldl Sha256.update Sha256.init).final) := by
  have hrun : ∀ {c : Sha256Object} {s : Sha256}, c.Holds s →
      ∃ c', ps.foldlM (fun c p => c.update p (UInt32.ofNat p.length)) c = some c' ∧
        c'.Holds (ps.foldl Sha256.update s) := by
    induction ps with
    | nil => exact fun hc => ⟨_, rfl, hc⟩
    | cons p ps ih =>
      intro c s hc
      obtain ⟨c', hu, hc'⟩ := hc.update (h p List.mem_cons_self)
      obtain ⟨c'', hr, hc''⟩ := ih (fun q hq => h q (List.mem_cons_of_mem p hq)) hc'
      exact ⟨c'', by rw [List.foldlM_cons, hu]; exact hr, hc''⟩
  obtain ⟨c', hr, hc'⟩ := hrun (init_holds c)
  obtain ⟨c'', hf⟩ := hc'.final
  exact ⟨c', c'', hr, hf⟩

/-- The bytes `ab` in two pieces, read by an object with other bytes in its block. -/
theorem object_run_stale : ∃ c c' c'' : Sha256Object, c.mBlock.toList = List.replicate 128 7 ∧
    [str "a", str "b"].foldlM (fun c p => c.update p (UInt32.ofNat p.length)) c.init = some c' ∧
      c'.final = some (c'', ([str "a", str "b"].foldl Sha256.update Sha256.init).final) := by
  have hshort : ∀ p ∈ [str "a", str "b"], p.length < 2 ^ 31 := by decide
  obtain ⟨c', c'', hr, hf⟩ := object_run
    ⟨3, 200, ⟨List.replicate 128 7, List.length_replicate⟩, Sha256.init.mH⟩ hshort
  exact ⟨_, c', c'', rfl, hr, hf⟩

end Sha256Object

/-! ## Text -/

/-- The string that a `char` array holds: up to the first zero byte, which is within the array. -/
def cString (l : List UInt8) : Option Str := if 0 ∈ l then some (l.takeWhile (· != 0)) else none

/-- `sprintf` of the bytes, the `i`-th one at `buf + i * 2`, each with the zero byte after it. -/
def sprintfAll (buf : Cells UInt8 65) (digest : List UInt8) : Option (Cells UInt8 65) :=
  digest.zipIdx.foldlM (fun buf p => buf.write (p.2 * 2) (hex2 p.1 ++ [0])) buf

/-- `sha256`, with its object and its array. -/
def sha256Text (ctx : Sha256Object) (buf : Cells UInt8 65) (input : Str) : Option Str := do
  let ctx ← ctx.init.update input (UInt32.ofNat input.length)
  let (_, digest) ← ctx.final
  let buf ← buf.write 64 [0]
  let buf ← sprintfAll buf digest
  cString buf.toList

/-- The digits of all bytes, and the zero byte after the last one. -/
theorem sprintf_prefix {bs : List UInt8} (hne : bs ≠ []) {k : Nat} (hk : 2 * (k + bs.length) < 65)
    {buf : Cells UInt8 65} {p : Str} (hp : p <+: buf.toList) (hlen : p.length = k * 2) :
    ∃ buf', (bs.zipIdx k).foldlM (fun buf p => buf.write (p.2 * 2) (hex2 p.1 ++ [0])) buf =
      some buf' ∧ p ++ bs.flatMap hex2 ++ [0] <+: buf'.toList := by
  induction bs generalizing k buf p with
  | nil => exact absurd rfl hne
  | cons b bs ih =>
    rw [List.length_cons] at hk
    have hdigits : (hex2 b).length = 2 := rfl
    have hroom : p.length + (hex2 b ++ [0]).length ≤ 65 := by
      rw [List.length_append, hdigits, List.length_singleton]
      omega
    obtain ⟨buf1, h1, hpre⟩ := Cells.prefix_append hp hroom
    rw [hlen] at h1
    rw [List.zipIdx_cons, List.foldlM_cons, h1, List.flatMap_cons]
    by_cases hnil : bs = []
    · subst hnil
      exact ⟨buf1, rfl, by simpa using hpre⟩
    · have hpre' : p ++ hex2 b <+: buf1.toList := by
        rw [← List.append_assoc] at hpre
        exact (List.prefix_append _ _).trans hpre
      obtain ⟨buf2, h2, hall⟩ := ih hnil (k := k + 1) (by omega) hpre'
        (by rw [List.length_append, hdigits]; omega)
      exact ⟨buf2, h2, by rwa [List.append_assoc p] at hall⟩

theorem cString_eq {l p : Str} (h : p ++ [0] <+: l) (hp : ∀ c ∈ p, c ≠ 0) :
    cString l = some p := by
  obtain ⟨t, rfl⟩ := h
  have hread : (p ++ [0] ++ t).takeWhile (· != 0) = p := by
    rw [List.append_assoc, List.takeWhile_append_of_pos (by simpa using hp)]
    simp
  rw [cString, if_pos (by simp), hread]

theorem hex2_ne_zero (b : UInt8) : ∀ c ∈ hex2 b, c ≠ 0 := by
  rintro c hc rfl
  have hdigit := (hex2_digits b).2.1 0 hc
  cases hdigit

/-- **Text.** Whatever the object and the array hold at first, `sha256` makes no access outside of
them and gives the text of the list model. -/
theorem sha256Text_eq (ctx : Sha256Object) (buf : Cells UInt8 65) {input : Str}
    (h : input.length < 2 ^ 31) : sha256Text ctx buf input = some (sha256 input) := by
  obtain ⟨c, hu, hc⟩ := (Sha256Object.init_holds ctx).update h
  obtain ⟨c', hf⟩ := hc.final
  have hsize : ((Sha256.init.update input).final).length = 32 := rfl
  have hne : (Sha256.init.update input).final ≠ [] := fun e => by
    rw [e] at hsize
    cases hsize
  have hlast : 64 + [(0 : UInt8)].length ≤ 65 := by decide
  obtain ⟨buf1, h1, -⟩ := Cells.prefix_write (b := buf) List.prefix_rfl
    (by rw [buf.size]; decide) hlast
  obtain ⟨buf2, h2, hpre⟩ := sprintf_prefix hne (k := 0) (by rw [hsize]; decide)
    (List.nil_prefix (l := buf1.toList)) rfl
  have hstring := cString_eq hpre (by
    intro c hc
    obtain ⟨b, -, hb⟩ := List.mem_flatMap.mp hc
    exact hex2_ne_zero b c hb)
  rw [sha256Text, hu]
  simp only [Option.bind_eq_bind, Option.bind_some, hf, h1, sprintfAll, h2, hstring]
  rfl

/-- The text that is hashed for the token header, with other bytes in the arrays. -/
theorem sha256Text_eq_token : ∃ (ctx : Sha256Object) (buf : Cells UInt8 65),
    buf.toList = List.replicate 65 7 ∧ sha256Text ctx buf (str "0") = some (sha256 (str "0")) :=
  ⟨⟨3, 200, ⟨List.replicate 128 7, List.length_replicate⟩, Sha256.init.mH⟩,
    ⟨List.replicate 65 7, List.length_replicate⟩, rfl, sha256Text_eq _ _ (by decide)⟩

end LibRest
