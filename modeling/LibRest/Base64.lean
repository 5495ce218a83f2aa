import LibRest.Encoding
import LibRest.Lib.Bits
import LibRest.Lib.Blocks

/-!
# Base64 and back

`base64_decode` (`Base64.cpp`), and what it and `base64_encode` compute.

- **Encoding** (`base64Encode_eq`). The bits of the bytes, six at a time, the last group filled up
  with zero bits, each as its character of the alphabet; then `=` up to a multiple of four.
- **Decoding** (`base64Decode_eq`). The characters up to the first one outside the alphabet, each as
  its six bits; eight bits at a time, and what is left is dropped.
- **Round trip** (`base64Decode_encode`). Decoding gives back what was encoded, also when more text
  follows.
- **Canonical texts** (`base64Encode_range`). Which texts are encodings.

`base64_decode` counts in an `int`, so what is said of it is about texts below 2^31 characters.
-/

namespace LibRest

open Lib

/-! ## `base64_decode` -/

/-- `isalnum`, in the C locale. -/
def isalnum (c : UInt8) : Bool :=
  (48 ≤ c && c ≤ 57) || (65 ≤ c && c ≤ 90) || (97 ≤ c && c ≤ 122)

/-- `is_base64`: `+` is 43 and `/` is 47. -/
def isBase64 (c : UInt8) : Bool := isalnum c || c == 43 || c == 47

/-- `base64_chars.find(c)`, as an `unsigned char`: `npos` becomes 255. -/
def base64Find (c : UInt8) : UInt8 :=
  match base64Chars.findIdx? (· == c) with
  | some i => UInt8.ofNat i
  | none => 255

/-- `char_array_3` of `char_array_4`. -/
def charArray3 (w x y z : UInt8) : List UInt8 :=
  [(w <<< 2) + ((x &&& 0x30) >>> 4),
    ((x &&& 0xf) <<< 4) + ((y &&& 0x3c) >>> 2),
    ((y &&& 0x3) <<< 6) + z]

/-- `char_array_3` of the characters in `char_array_4`, where zero stands for a missing one. -/
def decodeGroup (buf : Str) : List UInt8 :=
  charArray3 (base64Find (buf.getD 0 0)) (base64Find (buf.getD 1 0)) (base64Find (buf.getD 2 0))
    (base64Find (buf.getD 3 0))

/-- The loop of `base64_decode`. `inLen` is `in_len`, and `buf` has the `i` characters in
`char_array_4`. Behind the text stands a zero byte, which is not in the alphabet. -/
def base64DecodeLoop : Str → Int → Str → Str → Str × Str
  | [], _, buf, ret => (buf, ret)
  | c :: encoded, inLen, buf, ret =>
    if inLen ≠ 0 ∧ c ≠ 61 ∧ isBase64 c then
      if (buf ++ [c]).length = 4 then
        base64DecodeLoop encoded (inLen - 1) [] (ret ++ decodeGroup (buf ++ [c]))
      else
        base64DecodeLoop encoded (inLen - 1) (buf ++ [c]) ret
    else
      (buf, ret)

/-- `base64_decode`. The `int` `in_len` gets `size()` modulo 2^32. -/
def base64Decode (encoded : Str) : List UInt8 :=
  let (buf, ret) := base64DecodeLoop encoded (Int.bmod encoded.length (2 ^ 32)) [] []
  if buf.length ≠ 0 then
    ret ++ (decodeGroup buf).take (buf.length - 1)
  else
    ret

/-! ## Groups of bits -/

def byteBits (bs : List UInt8) : List (List Bool) := bs.map fun b => bits 8 b.toNat

/-- The six bits that each character of the alphabet stands for. -/
def sextets (p : Str) : List (List Bool) := p.map fun c => bits 6 (base64Find c).toNat

/-- The character that is written for a group of six bits. -/
def groupChar (w : List Bool) : UInt8 := base64Char (UInt8.ofNat (ofBits w))

/-- The base64 alphabet, as a function of the number below 64. -/
def base64Symbol (v : Nat) : UInt8 :=
  if v < 26 then UInt8.ofNat (65 + v)
  else if v < 52 then UInt8.ofNat (97 + (v - 26))
  else if v < 62 then UInt8.ofNat (48 + (v - 52))
  else if v = 62 then 43
  else 47

/-- The number below 64 that a character of the alphabet stands for. -/
def base64Value (c : UInt8) : Option Nat := (List.range 64).find? fun v => base64Symbol v = c

/-- The numbers of the characters of a text, up to the first one outside the alphabet. -/
def base64Values : Str → List Nat
  | [] => []
  | c :: t =>
    match base64Value c with
    | some v => v :: base64Values t
    | none => []

theorem byteBits_length {bs : List UInt8} : ∀ w ∈ byteBits bs, w.length = 8 := by
  intro w hw
  obtain ⟨b, -, rfl⟩ := List.mem_map.mp hw
  exact bits_length 8 _

theorem sextets_length {p : Str} : ∀ w ∈ sextets p, w.length = 6 := by
  intro w hw
  obtain ⟨c, -, rfl⟩ := List.mem_map.mp hw
  exact bits_length 6 _

theorem sextets_flatten_length (p : Str) : (sextets p).flatten.length = 6 * p.length := by
  induction p with
  | nil => rfl
  | cons c p ih =>
    have hcons : (sextets (c :: p)).flatten =
        bits 6 (base64Find c).toNat ++ (sextets p).flatten := rfl
    rw [hcons, List.length_append, bits_length, ih, List.length_cons]
    omega

@[simp] theorem byteBits_append (bs bs' : List UInt8) :
    byteBits (bs ++ bs') = byteBits bs ++ byteBits bs' :=
  List.map_append

@[simp] theorem sextets_append (p p' : Str) : sextets (p ++ p') = sextets p ++ sextets p' :=
  List.map_append

/-- The bytes of groups of eight bits. -/
def bytesOf (ws : List (List Bool)) : List UInt8 := ws.map fun w => UInt8.ofNat (ofBits w)

theorem byteBits_bytesOf {ws : List (List Bool)} (h : ∀ w ∈ ws, w.length = 8) :
    byteBits (bytesOf ws) = ws := by
  rw [byteBits, bytesOf, List.map_map]
  refine (List.map_congr_left fun w hw => ?_).trans (List.map_id ws)
  have hlt : ofBits w < 2 ^ 8 := h w hw ▸ ofBits_lt w
  have e : (UInt8.ofNat (ofBits w)).toNat = ofBits w := UInt8.toNat_ofNat_of_lt hlt
  show bits 8 (UInt8.ofNat (ofBits w)).toNat = w
  rw [e, ← h w hw, bits_ofBits]

/-- Bytes can be read back from their bits. -/
theorem bytesOf_byteBits (bs : List UInt8) : bytesOf (byteBits bs) = bs := by
  rw [bytesOf, byteBits, List.map_map]
  refine (List.map_congr_left fun b _ => ?_).trans (List.map_id bs)
  show UInt8.ofNat (ofBits (bits 8 b.toNat)) = b
  rw [ofBits_bits b.toNat_lt, UInt8.ofNat_toNat]

/-- `char_array_4` has the bits of `char_array_3`. -/
theorem charArray4_bits {a b c w x y z : UInt8} (h : charArray4 a b c = (w, x, y, z)) :
    bits 6 w.toNat ++ bits 6 x.toNat ++ bits 6 y.toNat ++ bits 6 z.toNat =
        bits 8 a.toNat ++ bits 8 b.toNat ++ bits 8 c.toNat ∧
      w.toNat < 64 ∧ x.toNat < 64 ∧ y.toNat < 64 ∧ z.toNat < 64 := by
  have h1 := forall_byte (p := fun a => ((a &&& 0xfc) >>> 2).toNat = a.toNat / 4)
    (by decide +kernel) a
  have h2 := forall_byte (p := fun a => ((a &&& 0x03) <<< 4).toNat = a.toNat % 4 * 16)
    (by decide +kernel) a
  have h3 := forall_byte (p := fun b => ((b &&& 0xf0) >>> 4).toNat = b.toNat / 16)
    (by decide +kernel) b
  have h4 := forall_byte (p := fun b => ((b &&& 0x0f) <<< 2).toNat = b.toNat % 16 * 4)
    (by decide +kernel) b
  have h5 := forall_byte (p := fun c => ((c &&& 0xc0) >>> 6).toNat = c.toNat / 64)
    (by decide +kernel) c
  have h6 := forall_byte (p := fun c => (c &&& 0x3f).toNat = c.toNat % 64) (by decide +kernel) c
  have ha := a.toNat_lt
  have hb := b.toNat_lt
  have hc := c.toNat_lt
  simp only [charArray4, Prod.mk.injEq] at h
  obtain ⟨rfl, rfl, rfl, rfl⟩ := h
  rw [UInt8.toNat_add, UInt8.toNat_add, h1, h2, h3, h4, h5, h6]
  refine ⟨?_, by omega, by omega, by omega, by omega⟩
  -- both sides are the bits of one number
  rw [bits_append (m := 6) (by omega), bits_append (m := 6) (by omega),
    bits_append (m := 6) (by omega), bits_append (m := 8) (by omega),
    bits_append (m := 8) (by omega)]
  congr 1
  omega

/-- `char_array_3` has the bits of `char_array_4`. -/
theorem charArray3_bits {w x y z : UInt8} (hw : w.toNat < 64) (hx : x.toNat < 64)
    (hy : y.toNat < 64) (hz : z.toNat < 64) : (byteBits (charArray3 w x y z)).flatten =
      bits 6 w.toNat ++ bits 6 x.toNat ++ bits 6 y.toNat ++ bits 6 z.toNat := by
  have h1 := forall_byte (p := fun w => (w <<< 2).toNat = w.toNat % 64 * 4) (by decide +kernel) w
  have h2 := forall_byte (p := fun x => ((x &&& 0x30) >>> 4).toNat = x.toNat % 64 / 16)
    (by decide +kernel) x
  have h3 := forall_byte (p := fun x => ((x &&& 0xf) <<< 4).toNat = x.toNat % 16 * 16)
    (by decide +kernel) x
  have h4 := forall_byte (p := fun y => ((y &&& 0x3c) >>> 2).toNat = y.toNat % 64 / 4)
    (by decide +kernel) y
  have h5 := forall_byte (p := fun y => ((y &&& 0x3) <<< 6).toNat = y.toNat % 4 * 64)
    (by decide +kernel) y
  simp only [byteBits, charArray3, List.map_cons, List.map_nil, List.flatten_cons,
    List.flatten_nil, List.append_nil, UInt8.toNat_add, h1, h2, h3, h4, h5, ← List.append_assoc]
  rw [bits_append (m := 8) (by omega), bits_append (m := 8) (by omega),
    bits_append (m := 6) (by omega), bits_append (m := 6) (by omega),
    bits_append (m := 6) (by omega)]
  congr 1
  omega

/-! ## The alphabet -/

/-- The table of the source is the alphabet. -/
theorem base64Char_eq {v : UInt8} (h : v.toNat < 64) : base64Char v = base64Symbol v.toNat := by
  revert h
  exact forall_byte (p := fun v => v.toNat < 64 → base64Char v = base64Symbol v.toNat)
    (by decide +kernel) v

theorem isBase64_char {v : UInt8} (h : v.toNat < 64) : isBase64 (base64Char v) = true := by
  revert h
  exact forall_byte (p := fun v => v.toNat < 64 → isBase64 (base64Char v) = true)
    (by decide +kernel) v

theorem base64Find_char {v : UInt8} (h : v.toNat < 64) : base64Find (base64Char v) = v := by
  revert h
  exact forall_byte (p := fun v => v.toNat < 64 → base64Find (base64Char v) = v)
    (by decide +kernel) v

/-- What `is_base64` accepts is in the table. -/
theorem base64Char_find {c : UInt8} (h : isBase64 c = true) :
    (base64Find c).toNat < 64 ∧ base64Char (base64Find c) = c := by
  revert h
  exact forall_byte (p := fun c => isBase64 c = true →
    (base64Find c).toNat < 64 ∧ base64Char (base64Find c) = c) (by decide +kernel) c

theorem base64Value_eq (c : UInt8) :
    base64Value c = if isBase64 c then some (base64Find c).toNat else none :=
  forall_byte (p := fun c =>
    base64Value c = if isBase64 c then some (base64Find c).toNat else none) (by decide +kernel) c

/-- The code's tests and its table read the alphabet. -/
theorem bits_base64Values (t : Str) :
    (base64Values t).map (bits 6) = sextets (t.takeWhile isBase64) := by
  induction t with
  | nil => rfl
  | cons c t ih =>
    rw [base64Values, base64Value_eq]
    by_cases h : isBase64 c = true
    · rw [if_pos h, List.takeWhile_cons_of_pos h, List.map_cons, ih]
      rfl
    · rw [if_neg h, List.takeWhile_cons_of_neg h]
      rfl

theorem groupChar_bits {v : UInt8} (h : v.toNat < 64) :
    groupChar (bits 6 v.toNat) = base64Char v := by
  rw [groupChar, ofBits_bits h, UInt8.ofNat_toNat]

/-- A group of six bits is a number below 64. -/
theorem toNat_group {w : List Bool} (h : w.length = 6) :
    (UInt8.ofNat (ofBits w)).toNat = ofBits w ∧ ofBits w < 64 := by
  have hlt := ofBits_lt w
  rw [h] at hlt
  exact ⟨UInt8.toNat_ofNat_of_lt (Nat.lt_trans hlt (by decide)), hlt⟩

theorem isBase64_groupChar {w : List Bool} (h : w.length = 6) : isBase64 (groupChar w) = true := by
  obtain ⟨e, hlt⟩ := toNat_group h
  exact isBase64_char (by omega)

/-- The characters of groups are read as the groups. -/
theorem sextets_groupChar {ws : List (List Bool)} (h : ∀ w ∈ ws, w.length = 6) :
    sextets (ws.map groupChar) = ws := by
  rw [sextets, List.map_map]
  refine (List.map_congr_left fun w hw => ?_).trans (List.map_id ws)
  have hlen := h w hw
  obtain ⟨e, hlt⟩ := toNat_group hlen
  show bits 6 (base64Find (groupChar w)).toNat = w
  rw [groupChar, base64Find_char (by omega), e, ← hlen, bits_ofBits]

theorem map_groupChar_sextets {p : Str} (h : ∀ c ∈ p, isBase64 c = true) :
    (sextets p).map groupChar = p := by
  rw [sextets, List.map_map]
  refine (List.map_congr_left fun c hc => ?_).trans (List.map_id p)
  obtain ⟨hlt, e⟩ := base64Char_find (h c hc)
  exact (groupChar_bits hlt).trans e

/-! ## Encoding -/

/-- The groups of six bits of the bytes. -/
def base64Groups (bs : List UInt8) : List (List Bool) := cut 6 false (byteBits bs).flatten

theorem length_of_mem_base64Groups {bs : List UInt8} : ∀ w ∈ base64Groups bs, w.length = 6 :=
  fun _ hw => length_of_mem_cut (by omega) hw

/-- Three bytes are four groups. -/
theorem base64Groups_cons {a b c w x y z : UInt8} (h : charArray4 a b c = (w, x, y, z))
    (bs : List UInt8) : base64Groups (a :: b :: c :: bs) =
      bits 6 w.toNat :: bits 6 x.toNat :: bits 6 y.toNat :: bits 6 z.toNat :: base64Groups bs := by
  have hbits := (charArray4_bits h).1
  have hsix : ∀ p ∈ [bits 6 w.toNat, bits 6 x.toNat, bits 6 y.toNat, bits 6 z.toNat],
      p.length = 6 := by simp
  have hcut := cut_flatten_append (by omega) false hsix (byteBits bs).flatten
  have hflat : (byteBits (a :: b :: c :: bs)).flatten =
      [bits 6 w.toNat, bits 6 x.toNat, bits 6 y.toNat, bits 6 z.toNat].flatten ++
        (byteBits bs).flatten := by
    simp only [byteBits, List.map_cons, List.flatten_cons, List.flatten_nil, List.append_nil,
      ← List.append_assoc, ← hbits]
  rw [base64Groups, hflat, hcut]
  rfl

/-- Two bytes are three groups, with two zero bits. -/
theorem base64Groups_two {a b w x y z : UInt8} (h : charArray4 a b 0 = (w, x, y, z)) :
    base64Groups [a, b] = [bits 6 w.toNat, bits 6 x.toNat, bits 6 y.toNat] := by
  refine cut_eq (r := 2) (by simp) (by omega) ?_
  have hbits := congrArg (List.take 18) (charArray4_bits h).1
  simpa [byteBits, List.take_append, List.append_assoc, bits] using hbits

/-- One byte is two groups, with four zero bits. -/
theorem base64Groups_one {a w x y z : UInt8} (h : charArray4 a 0 0 = (w, x, y, z)) :
    base64Groups [a] = [bits 6 w.toNat, bits 6 x.toNat] := by
  refine cut_eq (r := 4) (by simp) (by omega) ?_
  have hbits := congrArg (List.take 12) (charArray4_bits h).1
  simpa [byteBits, List.take_append, List.append_assoc, bits] using hbits

/-- What `base64_encode` writes: a character for each group, and `=` up to a multiple of four. -/
theorem base64Encode_groups (bs : List UInt8) : base64Encode bs =
    (base64Groups bs).map groupChar ++ List.replicate (missing 4 (base64Groups bs).length) 61 := by
  induction bs using base64Encode.induct with
  | case1 a b c bs w x y z h ih =>
    obtain ⟨-, hw, hx, hy, hz⟩ := charArray4_bits h
    have hmissing : ∀ k, missing 4 (k + 1 + 1 + 1 + 1) = missing 4 k := by
      intro k
      simp only [missing]
      omega
    rw [base64Encode, h, base64Groups_cons h, ih]
    simp only [List.map_cons, List.length_cons, hmissing, groupChar_bits, hw, hx, hy, hz,
      List.cons_append]
  | case2 a b w x y z h =>
    obtain ⟨-, hw, hx, hy, -⟩ := charArray4_bits h
    rw [base64Encode, h, base64Groups_two h]
    simp only [List.map_cons, List.map_nil, groupChar_bits, hw, hx, hy]
    rfl
  | case3 a w x y z h =>
    obtain ⟨-, hw, hx, -, -⟩ := charArray4_bits h
    rw [base64Encode, h, base64Groups_one h]
    simp only [List.map_cons, List.map_nil, groupChar_bits, hw, hx]
    rfl
  | case4 => rfl

/-- **Encoding.** `base64_encode` writes the bits of the bytes six at a time, the last group filled
up with zero bits, each group as its character of the alphabet, and then `=` up to a multiple of
four characters. -/
theorem base64Encode_eq (bs : List UInt8) : base64Encode bs =
    (cut 6 false (byteBits bs).flatten).map (fun w => base64Symbol (ofBits w)) ++
      List.replicate (missing 4 (cut 6 false (byteBits bs).flatten).length) 61 := by
  rw [base64Encode_groups]
  congr 1
  refine List.map_congr_left fun w hw => ?_
  obtain ⟨e, hlt⟩ := toNat_group (length_of_mem_base64Groups w hw)
  rw [groupChar, base64Char_eq (by omega), e]

/-! ## Decoding -/

/-- A group of four characters of the alphabet is three bytes. -/
theorem decodeGroup_four {w x y z : UInt8} (h : ∀ c ∈ [w, x, y, z], isBase64 c = true) :
    (byteBits (decodeGroup [w, x, y, z])).flatten = (sextets [w, x, y, z]).flatten := by
  simp only [List.mem_cons, List.not_mem_nil, or_false, forall_eq_or_imp, forall_eq] at h
  obtain ⟨hw, hx, hy, hz⟩ := h
  have hbits := charArray3_bits (base64Char_find hw).1 (base64Char_find hx).1
    (base64Char_find hy).1 (base64Char_find hz).1
  exact hbits.trans (by simp [sextets])

/-- What is written of a group that is not full: one byte less than there are characters. -/
theorem decodeGroup_short {buf : Str} (h : ∀ c ∈ buf, isBase64 c = true) (hpos : 0 < buf.length)
    (hlen : buf.length < 4) : blocks 8 (sextets buf).flatten =
      byteBits ((decodeGroup buf).take (buf.length - 1)) := by
  have hread : ∀ (bs : List UInt8) (l : List Bool),
      (decodeGroup buf).take (buf.length - 1) = bs.take (buf.length - 1) →
      (byteBits bs).flatten = (sextets buf).flatten ++ l →
        blocks 8 (sextets buf).flatten = byteBits ((decodeGroup buf).take (buf.length - 1)) := by
    intro bs l htake e
    have hdiv : 6 * buf.length / 8 = buf.length - 1 := by omega
    rw [blocks_of_append (by omega) byteBits_length e.symm, sextets_flatten_length, hdiv, htake,
      byteBits, byteBits, List.map_take]
  -- zero bits for the missing characters: they do not get into the bytes that are written
  have hzero : (0 : UInt8).toNat < 64 := by decide
  match buf with
  | [w] =>
    have hbits := charArray3_bits (base64Char_find (h w (by simp))).1 hzero hzero hzero
    exact hread (charArray3 (base64Find w) 0 0 0) (bits 6 0 ++ bits 6 0 ++ bits 6 0) rfl
      (hbits.trans (by simp [sextets]))
  | [w, x] =>
    have hbits := charArray3_bits (base64Char_find (h w (by simp))).1
      (base64Char_find (h x (by simp))).1 hzero hzero
    exact hread (charArray3 (base64Find w) (base64Find x) 0 0) (bits 6 0 ++ bits 6 0) rfl
      (hbits.trans (by simp [sextets]))
  | [w, x, y] =>
    have hbits := charArray3_bits (base64Char_find (h w (by simp))).1
      (base64Char_find (h x (by simp))).1 (base64Char_find (h y (by simp))).1 hzero
    exact hread (charArray3 (base64Find w) (base64Find x) (base64Find y) 0) (bits 6 0) rfl
      (hbits.trans (by simp [sextets]))
  | [] => simp at hpos
  | _ :: _ :: _ :: _ :: _ =>
    simp only [List.length_cons] at hlen
    omega

/-- The loop, while `in_len` counts the characters that are left: what it has written, and the
characters it has not used, are what it has read. -/
theorem base64DecodeLoop_spec (encoded : Str) (inLen : Int) (buf ret : Str)
    (hin : inLen = encoded.length) (h : ∀ c ∈ buf, isBase64 c = true) (hlen : buf.length < 4) :
    ∀ buf' ret', base64DecodeLoop encoded inLen buf ret = (buf', ret') →
      (∀ c ∈ buf', isBase64 c = true) ∧ buf'.length < 4 ∧
        byteBits ret' ++ blocks 8 (sextets buf').flatten =
          byteBits ret ++ blocks 8 (sextets (buf ++ encoded.takeWhile isBase64)).flatten := by
  fun_induction base64DecodeLoop encoded inLen buf ret with
  | case1 _ buf ret =>
    rintro _ _ ⟨⟩
    exact ⟨h, hlen, by rw [List.takeWhile_nil, List.append_nil]⟩
  | case2 c encoded inLen buf ret hc hfour ih =>
    intro buf' ret' e
    have hc := hc.2.2
    have hall : ∀ x ∈ buf ++ [c], isBase64 x = true := by
      simpa [or_imp, forall_and] using ⟨h, hc⟩
    obtain ⟨h', hlen', hbits⟩ := ih (by simp [hin]) (by simp) (by simp) buf' ret' e
    refine ⟨h', hlen', ?_⟩
    obtain ⟨w, x, y, z, hgroup⟩ : ∃ w x y z, buf ++ [c] = [w, x, y, z] :=
      match buf ++ [c], hfour with
      | [w, x, y, z], _ => ⟨w, x, y, z, rfl⟩
    have hsplit : buf ++ c :: encoded.takeWhile isBase64 =
        [w, x, y, z] ++ encoded.takeWhile isBase64 := by
      rw [← hgroup, List.append_assoc, List.singleton_append]
    rw [hgroup] at hall hbits
    rw [hbits, List.takeWhile_cons_of_pos hc, hsplit, List.nil_append, sextets_append,
      List.flatten_append, ← decodeGroup_four hall,
      blocks_flatten_append (by omega) byteBits_length, byteBits_append, List.append_assoc]
  | case3 c encoded inLen buf ret hc hfour ih =>
    intro buf' ret' e
    have hc := hc.2.2
    have hall : ∀ x ∈ buf ++ [c], isBase64 x = true := by
      simpa [or_imp, forall_and] using ⟨h, hc⟩
    have hlen' : (buf ++ [c]).length < 4 := by
      simp only [List.length_append, List.length_singleton] at hfour ⊢
      omega
    have hih := ih (by simp [hin]) hall hlen' buf' ret' e
    rwa [List.takeWhile_cons_of_pos hc, ← List.singleton_append, ← List.append_assoc]
  | case4 c encoded inLen buf ret hc =>
    rintro _ _ ⟨⟩
    have hstop : ¬ isBase64 c = true := by
      intro hb
      refine hc ⟨?_, ?_, hb⟩
      · rw [hin, List.length_cons]
        omega
      · rintro rfl
        cases hb
    exact ⟨h, hlen, by rw [List.takeWhile_cons_of_neg hstop, List.append_nil]⟩

/-- A length below 2^31 fits in an `int`. -/
theorem bmod_length {encoded : Str} (h : encoded.length < 2 ^ 31) :
    Int.bmod encoded.length (2 ^ 32) = encoded.length :=
  Int.bmod_eq_of_le (by omega) (by omega)

/-- The bits of what is decoded. -/
theorem byteBits_decode {encoded : Str} (hmax : encoded.length < 2 ^ 31) :
    byteBits (base64Decode encoded) = blocks 8 (sextets (encoded.takeWhile isBase64)).flatten := by
  rcases e : base64DecodeLoop encoded encoded.length [] [] with ⟨buf, ret⟩
  obtain ⟨h, hlen, hbits⟩ :=
    base64DecodeLoop_spec encoded _ [] [] rfl (by simp) (by simp) buf ret e
  rw [List.nil_append] at hbits
  rw [base64Decode, bmod_length hmax, e]
  show byteBits (if buf.length ≠ 0 then _ else _) = _
  split
  · rw [byteBits_append, ← decodeGroup_short h (by omega) hlen, hbits]
    rfl
  · obtain rfl : buf = [] := List.eq_nil_of_length_eq_zero (by omega)
    exact (List.append_nil _).symm.trans hbits

/-- **Decoding.** `base64_decode` of a text below 2^31 characters reads the characters up to the
first one outside the alphabet, each as its six bits, and writes these bits eight at a time; what is
left is dropped. -/
theorem base64Decode_eq {encoded : Str} (h : encoded.length < 2 ^ 31) : base64Decode encoded =
    (blocks 8 ((base64Values encoded).map (bits 6)).flatten).map
      (fun w => UInt8.ofNat (ofBits w)) := by
  rw [bits_base64Values, ← byteBits_decode h]
  exact (bytesOf_byteBits _).symm

/-- The three letters of `TWE=` are two bytes, and two bits that are dropped. -/
theorem base64Decode_eq_two :
    base64Decode (str "TWE=") =
        (blocks 8 ((base64Values (str "TWE=")).map (bits 6)).flatten).map
          (fun w => UInt8.ofNat (ofBits w)) ∧
      base64Values (str "TWE=") = [19, 22, 4] ∧ base64Decode (str "TWE=") = str "Ma" :=
  ⟨base64Decode_eq (by decide), by decide, by decide⟩

/-! ## Round trip -/

theorem byteBits_injective {bs bs' : List UInt8} (h : byteBits bs = byteBits bs') : bs = bs' := by
  rw [← bytesOf_byteBits bs, h, bytesOf_byteBits]

/-- What is read of an encoding: the characters of its groups. -/
theorem takeWhile_encode (bs : List UInt8) (t : Str) :
    (base64Encode bs ++ t).takeWhile isBase64 = (base64Groups bs).map groupChar ++
      (List.replicate (missing 4 (base64Groups bs).length) 61 ++ t).takeWhile isBase64 := by
  rw [base64Encode_groups, List.append_assoc, List.takeWhile_append_of_pos]
  intro c hc
  obtain ⟨w, hw, rfl⟩ := List.mem_map.mp hc
  exact isBase64_groupChar (length_of_mem_base64Groups w hw)

/-- `=` ends what is read. -/
theorem takeWhile_padding {k : Nat} (h : k ≠ 0) (t : Str) :
    (List.replicate k 61 ++ t).takeWhile isBase64 = [] := by
  obtain ⟨k, rfl⟩ := Nat.exists_eq_succ_of_ne_zero h
  rfl

theorem byteBits_flatten_length (bs : List UInt8) :
    (byteBits bs).flatten.length = 8 * bs.length := by
  induction bs with
  | nil => rfl
  | cons b bs ih =>
    have hcons : (byteBits (b :: bs)).flatten = bits 8 b.toNat ++ (byteBits bs).flatten := rfl
    rw [hcons, List.length_append, bits_length, ih, List.length_cons]
    omega

/-- An encoding has no `=` exactly if three bytes at a time were encoded. -/
theorem missing_base64Groups (bs : List UInt8) :
    missing 4 (base64Groups bs).length = 0 ↔ bs.length % 3 = 0 := by
  rw [base64Groups, cut, blocks_length, List.length_append, List.length_replicate,
    byteBits_flatten_length]
  simp only [missing]
  omega

/-- **Round trip.** `base64_decode` gives back what `base64_encode` was given. If more text follows
the encoding, it goes on with this text exactly if the encoding ends without `=`. The text has less
than 2^31 characters in all. -/
theorem base64Decode_encode {bs : List UInt8} {t : Str}
    (hmax : (base64Encode bs ++ t).length < 2 ^ 31) : base64Decode (base64Encode bs ++ t) =
    if bs.length % 3 = 0 then bs ++ base64Decode t else bs := by
  have ht : t.length < 2 ^ 31 := by
    rw [List.length_append] at hmax
    omega
  apply byteBits_injective
  rw [byteBits_decode hmax, takeWhile_encode, sextets_append, List.flatten_append,
    sextets_groupChar length_of_mem_base64Groups]
  split
  case isTrue h =>
    have hzero : missing 6 (byteBits bs).flatten.length = 0 := by
      rw [byteBits_flatten_length, missing]
      omega
    rw [(missing_base64Groups bs).mpr h, List.replicate_zero, List.nil_append, base64Groups,
      flatten_cut (by omega), hzero, List.replicate_zero, List.append_nil,
      blocks_flatten_append (by omega) byteBits_length, byteBits_append, byteBits_decode ht]
  case isFalse h =>
    rw [takeWhile_padding (mt (missing_base64Groups bs).mp h)]
    show blocks 8 ((base64Groups bs).flatten ++ []) = byteBits bs
    rw [List.append_nil, base64Groups, blocks_cut (by omega) (by omega) false byteBits_length]

/-- After three bytes the text that follows is decoded too, after two it is not. -/
theorem base64Decode_encode_rest :
    base64Decode (base64Encode (str "Man") ++ str "TWE=") =
        (if (str "Man").length % 3 = 0 then str "Man" ++ base64Decode (str "TWE=")
          else str "Man") ∧
      base64Decode (base64Encode (str "Ma") ++ str "TWE=") =
        (if (str "Ma").length % 3 = 0 then str "Ma" ++ base64Decode (str "TWE=") else str "Ma") ∧
      base64Decode (base64Encode (str "Man") ++ str "TWE=") = str "ManMa" :=
  ⟨base64Decode_encode (by decide), base64Decode_encode (by decide), by decide⟩

/-- Whole groups of characters, filled up with `=`, in which the bits that are dropped are zero. -/
structure Base64Canonical (e : Str) : Prop where
  padded : e = e.takeWhile isBase64 ++
    List.replicate (missing 4 (e.takeWhile isBase64).length) 61
  whole : (leftover 8 (sextets (e.takeWhile isBase64)).flatten).length < 6
  zero : ∀ b ∈ leftover 8 (sextets (e.takeWhile isBase64)).flatten, b = false

/-- The texts that `base64_encode` writes are the canonical ones. -/
theorem canonical_iff (e : Str) : (∃ bs, base64Encode bs = e) ↔ Base64Canonical e := by
  constructor
  · rintro ⟨bs, rfl⟩
    have hread : (base64Encode bs).takeWhile isBase64 = (base64Groups bs).map groupChar := by
      have h := takeWhile_encode bs []
      rw [List.append_nil, List.append_nil] at h
      rw [h]
      by_cases hk : missing 4 (base64Groups bs).length = 0
      · rw [hk]
        exact List.append_nil _
      · have hpad := takeWhile_padding hk []
        rw [List.append_nil] at hpad
        rw [hpad, List.append_nil]
    have hsextets : sextets ((base64Encode bs).takeWhile isBase64) = base64Groups bs := by
      rw [hread, sextets_groupChar length_of_mem_base64Groups]
    have hback : cut 6 false (blocks 8 (base64Groups bs).flatten).flatten = base64Groups bs := by
      rw [base64Groups, blocks_cut (by omega) (by omega) false byteBits_length]
    obtain ⟨hlt, hz⟩ := (cut_blocks (by omega) (by omega) false length_of_mem_base64Groups).mp hback
    refine ⟨?_, by rw [hsextets]; exact hlt, by rw [hsextets]; exact hz⟩
    rw [hread, List.length_map, ← base64Encode_groups]
  · rintro ⟨hpad, hlt, hz⟩
    have hall : ∀ c ∈ e.takeWhile isBase64, isBase64 c = true :=
      List.all_eq_true.mp List.all_takeWhile
    -- the bytes that the characters stand for are encoded as these characters
    let bs := bytesOf (blocks 8 (sextets (e.takeWhile isBase64)).flatten)
    have hgroups : base64Groups bs = sextets (e.takeWhile isBase64) := by
      rw [base64Groups, byteBits_bytesOf fun w hw => length_of_mem_blocks (by omega) hw]
      exact (cut_blocks (by omega) (by omega) false sextets_length).mpr ⟨hlt, hz⟩
    have hlen : (sextets (e.takeWhile isBase64)).length = (e.takeWhile isBase64).length :=
      List.length_map ..
    refine ⟨bs, ?_⟩
    rw [base64Encode_groups, hgroups, map_groupChar_sextets hall, hlen, ← hpad]

/-- Four characters for each group of three bytes. -/
theorem base64Encode_length (bs : List UInt8) :
    (base64Encode bs).length = 4 * ((bs.length + 2) / 3) := by
  rw [base64Encode_groups, List.length_append, List.length_map, List.length_replicate,
    base64Groups, cut, blocks_length, List.length_append, List.length_replicate,
    byteBits_flatten_length]
  simp only [missing]
  omega

/-- **Canonical texts.** The texts that `base64_encode` writes are the canonical ones. An
`unsigned int` counts the bytes, so a text has at most four characters for each of the 1431655765
groups of three below 2^32. -/
theorem base64Encode_range (e : Str) : ((∃ bs, base64Encode bs = e) ↔ Base64Canonical e) ∧
    ((∃ bs, bs.length < 2 ^ 32 ∧ base64Encode bs = e) ↔
      Base64Canonical e ∧ e.length ≤ 5726623060) := by
  refine ⟨canonical_iff e, ?_⟩
  rw [← canonical_iff e]
  constructor
  · rintro ⟨bs, hmax, rfl⟩
    refine ⟨⟨bs, rfl⟩, ?_⟩
    rw [base64Encode_length]
    omega
  · rintro ⟨⟨bs, rfl⟩, hmax⟩
    rw [base64Encode_length] at hmax
    exact ⟨bs, by omega, rfl⟩

end LibRest
