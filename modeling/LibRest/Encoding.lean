import LibRest.CommonDefs

/-!
# Base64 and SHA-256

The encodings of the request headers: `base64_encode` (`Base64.cpp`) and `sha256` (`sha256.cpp`).
The byte and word arithmetic is the code's: `unsigned char` and 32-bit `unsigned int`.
-/

namespace LibRest

/-! ## Base64 -/

/-- `base64_chars`. -/
def base64Chars : Str := str "ABCDEFGHIJKLMNOPQRSTUVWXYZabcdefghijklmnopqrstuvwxyz0123456789+/"

def base64Char (i : UInt8) : UInt8 := base64Chars.getD i.toNat 0

/-- `char_array_4` of `char_array_3`. -/
def charArray4 (a b c : UInt8) : UInt8 × UInt8 × UInt8 × UInt8 :=
  ((a &&& 0xfc) >>> 2,
    ((a &&& 0x03) <<< 4) + ((b &&& 0xf0) >>> 4),
    ((b &&& 0x0f) <<< 2) + ((c &&& 0xc0) >>> 6),
    c &&& 0x3f)

/-- `base64_encode`: three bytes at a time, the last group filled up with zero bytes and `=`. -/
def base64Encode : List UInt8 → Str
  | a :: b :: c :: rest =>
    let (w, x, y, z) := charArray4 a b c
    base64Char w :: base64Char x :: base64Char y :: base64Char z :: base64Encode rest
  | [a, b] =>
    let (w, x, y, _) := charArray4 a b 0
    [base64Char w, base64Char x, base64Char y] ++ str "="
  | [a] =>
    let (w, x, _, _) := charArray4 a 0 0
    [base64Char w, base64Char x] ++ str "=="
  | [] => []

/-! ## SHA-256 -/

/-- `SHA256::sha256_k`. -/
def sha256K : List UInt32 :=
  [0x428a2f98, 0x71374491, 0xb5c0fbcf, 0xe9b5dba5, 0x3956c25b, 0x59f111f1, 0x923f82a4, 0xab1c5ed5,
   0xd807aa98, 0x12835b01, 0x243185be, 0x550c7dc3, 0x72be5d74, 0x80deb1fe, 0x9bdc06a7, 0xc19bf174,
   0xe49b69c1, 0xefbe4786, 0x0fc19dc6, 0x240ca1cc, 0x2de92c6f, 0x4a7484aa, 0x5cb0a9dc, 0x76f988da,
   0x983e5152, 0xa831c66d, 0xb00327c8, 0xbf597fc7, 0xc6e00bf3, 0xd5a79147, 0x06ca6351, 0x14292967,
   0x27b70a85, 0x2e1b2138, 0x4d2c6dfc, 0x53380d13, 0x650a7354, 0x766a0abb, 0x81c2c92e, 0x92722c85,
   0xa2bfe8a1, 0xa81a664b, 0xc24b8b70, 0xc76c51a3, 0xd192e819, 0xd6990624, 0xf40e3585, 0x106aa070,
   0x19a4c116, 0x1e376c08, 0x2748774c, 0x34b0bcb5, 0x391c0cb3, 0x4ed8aa4a, 0x5b9cca4f, 0x682e6ff3,
   0x748f82ee, 0x78a5636f, 0x84c87814, 0x8cc70208, 0x90befffa, 0xa4506ceb, 0xbef9a3f7, 0xc67178f2]

def rotr (x : UInt32) (n : UInt32) : UInt32 := (x >>> n) ||| (x <<< (32 - n))

def sha2Ch (x y z : UInt32) : UInt32 := (x &&& y) ^^^ (~~~x &&& z)
def sha2Maj (x y z : UInt32) : UInt32 := (x &&& y) ^^^ (x &&& z) ^^^ (y &&& z)
def sha256F1 (x : UInt32) : UInt32 := rotr x 2 ^^^ rotr x 13 ^^^ rotr x 22
def sha256F2 (x : UInt32) : UInt32 := rotr x 6 ^^^ rotr x 11 ^^^ rotr x 25
def sha256F3 (x : UInt32) : UInt32 := rotr x 7 ^^^ rotr x 18 ^^^ (x >>> 3)
def sha256F4 (x : UInt32) : UInt32 := rotr x 17 ^^^ rotr x 19 ^^^ (x >>> 10)

/-- `SHA2_PACK32`. -/
def pack32 (bs : List UInt8) : UInt32 :=
  (bs.getD 3 0).toUInt32 ||| ((bs.getD 2 0).toUInt32 <<< 8) ||| ((bs.getD 1 0).toUInt32 <<< 16) |||
    ((bs.getD 0 0).toUInt32 <<< 24)

/-- `SHA2_UNPACK32`. -/
def unpack32 (x : UInt32) : List UInt8 :=
  [(x >>> 24).toUInt8, (x >>> 16).toUInt8, (x >>> 8).toUInt8, x.toUInt8]

/-- The eight words `m_h`. -/
structure MH where
  (a b c d e f g h : UInt32)
  deriving DecidableEq

/-- The message schedule `w`: the 16 words of the block, then 48 computed ones. -/
def schedule (block : List UInt8) : List UInt32 :=
  let w16 := (List.range 16).map fun j => pack32 (block.drop (4 * j))
  (List.range 48).foldl (fun w i =>
    let j := i + 16
    w ++ [sha256F4 (w.getD (j - 2) 0) + w.getD (j - 7) 0 + sha256F3 (w.getD (j - 15) 0) +
      w.getD (j - 16) 0]) w16

/-- One round of `transform` on `wv`, with the constant `k` and the word `w`. -/
def sha256Round (v : MH) (k w : UInt32) : MH :=
  let t1 := v.h + sha256F2 v.e + sha2Ch v.e v.f v.g + k + w
  let t2 := sha256F1 v.a + sha2Maj v.a v.b v.c
  ⟨t1 + t2, v.a, v.b, v.c, v.d + t1, v.e, v.f, v.g⟩

/-- `transform` of one block. -/
def transformBlock (m : MH) (block : List UInt8) : MH :=
  let v := (sha256K.zip (schedule block)).foldl (fun v kw => sha256Round v kw.1 kw.2) m
  ⟨m.a + v.a, m.b + v.b, m.c + v.c, m.d + v.d, m.e + v.e, m.f + v.f, m.g + v.g, m.h + v.h⟩

/-- `SHA256::transform`: `blockNb` blocks of 64 bytes. -/
def transform (m : MH) (message : List UInt8) : Nat → MH
  | 0 => m
  | blockNb + 1 => transform (transformBlock m (message.take 64)) (message.drop 64) blockNb

/-- A `SHA256` object. `mBlock` has the `m_len` bytes of the block that are in use. -/
structure Sha256 where
  mTotLen : UInt32
  mBlock : List UInt8
  mH : MH

/-- `SHA256::init`. -/
def Sha256.init : Sha256 :=
  ⟨0, [], ⟨0x6a09e667, 0xbb67ae85, 0x3c6ef372, 0xa54ff53a, 0x510e527f, 0x9b05688c, 0x1f83d9ab,
    0x5be0cd19⟩⟩

/-- `SHA256::update`. -/
def Sha256.update (c : Sha256) (message : List UInt8) : Sha256 :=
  let tmpLen := 64 - c.mBlock.length
  let remLen := min message.length tmpLen
  if c.mBlock.length + message.length < 64 then
    { c with mBlock := c.mBlock ++ message }
  else
    let newLen := message.length - remLen
    let blockNb := newLen / 64
    let shifted := message.drop remLen
    let m := transform c.mH (c.mBlock ++ message.take remLen) 1
    { mH := transform m shifted blockNb
      mBlock := (shifted.drop (blockNb * 64)).take (newLen % 64)
      mTotLen := c.mTotLen + UInt32.ofNat ((blockNb + 1) * 64) }

/-- `SHA256::final`: the padding, the length in bits, and the words as bytes. -/
def Sha256.final (c : Sha256) : List UInt8 :=
  let mLen := c.mBlock.length
  let blockNb := if 55 < mLen % 64 then 2 else 1
  let lenB := (c.mTotLen + UInt32.ofNat mLen) <<< 3
  let pmLen := blockNb * 64
  let block := c.mBlock ++ [0x80] ++ List.replicate (pmLen - 4 - (mLen + 1)) 0 ++ unpack32 lenB
  let m := transform c.mH block blockNb
  [m.a, m.b, m.c, m.d, m.e, m.f, m.g, m.h].flatMap unpack32

/-- `sprintf("%02x")` of one byte. -/
def hex2 (b : UInt8) : Str :=
  let digit (n : UInt8) : UInt8 := if n < 10 then 48 + n else 87 + n
  [digit (b >>> 4), digit (b &&& 0x0f)]

/-- `sha256`: the digest of the input, in hexadecimal digits. -/
def sha256 (input : Str) : Str := ((Sha256.init.update input).final).flatMap hex2

end LibRest
