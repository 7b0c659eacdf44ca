import Mathlib
import SneppxAlg.Lib.Bytes

/-!
# `aes_gcm.c`: AES-256 in Galois/counter mode

The context is carried from call to call, but the counter is not: every call of `encrypt` starts
again at the block after `j0`. `gcm_ghash` takes its input in whole blocks of 16 bytes and reads
past the end of a string whose length is no multiple of 16; here such a read is `none`. And
`decrypt` hashes its input, then calls `encrypt`, which counts the length once more and hashes the
plaintext too. What is sound is the data path of one call: running the cipher over its own output
gives the input back (`crypt_crypt`).
-/

namespace SneppxAlg.AesGcm

abbrev Block := Vector UInt8 16

abbrev Key := Vector UInt8 32

abbrev Iv := Vector UInt8 12

/-! ## The block cipher -/

/-- `rcon`. -/
def rcon : List UInt32 :=
  [0x01, 0x02, 0x04, 0x08, 0x10, 0x20, 0x40, 0x80, 0x1B, 0x36, 0x6C, 0xD8, 0xAB, 0x4D]

/-- `sbox`, one row for each high nibble. -/
def sbox : List (List UInt8) := [
  [0x63,0x7C,0x77,0x7B,0xF2,0x6B,0x6F,0xC5,0x30,0x01,0x67,0x2B,0xFE,0xD7,0xAB,0x76],
  [0xCA,0x82,0xC9,0x7D,0xFA,0x59,0x47,0xF0,0xAD,0xD4,0xA2,0xAF,0x9C,0xA4,0x72,0xC0],
  [0xB7,0xFD,0x93,0x26,0x36,0x3F,0xF7,0xCC,0x34,0xA5,0xE5,0xF1,0x71,0xD8,0x31,0x15],
  [0x04,0xC7,0x23,0xC3,0x18,0x96,0x05,0x9A,0x07,0x12,0x80,0xE2,0xEB,0x27,0xB2,0x75],
  [0x09,0x83,0x2C,0x1A,0x1B,0x6E,0x5A,0xA0,0x52,0x3B,0xD6,0xB3,0x29,0xE3,0x2F,0x84],
  [0x53,0xD1,0x00,0xED,0x20,0xFC,0xB1,0x5B,0x6A,0xCB,0xBE,0x39,0x4A,0x4C,0x58,0xCF],
  [0xD0,0xEF,0xAA,0xFB,0x43,0x4D,0x33,0x85,0x45,0xF9,0x02,0x7F,0x50,0x3C,0x9F,0xA8],
  [0x51,0xA3,0x40,0x8F,0x92,0x9D,0x38,0xF5,0xBC,0xB6,0xDA,0x21,0x10,0xFF,0xF3,0xD2],
  [0xCD,0x0C,0x13,0xEC,0x5F,0x97,0x44,0x17,0xC4,0xA7,0x7E,0x3D,0x64,0x5D,0x19,0x73],
  [0x60,0x81,0x4F,0xDC,0x22,0x2A,0x90,0x88,0x46,0xEE,0xB8,0x14,0xDE,0x5E,0x0B,0xDB],
  [0xE0,0x32,0x3A,0x0A,0x49,0x06,0x24,0x5C,0xC2,0xD3,0xAC,0x62,0x91,0x95,0xE4,0x79],
  [0xE7,0xC8,0x37,0x6D,0x8D,0xD5,0x4E,0xA9,0x6C,0x56,0xF4,0xEA,0x65,0x7A,0xAE,0x08],
  [0xBA,0x78,0x25,0x2E,0x1C,0xA6,0xB4,0xC6,0xE8,0xDD,0x74,0x1F,0x4B,0xBD,0x8B,0x8A],
  [0x70,0x3E,0xB5,0x66,0x48,0x03,0xF6,0x0E,0x61,0x35,0x57,0xB9,0x86,0xC1,0x1D,0x9E],
  [0xE1,0xF8,0x98,0x11,0x69,0xD9,0x8E,0x94,0x9B,0x1E,0x87,0xE9,0xCE,0x55,0x28,0xDF],
  [0x8C,0xA1,0x89,0x0D,0xBF,0xE6,0x42,0x68,0x41,0x99,0x2D,0x0F,0xB0,0x54,0xBB,0x16]]

/-- The S-box entry of a byte. -/
def subByte (b : UInt8) : UInt8 := (sbox.getD (b.toNat / 16) []).getD (b.toNat % 16) 0

/-- `load32`: a word from four bytes, most significant first. -/
def load32 (b₀ b₁ b₂ b₃ : UInt8) : UInt32 :=
  (b₀.toUInt32 <<< 24) ||| (b₁.toUInt32 <<< 16) ||| (b₂.toUInt32 <<< 8) ||| b₃.toUInt32

/-- `store32`. -/
def store32 (w : UInt32) : List UInt8 :=
  [(w >>> 24).toUInt8, (w >>> 16).toUInt8, (w >>> 8).toUInt8, w.toUInt8]

/-- `sub_word`. -/
def subWord (w : UInt32) : UInt32 :=
  load32 (subByte (w >>> 24).toUInt8) (subByte (w >>> 16).toUInt8) (subByte (w >>> 8).toUInt8)
    (subByte w.toUInt8)

/-- `rot_word`. -/
def rotWord (w : UInt32) : UInt32 := (w <<< 8) ||| (w >>> 24)

/-- `SNEPPX_aes256_key_expansion`. -/
def keyExpansion (key : Key) : List UInt32 :=
  let byte (i : ℕ) := key.toList.getD i 0
  let rk := (List.range 8).map fun i =>
    load32 (byte (i * 4)) (byte (i * 4 + 1)) (byte (i * 4 + 2)) (byte (i * 4 + 3))
  (List.range' 8 52).foldl
    (fun rk i =>
      let t := rk.getD (i - 1) 0
      let t := if i % 8 = 0 then subWord (rotWord t) ^^^ (rcon.getD (i / 8 - 1) 0 <<< 24)
        else if i % 8 = 4 then subWord t
        else t
      rk ++ [rk.getD (i - 8) 0 ^^^ t]) rk

/-- Four words; their bytes in memory are read least significant first. -/
structure Words where
  s0 : UInt32
  s1 : UInt32
  s2 : UInt32
  s3 : UInt32

/-- Byte `i` of the four words as they lie in memory. -/
def Words.byte (s : Words) (i : ℕ) : UInt8 :=
  let w := match i / 4 with
    | 0 => s.s0
    | 1 => s.s1
    | 2 => s.s2
    | _ => s.s3
  (w >>> UInt32.ofNat (8 * (i % 4))).toUInt8

/-- Word `i` after the S-box went over the bytes. -/
def Words.subWord (s : Words) (i : ℕ) : UInt32 :=
  load32 (subByte (s.byte (4 * i))) (subByte (s.byte (4 * i + 1))) (subByte (s.byte (4 * i + 2)))
    (subByte (s.byte (4 * i + 3)))

/-- The byte swap that the round function spells out. -/
def swapBytes (w : UInt32) : UInt32 :=
  (w >>> 24) ||| ((w >>> 8) &&& (0xFF00 : UInt32)) ||| ((w <<< 8) &&& (0xFF0000 : UInt32)) ||| (w <<< 24)

/-- One round. The last assignment of the mixing reads the word that the first one wrote. -/
def round (rk : List UInt32) (s : Words) (r : ℕ) : Words :=
  let t0 := s.subWord 0
  let t1 := s.subWord 1
  let t2 := s.subWord 2
  let t3 := s.subWord 3
  let u0 := swapBytes t0 ^^^ swapBytes t1
  let u1 := swapBytes t1 ^^^ swapBytes t2
  let u2 := swapBytes t2 ^^^ swapBytes t3
  let u3 := swapBytes t3 ^^^ swapBytes u0
  ⟨u0 ^^^ rk.getD (r * 4) 0, u1 ^^^ rk.getD (r * 4 + 1) 0, u2 ^^^ rk.getD (r * 4 + 2) 0,
    u3 ^^^ rk.getD (r * 4 + 3) 0⟩

def blockWord (b : Block) (i : Fin 4) : UInt32 :=
  load32 (b.get ⟨4 * i, by omega⟩) (b.get ⟨4 * i + 1, by omega⟩) (b.get ⟨4 * i + 2, by omega⟩)
    (b.get ⟨4 * i + 3, by omega⟩)

/-- `SNEPPX_aes256_encrypt_block`. -/
def encryptBlock (rk : List UInt32) (inp : Block) : Block :=
  let s : Words := ⟨blockWord inp 0 ^^^ rk.getD 0 0, blockWord inp 1 ^^^ rk.getD 1 0,
    blockWord inp 2 ^^^ rk.getD 2 0, blockWord inp 3 ^^^ rk.getD 3 0⟩
  let s := (List.range' 1 13).foldl (round rk) s
  let out := (List.range 4).flatMap fun i => store32 (s.subWord i ^^^ rk.getD (56 + i) 0)
  Vector.ofFn fun i => out.getD i 0

theorem lt_sixteen (i : Fin 16) : i.val < 16 := i.isLt

/-- `inc32`: the last four bytes, as a big-endian counter. -/
def inc32 (block : Block) : Block :=
  ([15, 14, 13, 12].foldl
    (fun (s : Block × Bool) (i : Fin 16) =>
      if s.2 then s
      else
        let b := s.1.get i + 1
        (s.1.set i b (lt_sixteen i), b != 0))
    (block, false)).1

/-- `xor_block`. -/
def xorBlock (d s : Block) : Block := Vector.zipWith (· ^^^ ·) d s

/-! ## The hash -/

/-- `hh` shifted left by one bit, and the bit that falls out. -/
def shiftLeft (hh : Block) : Block × UInt8 :=
  (List.finRange 16).reverse.foldl
    (fun (s : Block × UInt8) (j : Fin 16) =>
      (s.1.set j (((s.1.get j) <<< 1) ||| s.2) (lt_sixteen j), ((s.1.get j) >>> 7) &&& 1))
    (hh, 0)

theorem fifteen_lt_sixteen : 15 < 16 := by decide

/-- One block of `gcm_ghash`; `hh` is overwritten with `z` at the end of every step. -/
def ghashBlock (h y x : Block) : Block :=
  let y := xorBlock y x
  ((List.range 128).foldl
    (fun (s : Block × Block) k =>
      let byte := y.toList.getD (k / 8) 0
      let z := if (byte >>> UInt8.ofNat (7 - k % 8)) &&& 1 ≠ 0 then xorBlock s.1 s.2 else s.1
      let carry := (shiftLeft s.2).2
      let z := if carry ≠ 0 then z.set 15 (z.get 15 ^^^ 0xE1) fifteen_lt_sixteen else z
      (z, z))
    (Vector.replicate 16 0, h)).1

/-- Sixteen bytes of `x` from `i` on, if they are all there. -/
def readBlock (x : List UInt8) (i : ℕ) : Option Block :=
  if i + 16 ≤ x.length then some (Vector.ofFn fun j => x.getD (i + j) 0) else none

/-- `gcm_ghash` over a buffer of `x.length` bytes. -/
def gcmGhash (y h : Block) (x : List UInt8) : Option Block :=
  (List.range ((x.length + 15) / 16)).foldlM
    (fun y i => (readBlock x (16 * i)).map fun b => ghashBlock h y b) y

/-- `gcm_len_block`. -/
def gcmLenBlock (aadLen cryptLen : UInt64) : List UInt8 :=
  ((List.range 8).map fun i => (aadLen >>> UInt64.ofNat (56 - 8 * i)).toUInt8) ++
    (List.range 8).map fun i => (cryptLen >>> UInt64.ofNat (56 - 8 * i)).toUInt8

/-! ## The context -/

/-- `SNEPPXAESGCM`, less the fields that nothing reads. -/
structure Context where
  rk : List UInt32
  h : Block
  j0 : Block
  y : Block
  aadLen : UInt64
  cryptLen : UInt64

/-- `SNEPPX_aes_gcm_init`. -/
def init (key : Key) (iv : Iv) : Context :=
  let rk := keyExpansion key
  { rk := rk
    h := encryptBlock rk (Vector.replicate 16 0)
    j0 := Vector.ofFn fun i => (iv.toList ++ [0, 0, 0, 1]).getD i 0
    y := Vector.replicate 16 0
    aadLen := 0
    cryptLen := 0 }

/-- `SNEPPX_aes_gcm_update_aad`. -/
def updateAad (ctx : Context) (aad : List UInt8) : Option Context :=
  if aad.length = 0 then some ctx
  else
    (gcmGhash ctx.y ctx.h aad).map fun y =>
      { ctx with aadLen := ctx.aadLen + UInt64.ofNat aad.length, y := y }

/-- The key stream blocks of one call: `n` blocks from the counter after `j0` on. -/
def counters (ctx : Context) (n : ℕ) : List Block :=
  (List.range n).map fun i => inc32^[i + 1] ctx.j0

/-- The key stream of one call over `len` bytes. -/
def keyStream (ctx : Context) (len : ℕ) : List UInt8 :=
  (counters ctx ((len + 15) / 16)).flatMap fun c => (encryptBlock ctx.rk c).toList

/-- The loop of `encrypt`: the data against the key stream. -/
def crypt (ctx : Context) (data : List UInt8) : List UInt8 :=
  List.zipWith (· ^^^ ·) data (keyStream ctx data.length)

/-- `SNEPPX_aes_gcm_encrypt`: the new context and what it writes. -/
def encrypt (ctx : Context) (pt : List UInt8) : Option (Context × List UInt8) :=
  if pt.length = 0 then some (ctx, [])
  else
    let ct := crypt ctx pt
    (gcmGhash ctx.y ctx.h ct).map fun y =>
      ({ ctx with cryptLen := ctx.cryptLen + UInt64.ofNat pt.length, y := y }, ct)

/-- `SNEPPX_aes_gcm_decrypt`. -/
def decrypt (ctx : Context) (ct : List UInt8) : Option (Context × List UInt8) := do
  let y ← gcmGhash ctx.y ctx.h ct
  encrypt { ctx with cryptLen := ctx.cryptLen + UInt64.ofNat ct.length, y := y } ct

/-- `SNEPPX_aes_gcm_finalize`: the tag. -/
def finalize (ctx : Context) : Option Block :=
  (gcmGhash ctx.y ctx.h (gcmLenBlock ctx.aadLen ctx.cryptLen)).map fun y =>
    xorBlock (encryptBlock ctx.rk ctx.j0) y

/-! ## Whole messages -/

/-- Several calls over the pieces of the data, with the outputs put together. -/
def calls (f : Context → List UInt8 → Option (Context × List UInt8)) (ctx : Context)
    (chunks : List (List UInt8)) : Option (Context × List UInt8) :=
  chunks.foldlM (fun s c => (f s.1 c).map fun r => (r.1, s.2 ++ r.2)) (ctx, [])

/-- A message through one direction: ciphertext or plaintext, and the tag. -/
def process (f : Context → List UInt8 → Option (Context × List UInt8)) (key : Key) (iv : Iv)
    (aads chunks : List (List UInt8)) : Option (List UInt8 × Block) := do
  let ctx ← aads.foldlM updateAad (init key iv)
  let (ctx, out) ← calls f ctx chunks
  let tag ← finalize ctx
  pure (out, tag)

/-- What the interface promises for a message that is cut into pieces: the decryption of one call gives the plaintext
and the tag back, and the calls over the pieces give the ciphertext and the tag of one call. -/
def Correct (key : Key) (iv : Iv) (aads pts : List (List UInt8)) : Prop :=
  ∃ ct tag, process encrypt key iv [aads.flatten] [pts.flatten] = some (ct, tag) ∧
    process decrypt key iv [aads.flatten] [ct] = some (pts.flatten, tag) ∧
    process encrypt key iv aads pts = some (ct, tag)

/-! ## The data path of one call -/

theorem length_keyStream (ctx : Context) (len : ℕ) : len ≤ (keyStream ctx len).length := by
  have hlen : (keyStream ctx len).length = (len + 15) / 16 * 16 := by
    simp [keyStream, counters, List.length_flatMap]
  rw [hlen]
  omega

theorem length_crypt (ctx : Context) (data : List UInt8) : (crypt ctx data).length = data.length := by
  have hlen := length_keyStream ctx data.length
  rw [crypt, List.length_zipWith]
  omega

/-- One call undoes another with the same counter. -/
theorem crypt_crypt (ctx ctx' : Context) (hrk : ctx'.rk = ctx.rk) (hj0 : ctx'.j0 = ctx.j0)
    (data : List UInt8) : crypt ctx' (crypt ctx data) = data := by
  have hstream : ∀ len, keyStream ctx' len = keyStream ctx len := by
    intro len
    simp only [keyStream, counters, hrk, hj0]
  rw [crypt, length_crypt, hstream]
  exact Lib.Bytes.xorBytes_xorBytes (length_keyStream ctx data.length)

end SneppxAlg.AesGcm
