import SneppxAlg.Lib.BlockStream
import SneppxAlg.Lib.Bytes

/-!
# `sha512.c`: SHA-512

The buffer of a context is the list of the bytes in it. Updates in pieces feed the message to `sha512_transform` in
blocks of 128 bytes, and `SNEPPX_sha512_finish` feeds the padding like a last piece. So the digest is a fold over the
blocks of the padded message (`sha512_eq`).
-/

namespace SneppxAlg.Sha512

open Lib.Bytes Lib.BlockStream

/-! ## The transformation -/

/-- `K`. -/
def k : List UInt64 :=
  [
    0x428a2f98d728ae22, 0x7137449123ef65cd, 0xb5c0fbcfec4d3b2f, 0xe9b5dba58189dbbc,
    0x3956c25bf348b538, 0x59f111f1b605d019, 0x923f82a4af194f9b, 0xab1c5ed5da6d8118,
    0xd807aa98a3030242, 0x12835b0145706fbe, 0x243185be4ee4b28c, 0x550c7dc3d5ffb4e2,
    0x72be5d74f27b896f, 0x80deb1fe3b1696b1, 0x9bdc06a725c71235, 0xc19bf174cf692694,
    0xe49b69c19ef14ad2, 0xefbe4786384f25e3, 0x0fc19dc68b8cd5b5, 0x240ca1cc77ac9c65,
    0x2de92c6f592b0275, 0x4a7484aa6ea6e483, 0x5cb0a9dcbd41fbd4, 0x76f988da831153b5,
    0x983e5152ee66dfab, 0xa831c66d2db43210, 0xb00327c898fb213f, 0xbf597fc7beef0ee4,
    0xc6e00bf33da88fc2, 0xd5a79147930aa725, 0x06ca6351e003826f, 0x142929670a0e6e70,
    0x27b70a8546d22ffc, 0x2e1b21385c26c926, 0x4d2c6dfc5ac42aed, 0x53380d139d95b3df,
    0x650a73548baf63de, 0x766a0abb3c77b2a8, 0x81c2c92e47edaee6, 0x92722c851482353b,
    0xa2bfe8a14cf10364, 0xa81a664bbc423001, 0xc24b8b70d0f89791, 0xc76c51a30654be30,
    0xd192e819d6ef5218, 0xd69906245565a910, 0xf40e35855771202a, 0x106aa07032bbd1b8,
    0x19a4c116b8d2d0c8, 0x1e376c085141ab53, 0x2748774cdf8eeb99, 0x34b0bcb5e19b48a8,
    0x391c0cb3c5c95a63, 0x4ed8aa4ae3418acb, 0x5b9cca4f7763e373, 0x682e6ff3d6b2b8a3,
    0x748f82ee5defb2fc, 0x78a5636f43172f60, 0x84c87814a1f0ab72, 0x8cc702081a6439ec,
    0x90befffa23631e28, 0xa4506cebde82bde9, 0xbef9a3f7b2c67915, 0xc67178f2e372532b,
    0xca273eceea26619c, 0xd186b8c721c0c207, 0xeada7dd6cde0eb1e, 0xf57d4f7fee6ed178,
    0x06f067aa72176fba, 0x0a637dc5a2c898a6, 0x113f9804bef90dae, 0x1b710b35131c471b,
    0x28db77f523047d84, 0x32caab7b40c72493, 0x3c9ebe0a15c9bebc, 0x431d67c49c100d4c,
    0x4cc5d4becb3e42b6, 0x597f299cfc657e2a, 0x5fcb6fab3ad6faec, 0x6c44198c4a475817]

/-- `ROTR64`. -/
def rotr64 (x n : UInt64) : UInt64 := x >>> n ||| x <<< (64 - n)

/-- `CH`. -/
def ch (x y z : UInt64) : UInt64 := (x &&& y) ^^^ (~~~x &&& z)

/-- `MAJ`. -/
def maj (x y z : UInt64) : UInt64 := (x &&& y) ^^^ (x &&& z) ^^^ (y &&& z)

/-- `SIGMA0`. -/
def bigSigma0 (x : UInt64) : UInt64 := rotr64 x 28 ^^^ rotr64 x 34 ^^^ rotr64 x 39

/-- `SIGMA1`. -/
def bigSigma1 (x : UInt64) : UInt64 := rotr64 x 14 ^^^ rotr64 x 18 ^^^ rotr64 x 41

/-- `sigma0`. -/
def sigma0 (x : UInt64) : UInt64 := rotr64 x 1 ^^^ rotr64 x 8 ^^^ x >>> 7

/-- `sigma1`. -/
def sigma1 (x : UInt64) : UInt64 := rotr64 x 19 ^^^ rotr64 x 61 ^^^ x >>> 6

/-- `W[t]` for `t < 16`. -/
def blockWord (block : List UInt8) (t : ℕ) : UInt64 :=
  let b := fun j => (block.getD (t * 8 + j) 0).toUInt64
  b 0 <<< 56 ||| b 1 <<< 48 ||| b 2 <<< 40 ||| b 3 <<< 32 ||| b 4 <<< 24 ||| b 5 <<< 16 ||| b 6 <<< 8 ||| b 7

/-- `W`. -/
def schedule (block : List UInt8) : Array UInt64 :=
  (List.range 64).foldl (fun w i =>
    let t := i + 16
    w.push (sigma1 (w.getD (t - 2) 0) + w.getD (t - 7) 0 + sigma0 (w.getD (t - 15) 0) + w.getD (t - 16) 0))
    (Array.ofFn fun t : Fin 16 => blockWord block t)

/-- The eight words of the state. -/
structure Words where
  a : UInt64
  b : UInt64
  c : UInt64
  d : UInt64
  e : UInt64
  f : UInt64
  g : UInt64
  h : UInt64
deriving DecidableEq

/-- Round `t`. -/
def step (w : Array UInt64) (s : Words) (t : ℕ) : Words :=
  let t1 := s.h + bigSigma1 s.e + ch s.e s.f s.g + k.getD t 0 + w.getD t 0
  let t2 := bigSigma0 s.a + maj s.a s.b s.c
  { h := s.g, g := s.f, f := s.e, e := s.d + t1, d := s.c, c := s.b, b := s.a, a := t1 + t2 }

/-- `sha512_transform`, on the state. -/
def transform (s : Words) (block : List UInt8) : Words :=
  let r := (List.range 80).foldl (step (schedule block)) s
  ⟨s.a + r.a, s.b + r.b, s.c + r.c, s.d + r.d, s.e + r.e, s.f + r.f, s.g + r.g, s.h + r.h⟩

/-! ## Contexts -/

/-- `SNEPPX_SHA512_BLOCK_SIZE`. -/
def blockSize : ℕ := 128

/-- `SNEPPXSHA512Context`. -/
structure Context where
  state : Words
  count0 : UInt64
  count1 : UInt64
  buffer : List UInt8
  buflen_lt : buffer.length < blockSize

/-- The state of `SNEPPX_sha512_init`. -/
def initState : Words :=
  ⟨0x6a09e667f3bcc908, 0xbb67ae8584caa73b, 0x3c6ef372fe94f82b, 0xa54ff53a5f1d36f1, 0x510e527fade682d1,
    0x9b05688c2b3e6c1f, 0x1f83d9abfb41bd6b, 0x5be0cd19137e2179⟩

/-- `SNEPPX_sha512_init`. -/
def init : Context := ⟨initState, 0, 0, [], by decide⟩

/-- `count[0]`, after `bitlen` more bits. -/
def addLow (count0 bitlen : UInt64) : UInt64 := count0 + bitlen

/-- `count[1]`, after `bitlen` more bits: the sum of the low words wraps around. -/
def addHigh (count0 count1 bitlen : UInt64) : UInt64 := count1 + if count0 + bitlen < count0 then 1 else 0

/-- `SNEPPX_sha512_update`. -/
def update (ctx : Context) (data : List UInt8) : Context :=
  let bitlen := UInt64.ofNat data.length * 8
  let count1 := addHigh ctx.count0 ctx.count1 bitlen
  let count0 := addLow ctx.count0 bitlen
  let whole (state : Words) (data : List UInt8) : Context :=
    ⟨(run transform blockSize state data).1, count0, count1, (run transform blockSize state data).2,
      length_run_snd_lt (by decide) _ _⟩
  let fill := blockSize - ctx.buffer.length
  if ctx.buffer.length ≠ 0 then
    if hlt : data.length < fill then
      ⟨ctx.state, count0, count1, ctx.buffer ++ data, by
        have := ctx.buflen_lt
        simp only [fill] at hlt
        rw [List.length_append]
        omega⟩
    else whole (transform ctx.state (ctx.buffer ++ data.take fill)) (data.drop fill)
  else whole ctx.state data

def wordToBytes (w : UInt64) : List UInt8 := (List.range 8).map fun i => (w >>> UInt64.ofNat (56 - i * 8)).toUInt8

/-- `remaining`: the zeros of the padding. -/
def remaining (buflen : ℕ) : ℕ :=
  let r := blockSize - (buflen + 1 + 16) % blockSize
  if r = blockSize then 0 else r

/-- `pad`. -/
def padding (ctx : Context) : List UInt8 :=
  0x80 :: List.replicate (remaining ctx.buffer.length) 0 ++ wordToBytes ctx.count1 ++ wordToBytes ctx.count0

/-- `digest`, from the state. -/
def digestOf (s : Words) : List UInt8 := [s.a, s.b, s.c, s.d, s.e, s.f, s.g, s.h].flatMap wordToBytes

/-- `SNEPPX_sha512_finish`. -/
def finish (ctx : Context) : List UInt8 := digestOf (update ctx (padding ctx)).state

/-- The hash of a message that comes in pieces. -/
def sha512 (pieces : List (List UInt8)) : List UInt8 := finish (pieces.foldl update init)

theorem length_sha512 (pieces : List (List UInt8)) : (sha512 pieces).length = 64 := rfl

/-! ## The standard -/

/-- The message, a one bit, the least number of zeros for whole blocks, and the length in bits with 128 bits, the
highest byte first. -/
def padded (m : List UInt8) : List UInt8 :=
  m ++ 0x80 :: List.replicate ((239 - m.length % 128) % 128) 0 ++ (leBytes 16 (8 * m.length)).reverse

/-- SHA-512 as a fold over the blocks of the padded message. -/
def spec (m : List UInt8) : List UInt8 := digestOf ((blocks blockSize (padded m)).foldl transform initState)

/-! ## Feeding -/

/-- What an update leaves, apart from the bit count. -/
theorem update_eq_feed (ctx : Context) (data : List UInt8) :
    ((update ctx data).state, (update ctx data).buffer) = feed transform blockSize (ctx.state, ctx.buffer) data := by
  have hlt := ctx.buflen_lt
  rw [update]
  split_ifs with hbuf hfill
  · exact (feed_of_lt (s := (ctx.state, ctx.buffer)) hlt hfill).symm
  · exact (feed_of_le (s := (ctx.state, ctx.buffer)) hlt (not_lt.mp hfill)).symm
  · rw [not_not, List.length_eq_zero_iff] at hbuf
    rw [hbuf]
    rfl

theorem foldl_update (ctx : Context) (pieces : List (List UInt8)) :
    ((pieces.foldl update ctx).state, (pieces.foldl update ctx).buffer) =
      feed transform blockSize (ctx.state, ctx.buffer) pieces.flatten := by
  rw [← foldl_feed ctx.buflen_lt]
  induction pieces generalizing ctx with
  | nil => rfl
  | cons d pieces ih => rw [List.foldl_cons, List.foldl_cons, ih, update_eq_feed]

/-! ## The bit count -/

/-- The bit count of `n` bytes. -/
structure Counts (ctx : Context) (n : ℕ) : Prop where
  low : ctx.count0.toNat = 8 * n
  high : ctx.count1 = 0

theorem update_count0 (ctx : Context) (data : List UInt8) :
    (update ctx data).count0 = addLow ctx.count0 (UInt64.ofNat data.length * 8) := by
  rw [update]
  split_ifs <;> rfl

theorem update_count1 (ctx : Context) (data : List UInt8) :
    (update ctx data).count1 = addHigh ctx.count0 ctx.count1 (UInt64.ofNat data.length * 8) := by
  rw [update]
  split_ifs <;> rfl

/-- Below `2^61` bytes the low word does not wrap around. -/
theorem Counts.update {ctx : Context} {n : ℕ} (h : Counts ctx n) (data : List UInt8)
    (hlt : n + data.length < 2 ^ 61) : Counts (update ctx data) (n + data.length) := by
  have hlen : (UInt64.ofNat data.length).toNat = data.length := 
    UInt64.toNat_ofNat_of_lt' ((Nat.lt_of_le_of_lt (Nat.le_add_left _ _) hlt).trans (by decide))
  have hbits : (UInt64.ofNat data.length * 8).toNat = 8 * data.length := by
    rw [toNat_mul_lt, hlen]
    · exact Nat.mul_comm _ _
    · rw [hlen]
      exact (show data.length * 8 < 2 ^ 64 by omega)
  have hsum : (ctx.count0 + UInt64.ofNat data.length * 8).toNat = 8 * (n + data.length) := by
    rw [toNat_add_lt] <;> rw [h.low, hbits] <;> omega
  apply Counts.mk
  · rw [update_count0]
    exact hsum
  · have hle : ¬ctx.count0 + UInt64.ofNat data.length * 8 < ctx.count0 := by
      rw [UInt64.lt_iff_toNat_lt, hsum, h.low]
      omega
    rw [update_count1, addHigh, if_neg hle, h.high]
    rfl

theorem Counts.foldl_update {ctx : Context} {n : ℕ} (h : Counts ctx n) (pieces : List (List UInt8))
    (hlt : n + pieces.flatten.length < 2 ^ 61) :
    Counts (pieces.foldl Sha512.update ctx) (n + pieces.flatten.length) := by
  induction pieces generalizing ctx n with
  | nil => exact h
  | cons d pieces ih =>
    rw [List.flatten_cons, List.length_append] at hlt ⊢
    rw [← Nat.add_assoc] at hlt ⊢
    exact ih (h.update d (by omega)) hlt

/-! ## The padding -/

theorem wordToBytes_eq (w : UInt64) : wordToBytes w = (leBytes 8 w.toNat).reverse := by
  have hshift : w >>> 0 = w := by
    apply UInt64.toNat_inj.mp
    simp
  rw [← wordBytes_eq]
  simp only [wordToBytes, wordBytes, List.range, List.range.loop, List.map, List.reverse_cons, List.reverse_nil,
    List.nil_append, List.cons_append]
  rw [show UInt64.ofNat (56 - 7 * 8) = 0 from rfl, hshift]
  rfl

theorem remaining_eq (n : ℕ) : remaining (n % 128) = (239 - n % 128) % 128 := by
  have hr : remaining (n % 128) = if 128 - (n % 128 + 17) % 128 = 128 then 0 else 128 - (n % 128 + 17) % 128 := rfl
  rw [hr]
  split <;> omega

/-- The padding of a context behind `m`. -/
theorem padding_eq {ctx : Context} {n : ℕ} (h : Counts ctx n) (hlt : n < 2 ^ 61) (hbuf : ctx.buffer.length = n % 128) :
    padding ctx = 0x80 :: List.replicate ((239 - n % 128) % 128) 0 ++ (leBytes 16 (8 * n)).reverse := by
  have hhigh : leBytes 8 (8 * n / 256 ^ 8) = leBytes 8 0 := by
    rw [Nat.div_eq_of_lt (by omega)]
  rw [padding, hbuf, remaining_eq, wordToBytes_eq, wordToBytes_eq, h.low, h.high, leBytes_add 8 8, hhigh,
    List.reverse_append, List.append_assoc]
  rfl

/-- The digest of a message that comes in pieces. -/
theorem sha512_eq_spec (pieces : List (List UInt8)) (hlt : pieces.flatten.length < 2 ^ 61) :
    sha512 pieces = spec pieces.flatten := by
  have hctx := foldl_update init pieces
  have hcount : Counts (pieces.foldl update init) pieces.flatten.length := by
    have h := Counts.foldl_update (show Counts init 0 from ⟨rfl, rfl⟩) pieces (by omega)
    rwa [Nat.zero_add] at h
  have hbuf : (pieces.foldl update init).buffer.length = pieces.flatten.length % 128 := by
    rw [show (pieces.foldl update init).buffer = _ from congrArg Prod.snd hctx]
    exact length_run_snd _ _
  have hstate : (update (pieces.foldl update init) (padding (pieces.foldl update init))).state = _ :=
    congrArg Prod.fst (update_eq_feed _ _)
  rw [sha512, finish, hstate, hctx, feed_feed, show init.buffer = [] from rfl, ← run_eq_feed, run_fst (by decide), padding_eq hcount hlt hbuf,
    ← List.append_assoc]
  rfl

end SneppxAlg.Sha512
