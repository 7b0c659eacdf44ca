import SneppxAlg.Lib.BlockStream
import SneppxAlg.Lib.Bytes

/-!
# `sha256.c`: SHA-256

The digest is a fold over the blocks of the padded message (`sha256_eq_spec`), whether the bit count fits behind the
last bytes or not.
-/

namespace SneppxAlg.Sha256

open Lib.Bytes Lib.BlockStream

/-! ## The transformation -/

/-- `K`. -/
def k : List UInt32 :=
  [
    0x428a2f98, 0x71374491, 0xb5c0fbcf, 0xe9b5dba5,
    0x3956c25b, 0x59f111f1, 0x923f82a4, 0xab1c5ed5,
    0xd807aa98, 0x12835b01, 0x243185be, 0x550c7dc3,
    0x72be5d74, 0x80deb1fe, 0x9bdc06a7, 0xc19bf174,
    0xe49b69c1, 0xefbe4786, 0x0fc19dc6, 0x240ca1cc,
    0x2de92c6f, 0x4a7484aa, 0x5cb0a9dc, 0x76f988da,
    0x983e5152, 0xa831c66d, 0xb00327c8, 0xbf597fc7,
    0xc6e00bf3, 0xd5a79147, 0x06ca6351, 0x14292967,
    0x27b70a85, 0x2e1b2138, 0x4d2c6dfc, 0x53380d13,
    0x650a7354, 0x766a0abb, 0x81c2c92e, 0x92722c85,
    0xa2bfe8a1, 0xa81a664b, 0xc24b8b70, 0xc76c51a3,
    0xd192e819, 0xd6990624, 0xf40e3585, 0x106aa070,
    0x19a4c116, 0x1e376c08, 0x2748774c, 0x34b0bcb5,
    0x391c0cb3, 0x4ed8aa4a, 0x5b9cca4f, 0x682e6ff3,
    0x748f82ee, 0x78a5636f, 0x84c87814, 0x8cc70208,
    0x90befffa, 0xa4506ceb, 0xbef9a3f7, 0xc67178f2]

/-- `ROTR`. -/
def rotr (x n : UInt32) : UInt32 := x >>> n ||| x <<< (32 - n)

/-- `CH`. -/
def ch (x y z : UInt32) : UInt32 := (x &&& y) ^^^ (~~~x &&& z)

/-- `MAJ`. -/
def maj (x y z : UInt32) : UInt32 := (x &&& y) ^^^ (x &&& z) ^^^ (y &&& z)

/-- `EP0`. -/
def ep0 (x : UInt32) : UInt32 := rotr x 2 ^^^ rotr x 13 ^^^ rotr x 22

/-- `EP1`. -/
def ep1 (x : UInt32) : UInt32 := rotr x 6 ^^^ rotr x 11 ^^^ rotr x 25

/-- `SIG0`. -/
def sig0 (x : UInt32) : UInt32 := rotr x 7 ^^^ rotr x 18 ^^^ x >>> 3

/-- `SIG1`. -/
def sig1 (x : UInt32) : UInt32 := rotr x 17 ^^^ rotr x 19 ^^^ x >>> 10

/-- `W[i]` for `i < 16`. -/
def blockWord (buffer : List UInt8) (i : ℕ) : UInt32 :=
  let b := fun j => (buffer.getD (i * 4 + j) 0).toUInt32
  b 0 <<< 24 ||| b 1 <<< 16 ||| b 2 <<< 8 ||| b 3

/-- `W`. -/
def schedule (buffer : List UInt8) : Array UInt32 :=
  (List.range 48).foldl (fun w j =>
    let i := j + 16
    w.push (sig1 (w.getD (i - 2) 0) + w.getD (i - 7) 0 + sig0 (w.getD (i - 15) 0) + w.getD (i - 16) 0))
    (Array.ofFn fun i : Fin 16 => blockWord buffer i)

/-- The eight words of the state. -/
structure Words where
  a : UInt32
  b : UInt32
  c : UInt32
  d : UInt32
  e : UInt32
  f : UInt32
  g : UInt32
  h : UInt32
deriving DecidableEq

/-- Round `i`. -/
def step (w : Array UInt32) (s : Words) (i : ℕ) : Words :=
  let t1 := s.h + ep1 s.e + ch s.e s.f s.g + k.getD i 0 + w.getD i 0
  let t2 := ep0 s.a + maj s.a s.b s.c
  { h := s.g, g := s.f, f := s.e, e := s.d + t1, d := s.c, c := s.b, b := s.a, a := t1 + t2 }

/-- `sha256_transform`, on the state. -/
def transform (s : Words) (buffer : List UInt8) : Words :=
  let r := (List.range 64).foldl (step (schedule buffer)) s
  ⟨s.a + r.a, s.b + r.b, s.c + r.c, s.d + r.d, s.e + r.e, s.f + r.f, s.g + r.g, s.h + r.h⟩

/-! ## The hash -/

/-- The first state of `SNEPPX_sha256`. -/
def initState : Words :=
  ⟨0x6a09e667, 0xbb67ae85, 0x3c6ef372, 0xa54ff53a, 0x510e527f, 0x9b05688c, 0x1f83d9ab, 0x5be0cd19⟩

/-- `buffer[56]` to `buffer[63]`. -/
def countBytes (bits : UInt64) : List UInt8 :=
  [(bits >>> 56).toUInt8, (bits >>> 48).toUInt8, (bits >>> 40).toUInt8, (bits >>> 32).toUInt8,
    (bits >>> 24).toUInt8, (bits >>> 16).toUInt8, (bits >>> 8).toUInt8, bits.toUInt8]

def wordToBytes (w : UInt32) : List UInt8 :=
  [(w >>> 24).toUInt8, (w >>> 16).toUInt8, (w >>> 8).toUInt8, w.toUInt8]

/-- `out`, from the state. -/
def digestOf (s : Words) : List UInt8 := [s.a, s.b, s.c, s.d, s.e, s.f, s.g, s.h].flatMap wordToBytes

/-- `SNEPPX_sha256`. -/
def sha256 (m : List UInt8) : List UInt8 :=
  let s := (run transform 64 initState m).1
  let rest := (run transform 64 initState m).2
  let bits := UInt64.ofNat m.length * 8
  if 56 ≤ rest.length then
    let s := transform s (rest ++ 0x80 :: List.replicate (63 - rest.length) 0)
    digestOf (transform s (List.replicate 56 0 ++ countBytes bits))
  else
    digestOf (transform s (rest ++ 0x80 :: List.replicate (55 - rest.length) 0 ++ countBytes bits))

/-! ## The standard -/

/-- The message, a one bit, the least number of zeros for whole blocks, and the length in bits with 64 bits, the highest
byte first. -/
def padded (m : List UInt8) : List UInt8 :=
  m ++ 0x80 :: List.replicate ((119 - m.length % 64) % 64) 0 ++ (leBytes 8 (8 * m.length)).reverse

/-- SHA-256 as a fold over the blocks of the padded message. -/
def spec (m : List UInt8) : List UInt8 := digestOf ((blocks 64 (padded m)).foldl transform initState)

theorem countBytes_eq (bits : UInt64) : countBytes bits = (leBytes 8 bits.toNat).reverse := by
  rw [← wordBytes_eq]
  rfl

/-- A message whose bit count fits into a word. -/
theorem sha256_eq_spec (m : List UInt8) (hlt : m.length < 2 ^ 61) : sha256 m = spec m := by
  have hlen : (UInt64.ofNat m.length).toNat = m.length :=
    UInt64.toNat_ofNat_of_lt' (hlt.trans (by decide))
  have hbits : (UInt64.ofNat m.length * 8).toNat = 8 * m.length := by
    rw [toNat_mul_lt, hlen]
    · exact Nat.mul_comm _ _
    · rw [hlen]
      exact (show m.length * 8 < 2 ^ 64 by omega)
  have hrest : (run transform 64 initState m).2.length = m.length % 64 := length_run_snd _ _
  have hcount : (leBytes 8 (8 * m.length)).reverse.length = 8 := by
    rw [List.length_reverse, length_leBytes]
  have hone (s : Words) (b : List UInt8) (hb : b.length = 64) : (run transform 64 s b).1 = transform s b := by
    have h := run_block_append (f := transform) (s := s) (by decide) hb []
    rw [List.append_nil, run_of_lt (m := []) (by decide)] at h
    rw [h]
  rw [spec, ← run_fst (by decide), padded, List.append_assoc, run_append]
  simp only [sha256]
  generalize (run transform 64 initState m).1 = s
  generalize (run transform 64 initState m).2 = rest at hrest
  rw [countBytes_eq, hbits, hrest]
  split_ifs with h56
  · have hzeros : List.replicate ((119 - m.length % 64) % 64) (0 : UInt8) =
        List.replicate (63 - m.length % 64) 0 ++ List.replicate 56 0 := by
      rw [List.replicate_append_replicate]
      congr 1
      omega
    have hsplit : rest ++ (0x80 :: List.replicate ((119 - m.length % 64) % 64) 0 ++
        (leBytes 8 (8 * m.length)).reverse) =
        (rest ++ 0x80 :: List.replicate (63 - m.length % 64) 0) ++
          (List.replicate 56 0 ++ (leBytes 8 (8 * m.length)).reverse) := by
      rw [hzeros]
      simp only [List.append_assoc, List.cons_append]
    rw [hsplit, run_block_append (by decide), hone]
    · rw [List.length_append, hcount, List.length_replicate]
    · rw [List.length_append, List.length_cons, List.length_replicate]
      omega
  · have hzeros : (119 - m.length % 64) % 64 = 55 - m.length % 64 := by omega
    rw [hzeros, ← List.append_assoc, hone]
    rw [List.length_append, List.length_append, List.length_cons, List.length_replicate, hcount]
    omega

end SneppxAlg.Sha256
