import SneppxAlg.Lib.BitStream
import SneppxAlg.Lib.Negacyclic

/-!
# `dilithium.c`: keys, signatures and their verification

The generator behind the expansion functions and the hash are arbitrary functions.
`dilithium_poly_mul` is the exact product modulo `X ^ 256 + 1` and modulo `q`, with centred
coefficients; its number-theoretic transform is left out, and so are failed allocations. None of the
32-bit sums below can overflow, so coefficients are integers. A vector of polynomials is indexed by
all natural numbers, of which the code uses the first `k`.
-/

namespace SneppxAlg.Dilithium

open Lib.Bytes Lib.BitStream Lib.Negacyclic

/-- `DILITHIUM_Q`. -/
abbrev Q : ℤ := 8380417

/-- The coefficients of a polynomial. -/
abbrev Poly := Fin 256 → ℤ

/-- A vector of polynomials. -/
abbrev PolyVec := ℕ → Poly

/-- The functions from other files: `SNEPPX_drbg_init` and `SNEPPX_drbg_generate` give, for a seed, a
nonce and a length, the bytes of the output; `SNEPPX_sha512_*` hash a byte string. -/
structure Primitives where
  drbg : List UInt8 → List UInt8 → ℕ → ℕ → UInt8
  sha512 : List UInt8 → List UInt8
  length_sha512 : ∀ m, (sha512 m).length = 64

/-! ## Parameters -/

/-- `k`, the number of polynomials in a vector. -/
def dimK (variant : ℤ) : ℕ := if variant = 2 then 4 else if variant = 3 then 6 else 8

/-- `eta`. -/
def etaOf (variant : ℤ) : ℤ := if variant = 2 then 2 else 4

/-- `tau`. -/
def tauOf (variant : ℤ) : ℕ := if variant = 2 then 39 else if variant = 3 then 49 else 60

/-- `gamma1`. -/
def gamma1Of (variant : ℤ) : ℤ := if variant = 2 then 2 ^ 17 else 2 ^ 19

/-- `dilithium_gamma2`. -/
def gamma2Of (variant : ℤ) : ℤ := if variant = 2 then (Q - 1) / 88 else (Q - 1) / 32

/-- `beta`. -/
def betaOf (variant : ℤ) : ℤ := 2 * tauOf variant

/-- `s_bytes`. -/
def sBytes (variant : ℤ) : ℕ := if etaOf variant = 2 then 96 else 128

/-! ## Polynomials -/

/-- `dilithium_reduce`; the shift is arithmetic. -/
def reduce (a : ℤ) : ℤ := a - (a + 2 ^ 22) / 2 ^ 23 * Q

/-- `dilithium_poly_add`. -/
def polyAdd (a b : Poly) : Poly := fun i =>
  let s := reduce (a i + b i)
  if s < 0 then s + Q else s

/-- `dilithium_poly_mul`. -/
def polyMul (a b : Poly) : Poly := fun j => Int.bmod (conv a b j) 8380417

/-- `dilithium_mvp`. -/
def mvp (a : ℕ → PolyVec) (vec : PolyVec) (k : ℕ) : PolyVec := fun i =>
  (List.range k).foldl (fun out j => polyAdd out (polyMul (a i j) (vec j))) 0

/-! ## Packing -/

/-- The low `bits` bits of each coefficient. -/
def lowBits (bits : ℕ) (p : Poly) : List ℕ := (List.ofFn p).map fun c => (c % 2 ^ bits).toNat

/-- The polynomial whose coefficients a function of the unpacked numbers gives. -/
def polyOf (f : ℕ → ℤ) (l : List ℕ) : Poly := fun i => f (l.getD i 0)

/-- `dilithium_poly_w1_pack`. -/
def polyW1Pack (w1 : Poly) (gamma2 : ℤ) : List UInt8 :=
  if gamma2 = (Q - 1) / 32 then packGroups 4 2 (lowBits 4 w1) else packGroups 6 3 (lowBits 6 w1)

/-- `pack_10bit`. -/
def pack10bit (p : Poly) : List UInt8 := packGroups 10 5 (lowBits 10 p)

/-- `unpack_10bit`. -/
def unpack10bit (input : List UInt8) : Poly := polyOf (fun v => v) (unpackGroups 10 5 64 input)

/-- The width of a packed coefficient of `s1` and `s2`. -/
def etaBits (eta : ℤ) : ℕ := if eta = 2 then 3 else 4

/-- `pack_eta_signed`. -/
def packEtaSigned (p : Poly) (eta : ℤ) : List UInt8 :=
  packBits (etaBits eta) (lowBits (etaBits eta) fun i => p i + eta)

/-- `unpack_eta_signed`. -/
def unpackEtaSigned (input : List UInt8) (eta : ℤ) : Poly :=
  polyOf (fun v => v - eta) (unpackBits (etaBits eta) 256 input)

/-- `pack_13bit_signed`. -/
def pack13bitSigned (p : Poly) : List UInt8 := packBits 13 (lowBits 13 p)

/-- `unpack_13bit_signed`. -/
def unpack13bitSigned (input : List UInt8) : Poly :=
  polyOf (fun v => if v ≥ 4096 then (v : ℤ) - 8192 else v) (unpackBits 13 256 input)

/-- The width of a packed coefficient of `z`: the first `bits` with `2 * gamma1 ≤ 1 << bits`. -/
def zBits (gamma1 : ℤ) : ℕ := Nat.clog 2 (2 * gamma1).toNat

/-- `pack_z`. -/
def packZ (p : Poly) (gamma1 : ℤ) : List UInt8 :=
  packBits (zBits gamma1) (lowBits (zBits gamma1) fun i => p i + gamma1)

/-- `unpack_z`. -/
def unpackZ (input : List UInt8) (gamma1 : ℤ) : Poly :=
  polyOf (fun v => v - gamma1) (unpackBits (zBits gamma1) 256 input)

/-- The loop of `sign` that packs hints: `hint_byte` holds the first `hbits` bits of the next
byte. -/
def hintLoop : List ℤ → ℕ → ℕ → List UInt8
  | [], hintByte, hbits => if hbits > 0 then [UInt8.ofNat hintByte] else []
  | h :: hs, hintByte, hbits =>
    let hintByte := hintByte ||| (h % 2).toNat <<< hbits
    if hbits + 1 = 8 then UInt8.ofNat hintByte :: hintLoop hs 0 0
    else hintLoop hs hintByte (hbits + 1)

/-- The packed hints of a polynomial. -/
def hintBytes (h : Poly) : List UInt8 := hintLoop (List.ofFn h) 0 0

/-! ## Rounding and hints -/

/-- `dilithium_poly_power2round`: `r1` and `r0`. -/
def power2round (a : ℤ) : ℤ × ℤ :=
  let a1 := (a + 2 ^ 12) / 2 ^ 13
  (a1, a - a1 * 2 ^ 13)

/-- `dilithium_decompose_scalar`: the returned value and `*a0`. -/
def decomposeScalar (a gamma2 : ℤ) : ℤ × ℤ :=
  let alpha := 2 * gamma2
  let r := a.tmod Q
  let r := if r < 0 then r + Q else r
  let r0 := r.tmod alpha
  let r0 := if r0 > alpha.tdiv 2 then r0 - alpha else r0
  let r1 := (r - r0).tdiv alpha
  if r - r0 = Q - 1 then (0, r0 - 1) else (r1, r0)

/-- `dilithium_make_hint_scalar`. -/
def makeHintScalar (a0 a1 gamma2 : ℤ) : ℤ :=
  if a0 > gamma2 ∨ a0 < -gamma2 ∨ (a0 = -gamma2 ∧ a1 ≠ 0) then 1 else 0

/-- `dilithium_use_hint_scalar`. -/
def useHintScalar (a hint gamma2 : ℤ) : ℤ :=
  let (a1, a0) := decomposeScalar a gamma2
  if hint = 0 then a1
  else if gamma2 = (Q - 1) / 32 then
    if a0 > 0 then (a1 + 1) % 16 else (a1 - 1) % 16
  else if a0 > 0 then (if a1 = 43 then 0 else a1 + 1)
  else if a1 = 0 then 43 else a1 - 1

/-! ## Expansion -/

/-- The number of ones among the low `n` bits. -/
def popcount (n v : ℕ) : ℤ := ((List.range n).map fun i => ((v >>> i &&& 1 : ℕ) : ℤ)).sum

/-- `cbd_eta2`. -/
def cbdEta2 (P : Primitives) (seed : List UInt8) (nonce : UInt8) : Poly := fun i =>
  let buf := P.drbg seed [nonce] 128
  let a := (buf (i / 4)).toNat >>> (2 * (i % 4 : ℕ)) &&& 3
  let b := (buf (i / 4 + 64)).toNat >>> (2 * (i % 4 : ℕ)) &&& 3
  popcount 2 a - popcount 2 b

/-- `cbd_eta4`. -/
def cbdEta4 (P : Primitives) (seed : List UInt8) (nonce : UInt8) : Poly := fun i =>
  let buf := P.drbg seed [nonce] 256
  let a := (buf (i / 2)).toNat >>> (4 * (i % 2 : ℕ)) &&& 15
  let b := (buf (i / 2 + 128)).toNat >>> (4 * (i % 2 : ℕ)) &&& 15
  popcount 4 a - popcount 4 b

/-- `dilithium_expand_a`. -/
def expandA (P : Primitives) (rho : List UInt8) (k : ℕ) : ℕ → PolyVec := fun i j c =>
  let buf := P.drbg rho [] (k * k * 256 * 3)
  let at3 := 3 * ((i * k + j) * 256 + c)
  let a : ℤ := (buf at3).toNat + (buf (at3 + 1)).toNat * 2 ^ 8 + (buf (at3 + 2)).toNat * 2 ^ 16
  if a ≥ Q then a % Q else a

/-- The loop of `dilithium_poly_challenge`, over pairs of bytes. -/
def challengeLoop (tau : ℕ) : List (UInt8 × UInt8) → ℕ → Poly → Poly
  | [], _, c => c
  | (idx, sign) :: buf, found, c =>
    if found < tau then
      let i : Fin 256 := ⟨idx.toNat, idx.toNat_lt⟩
      if c i = 0 then
        challengeLoop tau buf (found + 1) (Function.update c i (if sign &&& 1 = 0 then -1 else 1))
      else challengeLoop tau buf found c
    else c

/-- `dilithium_poly_challenge`. -/
def polyChallenge (P : Primitives) (seed : List UInt8) (tau : ℕ) : Poly :=
  let buf := P.drbg seed [] 640
  challengeLoop tau ((List.range 320).map fun i => (buf (2 * i), buf (2 * i + 1))) 0 0

/-! ## Keys -/

/-- What `keygen` computes from the bytes drawn. -/
structure KeyMaterial where
  s1 : PolyVec
  s2 : PolyVec
  t1 : PolyVec
  t0 : PolyVec

/-- The computations of `keygen`. -/
def keyMaterial (P : Primitives) (rho rhoPrime : List UInt8) (variant : ℤ) : KeyMaterial :=
  let k := dimK variant
  let cbd := if etaOf variant = 2 then cbdEta2 P rhoPrime else cbdEta4 P rhoPrime
  let s1 : PolyVec := fun i => cbd (UInt8.ofNat i)
  let s2 : PolyVec := fun i => cbd (UInt8.ofNat (k + i))
  let t : PolyVec := fun i => polyAdd (mvp (expandA P rho k) s1 k i) (s2 i)
  { s1 := s1
    s2 := s2
    t1 := fun i j => (power2round (t i j)).1
    t0 := fun i j => (power2round (t i j)).2 }

/-- `SNEPPX_dilithium_keygen`, given the bytes drawn: the public and the secret key. -/
def keygen (P : Primitives) (rho rhoPrime : Vector UInt8 32) (variant : ℤ) :
    List UInt8 × List UInt8 :=
  let k := dimK variant
  let eta := etaOf variant
  let K := keyMaterial P rho.toList rhoPrime.toList variant
  (rho.toList ++ (List.range k).flatMap fun i => pack10bit (K.t1 i),
    rho.toList ++ rhoPrime.toList ++ List.replicate 32 0 ++
      ((List.range k).flatMap fun i => packEtaSigned (K.s1 i) eta) ++
      ((List.range k).flatMap fun i => packEtaSigned (K.s2 i) eta) ++
      (List.range k).flatMap fun i => pack13bitSigned (K.t0 i))

/-! ## Signatures -/

/-- `w1_enc`. -/
def w1Encode (w1 : PolyVec) (variant : ℤ) : List UInt8 :=
  (List.range (dimK variant)).flatMap fun i => polyW1Pack (w1 i) (gamma2Of variant)

/-- `c_seed`: the first half of the hash of the message and of the packed `w1`. -/
def challengeSeed (P : Primitives) (m : List UInt8) (w1 : PolyVec) (variant : ℤ) : List UInt8 :=
  (P.sha512 (m ++ w1Encode w1 variant)).take 32

/-- What `sign` holds before its first attempt. -/
structure Signer where
  a : ℕ → PolyVec
  s1 : PolyVec
  s2 : PolyVec
  t0 : PolyVec

/-- The secret key as `sign` reads it. -/
def readSecretKey (P : Primitives) (sk : List UInt8) (variant : ℤ) : Signer :=
  let k := dimK variant
  let eta := etaOf variant
  { a := expandA P (sk.take 32) k
    s1 := fun i => unpackEtaSigned (sk.drop (96 + i * sBytes variant)) eta
    s2 := fun i => unpackEtaSigned (sk.drop (96 + k * sBytes variant + i * sBytes variant)) eta
    t0 := fun i => unpack13bitSigned
      (sk.drop (96 + k * sBytes variant + k * sBytes variant + i * 416)) }

/-- The coefficients of `y`, from the words drawn for them. -/
def mask (variant : ℤ) (r : ℕ → Fin 256 → UInt32) : PolyVec := fun i j =>
  (r i j).toNat % (2 * gamma1Of variant) - gamma1Of variant

/-- What one attempt of `sign` computes from its mask `y`. -/
structure Attempt where
  w1 : PolyVec
  w0 : PolyVec
  cSeed : List UInt8
  z : PolyVec
  cs2 : PolyVec
  ct0 : PolyVec

def attempt (P : Primitives) (S : Signer) (m : List UInt8) (y : PolyVec) (variant : ℤ) : Attempt :=
  let w := mvp S.a y (dimK variant)
  let w1 : PolyVec := fun i j => (decomposeScalar (w i j) (gamma2Of variant)).1
  let cSeed := challengeSeed P m w1 variant
  let c := polyChallenge P cSeed (tauOf variant)
  { w1 := w1
    w0 := fun i j => (decomposeScalar (w i j) (gamma2Of variant)).2
    cSeed := cSeed
    z := fun i j => y i j + polyMul c (S.s1 i) j
    cs2 := fun i => polyMul c (S.s2 i)
    ct0 := fun i => polyMul c (S.t0 i) }

/-- A coefficient outside of `[-bound, bound]` in the first `k` polynomials. -/
def Exceeds (k : ℕ) (v : PolyVec) (bound : ℤ) : Prop :=
  ∃ i < k, ∃ j, v i j > bound ∨ v i j < -bound

instance (k : ℕ) (v : PolyVec) (bound : ℤ) : Decidable (Exceeds k v bound) :=
  inferInstanceAs (Decidable (∃ i < k, ∃ j, v i j > bound ∨ v i j < -bound))

/-- The argument of the hint: `w0 - cs2 + ct0`. -/
def Attempt.hintIn (A : Attempt) : PolyVec := fun i j => A.w0 i j - A.cs2 i j + A.ct0 i j

def Attempt.hint (A : Attempt) (variant : ℤ) : PolyVec := fun i j =>
  makeHintScalar (A.hintIn i j) (A.w1 i j) (gamma2Of variant)

/-- The signature of an attempt, unless it is rejected. -/
def signAttempt (P : Primitives) (S : Signer) (m : List UInt8) (y : PolyVec) (variant : ℤ) :
    Option (List UInt8) :=
  let k := dimK variant
  let gamma1 := gamma1Of variant
  let gamma2 := gamma2Of variant
  let beta := betaOf variant
  let A := attempt P S m y variant
  if Exceeds k A.z (gamma1 - beta) then none
  else if Exceeds k A.w0 gamma2 then none
  else if Exceeds k (fun i j => A.w0 i j - A.cs2 i j) (gamma2 - beta) then none
  else some
    (((List.range k).flatMap fun i => packZ (A.z i) gamma1) ++
      ((List.range k).flatMap fun i => hintBytes (A.hint variant i)) ++ A.cSeed)

/-- `SNEPPX_dilithium_sign`, given the words drawn in each attempt: the first attempt that is not
rejected, of at most 1000. -/
def sign (P : Primitives) (m sk : List UInt8) (rand : ℕ → ℕ → Fin 256 → UInt32) (variant : ℤ) :
    Option (List UInt8) :=
  (List.range 1000).findSome? fun n =>
    signAttempt P (readSecretKey P sk variant) m (mask variant (rand n)) variant

/-- `z_bytes` of `verify`. -/
def zBytes (variant : ℤ) : ℕ := (256 * zBits (gamma1Of variant) + 7) / 8

/-- The hint bits as `verify` reads them, from position `pos` on. -/
def readHint (sig : List UInt8) (pos : ℕ) : PolyVec := fun i j =>
  ((sig.getD (pos + (i * 256 + j) / 8) 0).toNat >>> ((i * 256 + j) % 8) &&& 1 : ℕ)

/-- `w1` as `verify` recomputes it. -/
def recomputeW1 (a : ℕ → PolyVec) (t1 z h : PolyVec) (c : Poly) (variant : ℤ) : PolyVec := fun i j =>
  let ct1Shifted := (polyMul c (t1 i) j * 8192).tmod Q
  let diff := mvp a z (dimK variant) i j - ct1Shifted
  let diff := (diff.tmod Q + Q).tmod Q
  useHintScalar diff (h i j) (gamma2Of variant)

/-- `SNEPPX_dilithium_verify`. -/
def verify (P : Primitives) (sig m pk : List UInt8) (variant : ℤ) : Bool :=
  let k := dimK variant
  let gamma1 := gamma1Of variant
  let hintLen := (k * 256 + 7) / 8
  if sig.length < k * zBytes variant + hintLen + 32 then false
  else
    let a := expandA P (pk.take 32) k
    let t1 : PolyVec := fun i => unpack10bit (pk.drop (32 + i * 320))
    let z : PolyVec := fun i => unpackZ (sig.drop (i * zBytes variant)) gamma1
    let h := readHint sig (k * zBytes variant)
    let cSeed := (sig.drop (k * zBytes variant + hintLen)).take 32
    if Exceeds k z (gamma1 - betaOf variant) then false
    else
      let c := polyChallenge P cSeed (tauOf variant)
      let w1 := recomputeW1 a t1 z h c variant
      cSeed = challengeSeed P m w1 variant

end SneppxAlg.Dilithium
