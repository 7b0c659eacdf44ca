import SneppxAlg.Crypto.Sha256
import SneppxAlg.Crypto.Sha512

/-!
# `hmac.c`: keyed hashes

Pointers are options, or a flag where only `NULL` matters. The functions give the bytes that they write from `out` on.

Both variants hash with the SHA-512 context, whose digest has 64 bytes. So `SNEPPX_hmac_sha512` is the standard's
construction (`hmacSha512_eq_rfc`), and `SNEPPX_hmac_sha256` writes behind its output for every key and message.
`SNEPPX_hmac_init` keeps the first 128 bytes of a key, which is all of it up to that length.
-/

namespace SneppxAlg.Hmac

open Sha512 (sha512 length_sha512)

/-- `hmac_compute`: the bytes written from `out` on. -/
def compute (key data : List UInt8) (outLen : ℕ) (useSha512 : Bool) : List UInt8 :=
  let blockSize := if useSha512 then 128 else 64
  let hashSize := if useSha512 then 64 else 32
  let k := if blockSize < key.length then (sha512 [key]).take hashSize else key
  let k := k ++ List.replicate (blockSize - k.length) 0
  let ipad := k.map (· ^^^ 0x36)
  let opad := k.map (· ^^^ 0x5C)
  let innerHash := sha512 [ipad, data]
  let finalHashSize := if outLen < hashSize then outLen else hashSize
  sha512 [opad, innerHash.take finalHashSize]

/-- `SNEPPX_HMAC_MAX_KEY`. -/
def maxKey : ℕ := 128

/-- `SNEPPXHMAC`. -/
structure Context where
  key : List UInt8
  hashType : ℤ
  key_le : key.length ≤ maxKey

/-- `SNEPPX_hmac_init`, `none` for the status -1. -/
def hmacInit (hasCtx : Bool) (key : Option (List UInt8)) (hashType : ℤ) : Option Context :=
  match hasCtx, key with
  | true, some key => some ⟨key.take maxKey, hashType, List.length_take_le _ _⟩
  | _, _ => none

/-- `SNEPPX_hmac_compute`: the bytes written, and `*out_len`. -/
def hmacCompute (ctx : Option Context) (data : Option (List UInt8)) (hasOut : Bool) (outLen : Option ℕ) :
    Option (List UInt8 × ℕ) :=
  match ctx, data, hasOut, outLen with
  | some ctx, some data, true, some outLen =>
    let hashSize := if ctx.hashType = 0 then 32 else 64
    if outLen < hashSize then none
    else some (compute ctx.key data hashSize (ctx.hashType != 0), hashSize)
  | _, _, _, _ => none

/-- `SNEPPX_hmac_sha256`. -/
def hmacSha256 (key data : Option (List UInt8)) (hasOut : Bool) : Option (List UInt8) :=
  match key, data, hasOut with
  | some key, some data, true => some (compute key data 32 false)
  | _, _, _ => none

/-- `SNEPPX_hmac_sha512`. -/
def hmacSha512 (key data : Option (List UInt8)) (hasOut : Bool) : Option (List UInt8) :=
  match key, data, hasOut with
  | some key, some data, true => some (compute key data 64 true)
  | _, _, _ => none

/-! ## The standard -/

def rfc2104 (h : List UInt8 → List UInt8) (blockSize : ℕ) (key m : List UInt8) : List UInt8 :=
  let k := if blockSize < key.length then h key else key
  let k := k ++ List.replicate (blockSize - k.length) 0
  h (k.map (· ^^^ 0x5C) ++ h (k.map (· ^^^ 0x36) ++ m))

inductive Variant where
  | sha256
  | sha512
deriving DecidableEq

namespace Variant

/-- The one-call function. -/
def hmac : Variant → Option (List UInt8) → Option (List UInt8) → Bool → Option (List UInt8)
  | sha256 => hmacSha256
  | sha512 => hmacSha512

def digestSize : Variant → ℕ
  | sha256 => 32
  | sha512 => 64

def standard : Variant → List UInt8 → List UInt8 → List UInt8
  | sha256 => rfc2104 Sha256.spec 64
  | sha512 => rfc2104 Sha512.spec 128

end Variant

/-- The one-call function gives the standard's value, in as many bytes as it has, and the context path agrees. -/
def Meets (v : Variant) (key m : List UInt8) : Prop :=
  ∃ w, v.hmac (some key) (some m) true = some w ∧ w.take v.digestSize = v.standard key m ∧ w.length = v.digestSize ∧
    ∀ hashType outLen, (hashType = 0 ↔ v = .sha256) → v.digestSize ≤ outLen →
      hmacCompute (hmacInit true (some key) hashType) (some m) true (some outLen) = some (w, v.digestSize)

/-! ## What the functions compute -/

/-- As many bytes are written for one variant as for the other. -/
theorem length_compute (key data : List UInt8) (outLen : ℕ) (useSha512 : Bool) :
    (compute key data outLen useSha512).length = 64 := rfl

theorem sha512_one (m : List UInt8) (hlt : m.length < 2 ^ 61) : sha512 [m] = Sha512.spec m := by
  rw [Sha512.sha512_eq_spec _ (by rwa [List.flatten_singleton]), List.flatten_singleton]

theorem sha512_two (a b : List UInt8) (hlt : a.length + b.length < 2 ^ 61) :
    sha512 [a, b] = Sha512.spec (a ++ b) := by
  have hflat : [a, b].flatten = a ++ b := by simp
  rw [Sha512.sha512_eq_spec _ (by rwa [hflat, List.length_append]), hflat]

/-- `hmac_compute` with SHA-512, for a key of any length. -/
theorem compute_sha512 (key m : List UInt8) (hkey : key.length < 2 ^ 61) (hm : 128 + m.length < 2 ^ 61) :
    compute key m 64 true = rfc2104 Sha512.spec 128 key m := by
  have htake (pieces : List (List UInt8)) : (sha512 pieces).take 64 = sha512 pieces :=
    List.take_of_length_le (length_sha512 pieces).le
  have hlen (k : List UInt8) (hk : k.length ≤ 128) (f : UInt8 → UInt8) :
      ((k ++ List.replicate (128 - k.length) 0).map f).length = 128 := by
    rw [List.length_map, List.length_append, List.length_replicate]
    omega
  have hcore (k : List UInt8) (hk : k.length ≤ 128) :
      sha512 [(k ++ List.replicate (128 - k.length) 0).map (· ^^^ 0x5C),
        sha512 [(k ++ List.replicate (128 - k.length) 0).map (· ^^^ 0x36), m]] =
      Sha512.spec ((k ++ List.replicate (128 - k.length) 0).map (· ^^^ 0x5C) ++
        Sha512.spec ((k ++ List.replicate (128 - k.length) 0).map (· ^^^ 0x36) ++ m)) := by
    rw [sha512_two _ _ (by rw [hlen k hk, length_sha512]; decide), sha512_two _ m (by rwa [hlen k hk])]
  simp only [compute, rfc2104, if_true, lt_self_iff_false, if_false, htake]
  split_ifs with hlong
  · rw [← sha512_one key hkey]
    exact hcore _ ((length_sha512 _).le.trans (by decide))
  · exact hcore _ (not_lt.mp hlong)

/-- The context path, up to the length of key that a context holds. -/
theorem hmacCompute_hmacInit (v : Variant) (key m : List UInt8) (hkey : key.length ≤ maxKey) {hashType : ℤ} {outLen : ℕ}
    (htype : hashType = 0 ↔ v = .sha256) (hout : v.digestSize ≤ outLen) :
    hmacCompute (hmacInit true (some key) hashType) (some m) true (some outLen) =
      (v.hmac (some key) (some m) true).map (·, v.digestSize) := by
  simp only [hmacInit, hmacCompute, List.take_of_length_le hkey]
  cases v with
  | sha256 =>
    rw [htype.mpr rfl, if_pos rfl, if_neg (not_lt.mpr (show 32 ≤ outLen from hout))]
    rfl
  | sha512 =>
    have hne : hashType ≠ 0 := fun h => Variant.noConfusion (htype.mp h)
    rw [if_neg hne, if_neg (not_lt.mpr (show 64 ≤ outLen from hout)), bne_iff_ne.mpr hne]
    rfl

/-- **Both variants.** With 32 bytes of output no key and message is right: the digest behind is one of 64 bytes. With
64 bytes all are for which the context holds the key. -/
theorem hmac_meets (key m : List UInt8) :
    ¬Meets .sha256 key m ∧ (key.length ≤ 128 → 128 + m.length < 2 ^ 61 → Meets .sha512 key m) := by
  constructor
  · rintro ⟨w, hw, -, hlen, -⟩
    cases hw
    rw [length_compute] at hlen
    exact absurd hlen (by decide)
  · intro hkey hm
    refine ⟨compute key m 64 true, rfl, ?_, length_compute _ _ _ _, fun hashType outLen htype hout => ?_⟩
    · exact (List.take_of_length_le (length_compute key m 64 true).le).trans (compute_sha512 key m (by omega) hm)
    · exact hmacCompute_hmacInit .sha512 key m hkey htype hout

theorem hmac_meets_jefe :
    ¬Meets .sha256 [0x4A, 0x65, 0x66, 0x65] [0x77, 0x68, 0x61, 0x74] ∧
      Meets .sha512 [0x4A, 0x65, 0x66, 0x65] [0x77, 0x68, 0x61, 0x74] :=
  ⟨(hmac_meets _ _).1, (hmac_meets _ _).2 (by decide) (by decide)⟩

/-- The empty key and message. -/
theorem not_forall_meets : ¬∀ v key m, Meets v key m := by
  intro h
  obtain ⟨w, hw, -, hlen, -⟩ := h .sha256 [] []
  cases hw
  rw [length_compute] at hlen
  exact absurd hlen (by decide)

end SneppxAlg.Hmac
