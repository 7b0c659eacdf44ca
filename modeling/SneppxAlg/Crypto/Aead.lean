import SneppxAlg.Crypto.ChaCha20
import SneppxAlg.Crypto.Poly1305Stream

/-!
# `aead.c`: ChaCha20-Poly1305

Encryption and decryption build the Poly1305 input on two separate code paths, as a sequence of
`update` calls with padding in between. By `foldl_update` both sequences authenticate the same
string `macData`, so decryption accepts exactly the tag that encryption would have produced for
the ciphertext it is given.

Pointers that the source checks against `NULL` are options here. An output buffer is either the
input buffer itself or another one with room for the data; `decrypt` returns its contents, so
that a refused message can be seen to leave it alone.
-/

namespace SneppxAlg.Aead

open Lib.Bytes

abbrev Key := Vector UInt8 32

abbrev Nonce := Vector UInt8 12

abbrev Tag := { l : List UInt8 // l.length = 16 }

/-- The associated data argument: a pointer that may be `NULL`, and the length passed along. -/
structure Aad where
  ptr : Option (List UInt8)
  len : Nat
  len_eq : ∀ l, ptr = some l → l.length = len

/-- Where the output goes: over the input, or to another buffer that holds `old`. -/
inductive OutBuf (len : Nat)
  | same
  | other (old : List UInt8) (room : len ≤ old.length)

/-- The contents of the output buffer before the call. -/
def OutBuf.contents {len : Nat} (input : List UInt8) : OutBuf len → List UInt8
  | .same => input
  | .other old _ => old

/-- The contents after the first `len` bytes were overwritten with `bytes`. -/
def OutBuf.write {len : Nat} (bytes : List UInt8) : OutBuf len → List UInt8
  | .same => bytes
  | .other old _ => bytes ++ old.drop len

/-! ## The tag -/

/-- `poly1305_key_gen`: the first half of key stream block 0. -/
def poly1305KeyGen (key : Key) (nonce : Nonce) : Vector UInt8 32 :=
  let b := (ChaCha20.block (ChaCha20.init key nonce 0)).2
  Vector.ofFn fun i => b[i.val]

/-- `pad_aad`. -/
def padAad (aad : Aad) : Nat := if aad.len ≠ 0 then (16 - aad.len % 16) % 16 else 0

/-- `pad_ct`. -/
def padCt (len : Nat) : Nat := (16 - len % 16) % 16

/-- `len_block`: both lengths, each in eight little-endian bytes. -/
def lenBlock (aadLen len : Nat) : List UInt8 :=
  (List.range 8).map (fun i => UInt8.ofNat (aadLen >>> (i * 8))) ++
    (List.range 8).map (fun i => UInt8.ofNat (len >>> (i * 8)))

/-- The `update` calls made over the associated data and the ciphertext. -/
def authenticate (polyKey : Vector UInt8 32) (aad : Aad) (ct : List UInt8) : Poly1305.State :=
  let mac := Poly1305.init polyKey
  let mac := match aad.ptr with
    | some l => if aad.len ≠ 0 then Poly1305.update mac l else mac
    | none => mac
  let mac := if padAad aad ≠ 0 then
      Poly1305.update mac (List.replicate (padAad aad) 0) else mac
  let mac := if ct.length ≠ 0 then Poly1305.update mac ct else mac
  let mac := if padCt ct.length ≠ 0 then
      Poly1305.update mac (List.replicate (padCt ct.length) 0) else mac
  Poly1305.update mac (lenBlock aad.len ct.length)

/-- The tag written by `encrypt` and compared by `decrypt`. -/
def computeTag (key : Key) (nonce : Nonce) (aad : Aad) (ct : List UInt8) : Tag :=
  ⟨Poly1305.finish (authenticate (poly1305KeyGen key nonce) aad ct), Poly1305.length_finish _⟩

/-! ## Encryption and decryption -/

/-- `SNEPPX_ct_equal` over 16 bytes. -/
def ctEqual (a b : Tag) : Bool := (xorBytes a.val b.val).foldl (· ||| ·) 0 == 0

/-- `SNEPPX_aead_encrypt`: the ciphertext buffer and the tag, or `none` for a return of `-1`. -/
def encrypt (plaintext : Option (List UInt8)) (aad : Aad) (key : Option Key)
    (nonce : Option Nonce) (ciphertext : Option (OutBuf ((plaintext.getD []).length)))
    (tag : Option Tag) : Option (List UInt8 × Tag) :=
  match plaintext, key, nonce, ciphertext, tag with
  | some pt, some key, some nonce, some dst, some _ =>
    let ct := ChaCha20.encrypt (ChaCha20.init key nonce 1) pt
    some (dst.write ct, computeTag key nonce aad ct)
  | _, _, _, _, _ => none

/-- `SNEPPX_aead_decrypt`: the status, and the contents of the plaintext buffer. -/
def decrypt (ciphertext : Option (List UInt8)) (tag : Option Tag) (aad : Aad) (key : Option Key)
    (nonce : Option Nonce) (plaintext : Option (OutBuf ((ciphertext.getD []).length))) :
    Int × Option (List UInt8) :=
  match ciphertext, tag, key, nonce, plaintext with
  | some ct, some tag, some key, some nonce, some dst =>
    if ctEqual tag (computeTag key nonce aad ct) then
      (0, some (dst.write (ChaCha20.encrypt (ChaCha20.init key nonce 1) ct)))
    else (-1, some (dst.contents ct))
  | some ct, _, _, _, some dst => (-1, some (dst.contents ct))
  | none, _, _, _, some dst => (-1, some (dst.contents []))
  | _, _, _, _, none => (-1, none)

/-! ## What is authenticated -/

/-- The authenticated string: both parts padded to 16 bytes, then their lengths. -/
def macData (aad : Aad) (ct : List UInt8) : List UInt8 :=
  aad.ptr.getD [] ++ List.replicate (padAad aad) 0 ++ ct ++
    List.replicate (padCt ct.length) 0 ++ lenBlock aad.len ct.length

theorem update_nil (s : Poly1305.State) : Poly1305.update s [] = s := by
  rw [Poly1305.update_eq_foldl]
  rfl

theorem update_append (s : Poly1305.State) (a b : List UInt8) :
    Poly1305.update (Poly1305.update s a) b = Poly1305.update s (a ++ b) := by
  simp only [Poly1305.update_eq_foldl, List.foldl_append]

/-- A guard that skips an empty update changes nothing. -/
theorem guarded_update (s : Poly1305.State) (l : List UInt8) (n : Nat) (hl : l.length = n) :
    (if n ≠ 0 then Poly1305.update s l else s) = Poly1305.update s l := by
  split
  · rfl
  · rename_i h0
    have : l = [] := List.length_eq_zero_iff.mp (by omega)
    rw [this, update_nil]

theorem authenticate_eq (polyKey : Vector UInt8 32) (aad : Aad) (ct : List UInt8) :
    authenticate polyKey aad ct =
      Poly1305.update (Poly1305.init polyKey) (macData aad ct) := by
  have haad (s : Poly1305.State) : (match aad.ptr with
      | some l => if aad.len ≠ 0 then Poly1305.update s l else s
      | none => s) = Poly1305.update s (aad.ptr.getD []) := by
    cases hp : aad.ptr with
    | none => exact (update_nil s).symm
    | some l => exact guarded_update s l aad.len (aad.len_eq l hp)
  simp only [authenticate, haad]
  rw [guarded_update _ _ _ (by simp), guarded_update _ _ _ rfl, guarded_update _ _ _ (by simp)]
  simp only [update_append, macData]

/-- The tag a receiver recomputes: Poly1305 of the authenticated string in one piece. -/
def recomputedTag (key : Key) (nonce : Nonce) (aad : Aad) (ct : List UInt8) : List UInt8 :=
  Poly1305.tag (poly1305KeyGen key nonce) [macData aad ct]

theorem computeTag_eq (key : Key) (nonce : Nonce) (aad : Aad) (ct : List UInt8) :
    (computeTag key nonce aad ct).val = recomputedTag key nonce aad ct := by
  simp only [computeTag, authenticate_eq]
  rfl

theorem ctEqual_iff (a b : Tag) : ctEqual a b = true ↔ a.val = b.val := by
  rw [ctEqual, beq_iff_eq, foldl_or_xor_eq_zero (a.property.trans b.property.symm)]
  simp

/-! ## Correctness -/

theorem take_write {len : Nat} {bytes : List UInt8} (h : bytes.length = len) (dst : OutBuf len) :
    (dst.write bytes).take len = bytes := by
  cases dst with
  | same => simp [OutBuf.write, h]
  | other old room => rw [OutBuf.write, List.take_left' h]

/-- The two sides of `decrypt`, with the comparison read as an equation of tags. -/
theorem decrypt_some (ct : List UInt8) (tag : Tag) (aad : Aad) (key : Key) (nonce : Nonce)
    (dst : OutBuf ct.length) :
    decrypt (some ct) (some tag) aad (some key) (some nonce) (some dst) =
      if tag.val = recomputedTag key nonce aad ct then
        (0, some (dst.write (ChaCha20.encrypt (ChaCha20.init key nonce 1) ct)))
      else (-1, some (dst.contents ct)) := by
  simp only [decrypt, ctEqual_iff, computeTag_eq]

/-- **Authenticated decryption.** Decrypting what was encrypted succeeds and gives the plaintext
back, for buffers that coincide or not; any ciphertext is accepted exactly under the tag
recomputed from it and the associated data; and a refusal leaves the plaintext buffer as it
was. -/
theorem decrypt_correct (key : Key) (nonce : Nonce) (aad : Aad) :
    (∀ (pt : List UInt8) (dst : OutBuf pt.length) (t : Tag), ∃ buf tag,
      encrypt (some pt) aad (some key) (some nonce) (some dst) (some t) = some (buf, tag) ∧
        ∀ out : OutBuf (buf.take pt.length).length,
          decrypt (some (buf.take pt.length)) (some tag) aad (some key) (some nonce) (some out) =
            (0, some (out.write pt))) ∧
    ∀ (ct : List UInt8) (tag : Tag) (out : OutBuf ct.length),
      ((decrypt (some ct) (some tag) aad (some key) (some nonce) (some out)).1 = 0 ↔
        tag.val = recomputedTag key nonce aad ct) ∧
      ((decrypt (some ct) (some tag) aad (some key) (some nonce) (some out)).1 ≠ 0 →
        (decrypt (some ct) (some tag) aad (some key) (some nonce) (some out)).2 =
          some (out.contents ct)) := by
  constructor
  · intro pt dst t
    refine ⟨_, _, rfl, ?_⟩
    rw [take_write (ChaCha20.length_encrypt _ _)]
    intro out
    rw [decrypt_some, if_pos (computeTag_eq key nonce aad _), ChaCha20.encrypt_encrypt]
  · intro ct tag out
    rw [decrypt_some]
    split <;> simp_all

end SneppxAlg.Aead
