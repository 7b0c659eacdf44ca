import SneppxAlg.Lib.Bytes

/-!
# `poly1305.c`: the algorithm

The streaming Poly1305 authenticator of `security/crypto/c/poly1305.c`. The accumulator and
the clamped key live in five 26-bit limbs, carries are propagated lazily, and `finish` ends
with a branch-free conditional subtraction of the modulus.

Every word operation is the wrapping 64-bit one of the source. The buffer length of a state is
an element of `Fin 16`: `update` empties a full buffer before it returns, so no call can see
one.
-/

namespace SneppxAlg.Poly1305

open Lib.Bytes

/-! ## States -/

/-- Five limbs in radix `2 ^ 26`, least significant first. -/
structure Limbs where
  l0 : UInt64
  l1 : UInt64
  l2 : UInt64
  l3 : UInt64
  l4 : UInt64
  deriving DecidableEq, Repr

/-- `SNEPPXPoly1305State`. -/
structure State where
  r : Limbs
  h : Limbs
  s0 : UInt64
  s1 : UInt64
  buf : Vector UInt8 16
  buflen : Fin 16

def mask26 : UInt64 := 0x3ffffff

/-- The words `lo` and `hi` cut into limbs, as both `poly1305_block` and `init` do. -/
def limbsOf (lo hi : UInt64) : Limbs where
  l0 := lo &&& mask26
  l1 := (lo >>> 26) &&& mask26
  l2 := ((lo >>> 52) ||| (hi <<< 12)) &&& mask26
  l3 := (hi >>> 14) &&& mask26
  l4 := (hi >>> 40) &&& mask26

/-- Bytes 0–7 of a block. -/
def loadLo (m : Vector UInt8 16) : UInt64 :=
  word64 m[0] m[1] m[2] m[3] m[4] m[5] m[6] m[7]

/-- Bytes 8–15 of a block. -/
def loadHi (m : Vector UInt8 16) : UInt64 :=
  word64 m[8] m[9] m[10] m[11] m[12] m[13] m[14] m[15]

theorem toList_sixteen {α : Type} (m : Vector α 16) :
    m.toList = [m[0], m[1], m[2], m[3], m[4], m[5], m[6], m[7],
      m[8], m[9], m[10], m[11], m[12], m[13], m[14], m[15]] := by
  apply List.ext_getElem
  · simp
  · intro i h1 h2
    simp only [Vector.length_toList] at h1
    interval_cases i <;> simp

/-! ## One block -/

/-- The accumulator with a block and its `hibit` added. -/
def absorb (h : Limbs) (m : Vector UInt8 16) (hibit : UInt64) : Limbs :=
  let b := limbsOf (loadLo m) (loadHi m)
  { l0 := h.l0 + b.l0
    l1 := h.l1 + b.l1
    l2 := h.l2 + b.l2
    l3 := h.l3 + b.l3
    l4 := h.l4 + b.l4 + hibit }

/-- The schoolbook product, with limbs above the fifth folded back times 5. -/
def product (h r : Limbs) : Limbs where
  l0 := h.l0 * r.l0 + h.l1 * 5 * r.l4 + h.l2 * 5 * r.l3 + h.l3 * 5 * r.l2 + h.l4 * 5 * r.l1
  l1 := h.l0 * r.l1 + h.l1 * r.l0 + h.l2 * 5 * r.l4 + h.l3 * 5 * r.l3 + h.l4 * 5 * r.l2
  l2 := h.l0 * r.l2 + h.l1 * r.l1 + h.l2 * r.l0 + h.l3 * 5 * r.l4 + h.l4 * 5 * r.l3
  l3 := h.l0 * r.l3 + h.l1 * r.l2 + h.l2 * r.l1 + h.l3 * r.l0 + h.l4 * 5 * r.l4
  l4 := h.l0 * r.l4 + h.l1 * r.l3 + h.l2 * r.l2 + h.l3 * r.l1 + h.l4 * r.l0

/-- The carry chain that closes `poly1305_block` and opens `finish`. -/
def carry (d : Limbs) : Limbs :=
  let d1 := d.l1 + (d.l0 >>> 26)
  let d2 := d.l2 + (d1 >>> 26)
  let d3 := d.l3 + (d2 >>> 26)
  let d4 := d.l4 + (d3 >>> 26)
  let h0 := (d.l0 &&& mask26) + (d4 >>> 26) * 5
  { l0 := h0 &&& mask26
    l1 := (d1 &&& mask26) + (h0 >>> 26)
    l2 := d2 &&& mask26
    l3 := d3 &&& mask26
    l4 := d4 &&& mask26 }

/-- The accumulator after a block. -/
@[irreducible] def blockLimbs (h r : Limbs) (m : Vector UInt8 16) (hibit : UInt64) : Limbs :=
  carry (product (absorb h m hibit) r)

/-- `poly1305_block`. -/
def block (s : State) (m : Vector UInt8 16) (hibit : UInt64) : State :=
  { s with h := blockLimbs s.h s.r m hibit }

/-! ## `SNEPPX_poly1305_init` -/

/-- The first half of the key with the bits cleared that `init` clears. -/
def clampBytes (key : Vector UInt8 32) : Vector UInt8 16 :=
  #v[key[0], key[1], key[2], key[3] &&& 0x0f,
     key[4] &&& 0xfc, key[5], key[6], key[7] &&& 0x0f,
     key[8] &&& 0xfc, key[9], key[10], key[11] &&& 0x0f,
     key[12] &&& 0xfc, key[13], key[14], key[15] &&& 0x0f]

/-- The second half of the key. -/
def padBytes (key : Vector UInt8 32) : Vector UInt8 16 :=
  #v[key[16], key[17], key[18], key[19], key[20], key[21], key[22], key[23],
     key[24], key[25], key[26], key[27], key[28], key[29], key[30], key[31]]

theorem toList_key (key : Vector UInt8 32) :
    key.toList = [key[0], key[1], key[2], key[3], key[4], key[5], key[6], key[7],
      key[8], key[9], key[10], key[11], key[12], key[13], key[14], key[15],
      key[16], key[17], key[18], key[19], key[20], key[21], key[22], key[23],
      key[24], key[25], key[26], key[27], key[28], key[29], key[30], key[31]] := by
  apply List.ext_getElem
  · simp
  · intro i h1 h2
    simp only [Vector.length_toList] at h1
    interval_cases i <;> simp

local instance neZero_sixteen : NeZero 16 := ⟨by decide⟩

/-- `SNEPPX_poly1305_init`. The source leaves `buf` as it is; a fresh state's is zero here. -/
def init (key : Vector UInt8 32) : State where
  r := limbsOf (loadLo (clampBytes key)) (loadHi (clampBytes key))
  h := ⟨0, 0, 0, 0, 0⟩
  s0 := loadLo (padBytes key)
  s1 := loadHi (padBytes key)
  buf := Vector.replicate 16 0
  buflen := 0

/-! ## `SNEPPX_poly1305_update` -/

/-- The bit above a full block, in units of the top limb. -/
def hibit : UInt64 := (1 : UInt64) <<< 24

/-- `memcpy(buf + off, src, …)`. -/
def blit (buf : Vector UInt8 16) (off : Nat) (src : List UInt8) : Vector UInt8 16 :=
  Vector.ofFn fun i => if off ≤ i.val then src.getD (i.val - off) buf[i] else buf[i]

/-- A full buffer goes into the accumulator and is emptied. -/
def drain (s : State) (buf : Vector UInt8 16) : State :=
  { block { s with buf := buf } buf hibit with buflen := 0 }

/-- `SNEPPX_poly1305_update`: each round of the loop fills the buffer as far as the data
reach, and a full buffer is absorbed. -/
def update (s : State) (data : List UInt8) : State :=
  if hd : data = [] then s
  else
    let take := min (16 - s.buflen.val) data.length
    let buf := blit s.buf s.buflen.val (data.take take)
    if hb : s.buflen.val + take = 16 then
      update (drain s buf) (data.drop take)
    else
      update { s with buf := buf, buflen := ⟨s.buflen.val + take, by omega⟩ } (data.drop take)
termination_by data.length
decreasing_by
  all_goals
    have hlen : 0 < data.length := List.length_pos_iff.mpr hd
    have hbuf := s.buflen.isLt
    simp only [List.length_drop]
    omega

/-! ## `SNEPPX_poly1305_finish` -/

/-- The pending bytes followed by a 1 byte and zeros. -/
def padBlock (s : State) : Vector UInt8 16 :=
  Vector.ofFn fun i =>
    if i = s.buflen then 1 else if i.val < s.buflen.val then s.buf[i] else 0

/-- The state after the last, partial block. -/
def flush (s : State) : State :=
  if s.buflen.val = 0 then s else block s (padBlock s) 0

/-- The borrow of `t = h - …`, as the source tests it. -/
def borrow (t h : UInt64) : UInt64 := if t > h then 1 else 0

/-- The conditional subtraction: `h - p` when the chain of borrows ends without one. The
constant of the lowest limb is the source's `0x3ffffffb`. -/
def condSub (h : Limbs) : Limbs :=
  let t0 := h.l0 - 0x3ffffffb
  let t1 := h.l1 - 0x3ffffff - borrow t0 h.l0
  let t2 := h.l2 - 0x3ffffff - borrow t1 h.l1
  let t3 := h.l3 - 0x3ffffff - borrow t2 h.l2
  let t4 := h.l4 - 0x3ffffff - borrow t3 h.l3
  let mask := 0 - borrow t4 h.l4
  { l0 := (t0 &&& ~~~mask) ||| (h.l0 &&& mask)
    l1 := (t1 &&& ~~~mask) ||| (h.l1 &&& mask)
    l2 := (t2 &&& ~~~mask) ||| (h.l2 &&& mask)
    l3 := (t3 &&& ~~~mask) ||| (h.l3 &&& mask)
    l4 := (t4 &&& ~~~mask) ||| (h.l4 &&& mask) }

/-- The low word of the packed accumulator. -/
def packLo (h : Limbs) : UInt64 := h.l0 ||| (h.l1 <<< 26) ||| ((h.l2 &&& 0xfff) <<< 52)

/-- The high word of the packed accumulator. -/
def packHi (h : Limbs) : UInt64 := (h.l2 >>> 12) ||| (h.l3 <<< 14) ||| ((h.l4 &&& 0xffffff) <<< 40)

/-- `SNEPPX_poly1305_finish`. -/
def finish (s : State) : List UInt8 :=
  let f := flush s
  let h := condSub (carry f.h)
  let lo := packLo h + f.s0
  let hi := packHi h + (f.s1 + (if lo < packLo h then 1 else 0))
  wordBytes lo ++ wordBytes hi

theorem length_finish (s : State) : (finish s).length = 16 := by
  simp [finish, wordBytes]

/-- The tag of a message handed over in consecutive `update` calls. -/
def tag (key : Vector UInt8 32) (chunks : List (List UInt8)) : List UInt8 :=
  finish (chunks.foldl update (init key))

end SneppxAlg.Poly1305
