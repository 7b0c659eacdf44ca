import SneppxAlg.Crypto.Sha512
import SneppxAlg.Lib.ByteNumbers
import SneppxAlg.Lib.Columns
import SneppxAlg.Lib.Lucas
import SneppxAlg.Lib.TwistedEdwards
import Mathlib.NumberTheory.LegendreSymbol.Basic

/-!
# `ed25519.c`: the arithmetic of the signatures

Field elements are five words, with 51 bits each and what they may carry. Signed words are integers that wrap around.
Byte strings are lists. The functions that overwrite an argument give its new value.
-/

namespace SneppxAlg.Ed25519

open Lib.Bytes Lib.Columns

/-! ## 128-bit words -/

/-- `uint128`. -/
structure UInt128 where
  lo : UInt64
  hi : UInt64
deriving DecidableEq

/-- `add128`. -/
def add128 (a b : UInt128) : UInt128 :=
  let lo := a.lo + b.lo
  ⟨lo, a.hi + b.hi + if lo < a.lo then 1 else 0⟩

/-- `mul64_64`. -/
def mul64 (a b : UInt64) : UInt128 :=
  ⟨UInt64.ofNat (a.toNat * b.toNat), UInt64.ofNat (a.toNat * b.toNat / 2 ^ 64)⟩

/-- `rshift128`. -/
def rshift128 (x : UInt128) (s : UInt64) : UInt128 := ⟨x.lo >>> s ||| x.hi <<< (64 - s), x.hi >>> s⟩

/-- `mask51`. -/
def mask51 (x : UInt64) : UInt64 := x &&& 0x7ffffffffffff

/-! ## Field elements -/

/-- `field`. -/
abbrev Fe : Type := Vector UInt64 5

/-- `D`. -/
def d : Fe := #v[0x00034DCA135978A3, 0x0001A8283B156EBD, 0x0005E7A26001C029, 0x000739C663A03CBB, 0x00052036CEE2B6FF]

/-- `D2`. -/
def d2 : Fe := #v[0x00069B9426B2F159, 0x00035050762ADD7A, 0x0003CF44C0038052, 0x0006738CC7407977, 0x0002406D9DC56DFF]

/-- `SQRTM1`. -/
def sqrtm1 : Fe := #v[0x61b274a0ea0b0, 0xd5a5fc8f189d, 0x7ef5e9cbd0c60, 0x78595a6804c9e, 0x2b8324804fc1d]

/-- The element `0`. -/
def feZero : Fe := #v[0, 0, 0, 0, 0]

/-- The element `1`. -/
def feOne : Fe := #v[1, 0, 0, 0, 0]

/-- `fe_add`. -/
def feAdd (a b : Fe) : Fe := Vector.ofFn fun i => a[i] + b[i]

/-- A signed word of 64 bits. -/
def int64 (x : ℤ) : ℤ := Int.bmod x (2 ^ 64)

/-- Limb `i` borrows from limb `j`, which gives `amount`. -/
def borrow (t : Vector ℤ 5) (i j : Fin 5) (amount : ℤ) : Vector ℤ 5 :=
  if t[i] < 0 then
    let t := t.set i (int64 (t[i] + 0x8000000000000))
    t.set j (int64 (t[j] - amount))
  else t

/-- A pass of `fe_sub`. -/
def borrowPass (t : Vector ℤ 5) : Vector ℤ 5 :=
  let t := borrow t 0 1 1
  let t := borrow t 1 2 1
  let t := borrow t 2 3 1
  let t := borrow t 3 4 1
  borrow t 4 0 19

/-- `fe_sub`. -/
def feSub (a b : Fe) : Fe :=
  let t := Vector.ofFn fun i : Fin 5 => int64 (int64 a[i].toNat - int64 b[i].toNat)
  let t := (List.range 3).foldl (fun t _ => borrowPass t) t
  t.map UInt64.ofInt

/-- The products of limbs, by column. -/
def mulColumns (a b : Fe) : Vector UInt128 9 :=
  (pairs 5 5).foldl (fun t p => addAt add128 t (p.1.val + p.2.val) (mul64 a[p.1] b[p.2])) (Vector.replicate 9 ⟨0, 0⟩)

/-- Column `j + 5`, which is worth 19 times column `j`, goes into the columns `j` and `j + 1`. -/
def foldColumn (t : Vector UInt128 9) (j : Fin 4) : Vector UInt128 9 :=
  let low51 := t[j.val + 5].lo &&& 0x7ffffffffffff
  let high := rshift128 t[j.val + 5] 51
  let t := t.set j.val (add128 t[j.val] (mul64 19 low51))
  t.set (j.val + 1) (add128 t[j.val + 1] (mul64 19 high.lo))

/-- Limb `i` keeps 51 bits, and what it carries goes into the limb behind. -/
def carryInto (t : Vector UInt128 9) (i : Fin 4) : Vector UInt128 9 :=
  let carry := rshift128 t[i.val] 51
  let t := t.set i.val ⟨mask51 t[i.val].lo, 0⟩
  t.set (i.val + 1) (add128 t[i.val + 1] carry)

/-- What the last limb carries goes into the first, 19 times. -/
def carryTop (t : Vector UInt128 9) : Vector UInt128 9 :=
  let carry := rshift128 t[4] 51
  let t := t.set 4 ⟨mask51 t[4].lo, 0⟩
  if carry.lo ≠ 0 ∨ carry.hi ≠ 0 then
    let t := t.set 0 (add128 t[0] (mul64 19 carry.lo))
    t.set 0 (add128 t[0] (mul64 19 carry.hi))
  else t

theorem neZero_four : NeZero 4 := ⟨by decide⟩

attribute [local instance] neZero_four

def carryRound (t : Vector UInt128 9) : Vector UInt128 9 :=
  carryTop (carryInto (carryInto (carryInto (carryInto t 0) 1) 2) 3)

/-- `fe_mul`. -/
def feMul (a b : Fe) : Fe :=
  let t := mulColumns a b
  let t := [3, 2, 1, 0].foldl foldColumn t
  let t := (List.range 2).foldl (fun t _ => carryRound t) t
  Vector.ofFn fun i : Fin 5 => t[i.val].lo

/-- `fe_sq`. -/
def feSq (a : Fe) : Fe := feMul a a

/-- `fe_neg`. -/
def feNeg (a : Fe) : Fe := feSub feZero a

/-! ## Bytes -/

/-- `fe_from_bytes`. -/
def feFromBytes (bytes : List UInt8) : Fe :=
  let b := fun i => (bytes.getD i 0).toUInt64
  #v[b 0 ||| b 1 <<< 8 ||| b 2 <<< 16 ||| b 3 <<< 24 ||| b 4 <<< 32 ||| b 5 <<< 40 ||| (b 6 &&& 7) <<< 48,
    b 6 >>> 3 ||| b 7 <<< 5 ||| b 8 <<< 13 ||| b 9 <<< 21 ||| b 10 <<< 29 ||| b 11 <<< 37 |||
      (b 12 &&& 0x3F) <<< 45,
    b 12 >>> 6 ||| b 13 <<< 2 ||| b 14 <<< 10 ||| b 15 <<< 18 ||| b 16 <<< 26 ||| b 17 <<< 34 ||| b 18 <<< 42 |||
      (b 19 &&& 1) <<< 50,
    (b 19 >>> 1 &&& (0x7F : UInt64)) ||| b 20 <<< 7 ||| b 21 <<< 15 ||| b 22 <<< 23 ||| b 23 <<< 31 ||| b 24 <<< 39 |||
      (b 25 &&& 0x0F) <<< 47,
    b 25 >>> 4 ||| b 26 <<< 4 ||| b 27 <<< 12 ||| b 28 <<< 20 ||| b 29 <<< 28 ||| b 30 <<< 36 |||
      (b 31 &&& 0x7F) <<< 44]

/-- What is above 51 bits in the last limb, 19 times into the first. -/
def foldTop (t : Fe) : Fe :=
  let c := (19 : UInt64) * (t[4] >>> 51)
  #v[t[0] + c, t[1], t[2], t[3], mask51 t[4]]

/-- A round of carries of `fe_to_bytes`. -/
def carryLimbs (t : Fe) : Fe :=
  let t1 := t[1] + t[0] >>> 51
  let t2 := t[2] + t1 >>> 51
  let t3 := t[3] + t2 >>> 51
  let t4 := t[4] + t3 >>> 51
  #v[mask51 t[0] + (19 : UInt64) * (t4 >>> 51), mask51 t1, mask51 t2, mask51 t3, mask51 t4]

/-- The subtraction of the prime from the limbs. -/
def subPrime (t : Fe) : Fe :=
  let ge := t[4] == 0x7FFFFFFFFFFFF && t[3] == 0x7FFFFFFFFFFFF && t[2] == 0x7FFFFFFFFFFFF && t[1] == 0x7FFFFFFFFFFFF
  if ge && t[0] ≥ 0x7FFFFFFFFFFED then
    #v[t[0] - 0x7FFFFFFFFFFED, t[1] - 0x7FFFFFFFFFFFF, t[2] - 0x7FFFFFFFFFFFF, t[3] - 0x7FFFFFFFFFFFF,
      t[4] - 0x7FFFFFFFFFFFF]
  else t

def limbBytes (t : Fe) : List UInt8 :=
  [t[0].toUInt8, (t[0] >>> 8).toUInt8, (t[0] >>> 16).toUInt8, (t[0] >>> 24).toUInt8, (t[0] >>> 32).toUInt8,
    (t[0] >>> 40).toUInt8, (t[0] >>> 48).toUInt8 ||| ((t[1] &&& 0x1F) <<< 3).toUInt8,
    (t[1] >>> 5).toUInt8, (t[1] >>> 13).toUInt8, (t[1] >>> 21).toUInt8, (t[1] >>> 29).toUInt8, (t[1] >>> 37).toUInt8,
    (t[1] >>> 45).toUInt8 ||| ((t[2] &&& 3) <<< 6).toUInt8,
    (t[2] >>> 2).toUInt8, (t[2] >>> 10).toUInt8, (t[2] >>> 18).toUInt8, (t[2] >>> 26).toUInt8, (t[2] >>> 34).toUInt8,
    (t[2] >>> 42).toUInt8, (t[2] >>> 50).toUInt8 ||| ((t[3] &&& 0x7F) <<< 1).toUInt8,
    (t[3] >>> 7).toUInt8, (t[3] >>> 15).toUInt8, (t[3] >>> 23).toUInt8, (t[3] >>> 31).toUInt8, (t[3] >>> 39).toUInt8,
    (t[3] >>> 47).toUInt8 ||| ((t[4] &&& 0x0F) <<< 4).toUInt8,
    (t[4] >>> 4).toUInt8, (t[4] >>> 12).toUInt8, (t[4] >>> 20).toUInt8, (t[4] >>> 28).toUInt8, (t[4] >>> 36).toUInt8,
    (t[4] >>> 44).toUInt8]

/-- The bytes of the prime, for the indices `i < n`. -/
def primeBytes (n : ℕ) : List UInt8 :=
  (List.range n).map fun i => if i = 0 then 0xED else if i = 31 then 0x7F else 0xFF

/-- The last step of `fe_to_bytes`. The comparison starts at byte 30. -/
def subPrimeBytes (b : List UInt8) : List UInt8 :=
  if compareHigh (b.take 31).reverse (primeBytes 31).reverse ≠ .lt then (subBytes 0 b (primeBytes 32)).1 else b

/-- `fe_to_bytes`. -/
def feToBytes (r : Fe) : List UInt8 :=
  let t := foldTop r
  let t := (List.range 2).foldl (fun t _ => carryLimbs t) t
  subPrimeBytes (limbBytes (subPrime t))

/-- `SNEPPX_ct_is_zero`. -/
def ctIsZero (data : List UInt8) : Bool := data.foldl (· ||| ·) 0 == 0

/-! ## Points -/

/-- `point`. -/
structure Point where
  x : Fe
  y : Fe
  z : Fe
  t : Fe
deriving DecidableEq

/-- `point_set_neutral`. -/
def neutral : Point := ⟨feZero, feOne, feOne, feZero⟩

/-- `fe_pow22523`. -/
def fePow22523 (a : Fe) : Fe :=
  (List.range 251).reverse.foldl (fun r i =>
    let r := feSq r
    if 2 ≤ i ∨ i = 0 then feMul r a else r) a

/-- `fe_invert`. -/
def feInvert (a : Fe) : Fe :=
  let r := fePow22523 a
  let r := feSq (feSq (feSq r))
  feMul (feMul (feMul r a) a) a

/-- `point_add`. -/
def pointAdd (p q : Point) : Point :=
  let a := feMul (feSub p.y p.x) (feSub q.y q.x)
  let c := feMul (feAdd p.y p.x) (feAdd q.y q.x)
  let e := feMul (feMul p.t q.t) d2
  let f := feMul p.z q.z
  let f := feAdd f f
  let g := feAdd c a
  let h := feSub c a
  let c := feSub f e
  let a := feAdd f e
  ⟨feMul h c, feMul a g, feMul c a, feMul h g⟩

/-- The coordinates of `point_double`. -/
def doubleCoords (p : Point) : Point :=
  let a := feSq (feSub p.y p.x)
  let b := feSq (feAdd p.y p.x)
  let c := feMul (feSq p.t) d2
  let z2 := feSq p.z
  let d := feAdd z2 z2
  let e := feSub b a
  let f := feSub d c
  let g := feAdd d c
  let h := feAdd b a
  ⟨feMul e f, feMul g h, feMul f g, feMul e h⟩

/-- The words of all limbs are masked out, or replaced by `bit`. -/
def maskLimbs (idm : UInt64) (bit : UInt64) (a : Fe) : Fe := a.map fun v => (v &&& ~~~idm) ||| (idm &&& bit)

/-- The identity guard of `point_double`, which looks at `p`. -/
def identityGuard (p r : Point) : Point :=
  let zero := ctIsZero (feToBytes p.x) && ctIsZero (feToBytes (feSub p.y p.z))
  let idm : UInt64 := if zero then 0xffffffffffffffff else 0
  ⟨maskLimbs idm 0 r.x, maskLimbs idm 1 r.y, maskLimbs idm 1 r.z, maskLimbs idm 0 r.t⟩

/-- `point_double`, into another point. -/
def pointDouble (p : Point) : Point := identityGuard p (doubleCoords p)

/-- `point_double(r, r)`: the guard looks at the coordinates that are already written. -/
def pointDoubleInPlace (r : Point) : Point := identityGuard (doubleCoords r) (doubleCoords r)

def selectLimbs (mask : UInt64) (r t : Fe) : Fe := Vector.ofFn fun j => r[j] ^^^ (mask &&& (r[j] ^^^ t[j]))

/-- `point_scalar_mult`. -/
def pointScalarMult (scalar : List UInt8) (base : Point) : Point :=
  (List.range (scalar.length * 8)).reverse.foldl (fun r i =>
    let r := pointDoubleInPlace r
    let bit := scalar.getD (i / 8) 0 >>> UInt8.ofNat (i % 8) &&& 1
    let t := pointAdd r base
    let mask := 0 - bit.toUInt64
    ⟨selectLimbs mask r.x t.x, selectLimbs mask r.y t.y, selectLimbs mask r.z t.z, selectLimbs mask r.t t.t⟩) neutral

/-- `point_normalize`. -/
def pointNormalize (p : Point) : Point :=
  let zinv := feInvert p.z
  let x := feMul p.x zinv
  let y := feMul p.y zinv
  ⟨x, y, feOne, feMul x y⟩

/-- The square root of `init_base_point`, and whether there is one. -/
def baseX (y z : Fe) : Fe × Bool :=
  let u := feSub (feSq y) z
  let v := feAdd (feMul (feSq y) d) z
  let v3 := feMul (feSq v) v
  let x := feMul (feMul (feSq v3) v) u
  let x := fePow22523 x
  let x := feMul (feMul x v3) u
  let vxx := feMul (feSq x) v
  if ctIsZero (feToBytes (feSub vxx u)) then (x, true)
  else if ctIsZero (feToBytes (feAdd vxx u)) then (feMul x sqrtm1, true)
  else (x, false)

/-- `B`, after `init_base_point`. -/
def basePoint : Point :=
  let y : Fe := #v[0x0006666666666658, 0x0004CCCCCCCCCCCC, 0x0001999999999999, 0x0003333333333333, 0x0006666666666666]
  let x := baseX y feOne
  if x.2 then
    let x := if x.1[0] &&& 1 ≠ 0 then feNeg x.1 else x.1
    ⟨x, y, feOne, feMul x y⟩
  else ⟨x.1, y, feOne, feZero⟩

/-- The bytes of a normalised point: `y`, and the lowest bit of `x` in the highest bit. -/
def pointBytes (p : Point) : List UInt8 :=
  (feToBytes p.y).modify 31 (· ||| ((p.x[0] &&& 1) <<< 7).toUInt8)

/-! ## Scalars -/

/-- `L_BYTES`. -/
def lBytes : List UInt8 :=
  [
    0xed, 0xd3, 0xf5, 0x5c, 0x1a, 0x63, 0x12, 0x58,
    0xd6, 0x9c, 0xf7, 0xa2, 0xde, 0xf9, 0xde, 0x14,
    0x00, 0x00, 0x00, 0x00, 0x00, 0x00, 0x00, 0x00,
    0x00, 0x00, 0x00, 0x00, 0x00, 0x00, 0x00, 0x10]

/-- The bytes that `sub_sc_shifted` subtracts. -/
def shiftedL (shift : ℕ) : List UInt8 :=
  (List.range 64).map fun i => if shift ≤ i ∧ i < shift + 32 then lBytes.getD (i - shift) 0 else 0

/-- `sub_sc_shifted`. -/
def subScShifted (t : List UInt8) (shift : ℕ) : List UInt8 × UInt16 := subBytes 0 t (shiftedL shift)

/-- The number of bytes up to the highest one that is not `0`: `hi + 1`. -/
def topBytes (t : List UInt8) : ℕ → ℕ
  | 0 => 0
  | n + 1 => if t.getD n 0 = 0 then topBytes t n else n + 1

/-- The comparison of `sc_reduce64`, for `hi = top - 1`. -/
def geShifted (top k : ℕ) (t : List UInt8) : Bool :=
  ((t.take top).drop (k + 32)).any (· ≠ 0) ||
    compareHigh ((t.drop k).take 32).reverse lBytes.reverse ≠ .lt

theorem length_shiftedL (shift : ℕ) : (shiftedL shift).length = 64 := by simp [shiftedL]

theorem length_subScShifted {t : List UInt8} (ht : t.length = 64) (shift : ℕ) :
    (subScShifted t shift).1.length = 64 := by
  rw [subScShifted, length_subBytes (by rw [ht, length_shiftedL]), ht]

/-- `L`, up to byte 31. -/
theorem leVal_shiftedL {k : ℕ} (hk : k ≤ 32) : leVal (shiftedL k) = 256 ^ k * leVal lBytes := by
  interval_cases k <;> decide

/-- The loop of `sc_reduce64` for one `k`. -/
def reduceAt (top k : ℕ) (hk : k ≤ 32) (t : List UInt8) (ht : t.length = 64) : {t : List UInt8 // t.length = 64} :=
  if geShifted top k t then
    if _hborrow : (subScShifted t k).2 = 0 then
      reduceAt top k hk (subScShifted t k).1 (length_subScShifted ht k)
    else ⟨(subScShifted t k).1, length_subScShifted ht k⟩
  else ⟨t, ht⟩
termination_by leVal t
decreasing_by
  have hlen : t.length = (shiftedL k).length := by rw [ht, length_shiftedL]
  have hle := (subBytes_borrow_eq_zero hlen).mp _hborrow
  have hpos : 0 < leVal (shiftedL k) := by
    rw [leVal_shiftedL hk]
    exact Nat.mul_pos (by positivity) (by decide)
  rw [subScShifted, leVal_subBytes_of_le hlen hle]
  omega

/-- The loop of `sc_reduce64`, from `k = n - 1` down to `0`. -/
def reduceDown (top : ℕ) : (n : ℕ) → n ≤ 33 → {t : List UInt8 // t.length = 64} → {t : List UInt8 // t.length = 64}
  | 0, _, t => t
  | n + 1, hn, t => reduceDown top n (Nat.le_of_succ_le hn) (reduceAt top n (Nat.le_of_succ_le_succ hn) t.1 t.2)

/-- The last subtractions of `sc_reduce64`. -/
def finalSub : ℕ → List UInt8 → List UInt8
  | 0, t => t
  | n + 1, t =>
    if compareHigh (t.take 32).reverse lBytes.reverse = .lt then t else finalSub n (subScShifted t 0).1

theorem topBytes_le (t : List UInt8) (n : ℕ) : topBytes t n ≤ n := by
  induction n with
  | zero => exact Nat.le_refl 0
  | succ n ih =>
    rw [topBytes]
    split_ifs
    · exact ih.trans (Nat.le_succ n)
    · exact Nat.le_refl _

/-- `sc_reduce64`. -/
def scReduce64 (a : List UInt8) (ha : a.length = 64) : List UInt8 :=
  let top := topBytes a 64
  if top = 0 then List.replicate 32 0
  else
    have htop : top - 31 ≤ 33 := by
      have := topBytes_le a 64
      omega
    (finalSub 4 (reduceDown top (top - 31) htop ⟨a, ha⟩).1).take 32

/-- `sc_mul256`. -/
def scMul256 (a b : List UInt8) : List UInt8 :=
  let t := (pairs 32 32).foldl (fun t p =>
    addAt (· + ·) t (p.1.val + p.2.val) ((a.getD p.1 0).toUInt32 * (b.getD p.2 0).toUInt32)) (Vector.replicate 64 0)
  carryBytes 0 t.toList

theorem length_scMul256 (a b : List UInt8) : (scMul256 a b).length = 64 := by
  rw [scMul256, length_carryBytes, Vector.length_toList]

/-! ## Signing -/

/-- `SNEPPXEd25519Keypair`. -/
structure Keypair where
  publicKey : Vector UInt8 32
  privateKey : Vector UInt8 64

/-- `sum`: the product and the nonce. -/
def scMulAdd (hScalar privateKey rScalar : List UInt8) : List UInt8 := addBytes 0 (scMul256 hScalar privateKey) rScalar

theorem length_scMulAdd (hScalar privateKey rScalar : List UInt8) :
    (scMulAdd hScalar privateKey rScalar).length = 64 := by
  rw [scMulAdd, length_addBytes, length_scMul256]

/-- `SNEPPX_ed25519_sign`, on pointers that are not `NULL`. -/
def signature (kp : Keypair) (message : List UInt8) : List UInt8 :=
  let rSeed := Sha512.sha512 [kp.privateKey.toList.drop 32, message]
  let rScalar := scReduce64 rSeed (Sha512.length_sha512 _)
  let rPoint := pointNormalize (pointScalarMult rScalar basePoint)
  let data := pointBytes rPoint
  let hram := Sha512.sha512 [data, kp.publicKey.toList, message]
  let hScalar := scReduce64 hram (Sha512.length_sha512 _)
  data ++ scReduce64 (scMulAdd hScalar (kp.privateKey.toList.take 32) rScalar) (length_scMulAdd _ _ _)

/-- `SNEPPX_ed25519_sign`, `none` for the status -1. -/
def sign (kp : Option Keypair) (message : Option (List UInt8)) (hasSig : Bool) : Option (List UInt8) :=
  match kp, message, hasSig with
  | some kp, some message, true => some (signature kp message)
  | _, _, _ => none

end SneppxAlg.Ed25519

/-!
# The field operations of `ed25519.c`

The results of `fe_mul` and of `fe_sub` on such elements are tight: limbs of 51 bits, but for 19 more in the first.
Sums of up to four tight elements may be multiplied, and a tight element may be subtracted from them. Inside of these
bounds no word wraps around: the words are, step by step, those of the same operations on numbers without a limit, and
each operation is an equation between numbers, up to a multiple of the prime that the statement gives.
-/

namespace SneppxAlg.Ed25519

open Lib.Bytes Lib.Columns

/-- The prime. -/
def p : ℕ := 2 ^ 255 - 19

theorem p_add : p + 19 = 2 ^ 255 := by decide

/-! ## 128-bit words -/

/-- The number in two words. -/
def UInt128.toNat (x : UInt128) : ℕ := x.lo.toNat + 2 ^ 64 * x.hi.toNat

theorem UInt128.lo_toNat_of_lt {x : UInt128} (h : x.toNat < 2 ^ 64) : x.lo.toNat = x.toNat := by
  rw [UInt128.toNat] at *
  omega

theorem UInt128.hi_of_lt {x : UInt128} (h : x.toNat < 2 ^ 64) : x.hi = 0 := by
  rw [UInt128.toNat] at h
  apply UInt64.toNat_inj.mp
  rw [show (0 : UInt64).toNat = 0 from rfl]
  omega

theorem add128_toNat {x y : UInt128} (h : x.toNat + y.toNat < 2 ^ 128) :
    (add128 x y).toNat = x.toNat + y.toNat := by
  have hxl := x.lo.toNat_lt
  have hyl := y.lo.toNat_lt
  rw [UInt128.toNat, UInt128.toNat] at h
  simp only [add128, UInt128.toNat, UInt64.toNat_add, UInt64.lt_iff_toNat_lt]
  split_ifs with hc
  · rw [show (1 : UInt64).toNat = 1 from rfl]
    omega
  · rw [show (0 : UInt64).toNat = 0 from rfl]
    omega

theorem mul64_toNat (a b : UInt64) : (mul64 a b).toNat = a.toNat * b.toNat := by
  have hlt : a.toNat * b.toNat < 2 ^ 64 * 2 ^ 64 := Nat.mul_lt_mul'' a.toNat_lt b.toNat_lt
  simp only [mul64, UInt128.toNat, UInt64.toNat_ofNat']
  generalize a.toNat * b.toNat = n at hlt
  omega

theorem rshift128_toNat (x : UInt128) : (rshift128 x 51).toNat = x.toNat / 2 ^ 51 := by
  have hlo := x.lo.toNat_lt
  have hhi := x.hi.toNat_lt
  have h13 : (x.hi <<< (64 - 51)).toNat = x.hi.toNat % 2 ^ 51 * 2 ^ 13 := by
    rw [UInt64.toNat_shiftLeft, show (64 - 51 : UInt64).toNat % 64 = 13 from rfl, Nat.shiftLeft_eq]
    omega
  have hor : (x.lo >>> 51 ||| x.hi <<< (64 - 51)).toNat = x.lo.toNat / 2 ^ 51 + x.hi.toNat % 2 ^ 51 * 2 ^ 13 := by
    have h := or_shiftLeft_eq_add (a := x.lo.toNat / 2 ^ 51) (b := x.hi.toNat % 2 ^ 51) (k := 13) (by omega)
    rw [Nat.shiftLeft_eq] at h
    rw [UInt64.toNat_or, toNat_shiftRight_lt x.lo 51 (by decide), h13]
    exact h
  simp only [rshift128, UInt128.toNat]
  rw [hor, toNat_shiftRight_lt x.hi 51 (by decide), show (51 : UInt64).toNat = 51 from rfl]
  omega

theorem mask51_toNat (x : UInt64) : (mask51 x).toNat = x.toNat % 2 ^ 51 :=
  toNat_and_mask x _ 51 (by decide)

theorem mask_lo_toNat (x : UInt128) : (mask51 x.lo).toNat = x.toNat % 2 ^ 51 := by
  rw [mask51_toNat, UInt128.toNat]
  omega

/-! ## Elements -/

/-- The number of five limbs. -/
def Fe.val (a : Fe) : ℕ := value (2 ^ 51) UInt64.toNat a

theorem Fe.val_eq (a : Fe) :
    Fe.val a = a[0].toNat + 2 ^ 51 * a[1].toNat + 2 ^ 102 * a[2].toNat + 2 ^ 153 * a[3].toNat +
      2 ^ 204 * a[4].toNat := by
  rw [Fe.val, value, Fin.sum_univ_five]
  simp only [Fin.getElem_fin, Fin.val_zero, Fin.val_one, Fin.val_two, show ((3 : Fin 5) : ℕ) = 3 from rfl,
    show ((4 : Fin 5) : ℕ) = 4 from rfl]
  ring

/-- All limbs are below `m`. -/
structure Fe.Below (m : ℕ) (a : Fe) : Prop where
  l0 : a[0].toNat < m
  l1 : a[1].toNat < m
  l2 : a[2].toNat < m
  l3 : a[3].toNat < m
  l4 : a[4].toNat < m

/-- What the operations leave. -/
structure Fe.Tight (a : Fe) : Prop where
  l0 : a[0].toNat < 2 ^ 51 + 19
  l1 : a[1].toNat < 2 ^ 51
  l2 : a[2].toNat < 2 ^ 51
  l3 : a[3].toNat < 2 ^ 51
  l4 : a[4].toNat < 2 ^ 51

theorem Fe.Below.mono {a : Fe} {m n : ℕ} (h : Fe.Below m a) (hmn : m ≤ n) : Fe.Below n a :=
  ⟨h.l0.trans_le hmn, h.l1.trans_le hmn, h.l2.trans_le hmn, h.l3.trans_le hmn, h.l4.trans_le hmn⟩

theorem Fe.Tight.below {a : Fe} (h : Fe.Tight a) : Fe.Below (2 ^ 51 + 19) a :=
  ⟨h.l0, h.l1.trans (by decide), h.l2.trans (by decide), h.l3.trans (by decide), h.l4.trans (by decide)⟩

theorem Fe.Below.lt {a : Fe} {m : ℕ} (h : Fe.Below m a) (i : Fin 5) : a[i].toNat < m := by
  fin_cases i
  exacts [h.l0, h.l1, h.l2, h.l3, h.l4]

/-! ## Sums -/

theorem feAdd_exact {a b : Fe} {m n : ℕ} (ha : Fe.Below m a) (hb : Fe.Below n b) (hmn : m + n ≤ 2 ^ 64) (i : Fin 5) :
    (feAdd a b)[i].toNat = a[i].toNat + b[i].toNat := by
  rw [feAdd, Fin.getElem_fin, Vector.getElem_ofFn]
  exact toNat_add_lt ((Nat.add_lt_add (ha.lt i) (hb.lt i)).trans_le hmn)

theorem feAdd_spec {a b : Fe} {m n : ℕ} (ha : Fe.Below m a) (hb : Fe.Below n b) (hmn : m + n ≤ 2 ^ 64) :
    Fe.Below (m + n) (feAdd a b) ∧ Fe.val (feAdd a b) = Fe.val a + Fe.val b := by
  have hlimb := feAdd_exact ha hb hmn
  have hlt (i : Fin 5) : (feAdd a b)[i].toNat < m + n := (hlimb i).trans_lt (Nat.add_lt_add (ha.lt i) (hb.lt i))
  refine ⟨⟨hlt 0, hlt 1, hlt 2, hlt 3, hlt 4⟩, ?_⟩
  rw [Fe.val, Fe.val, Fe.val, value, value, value, ← Finset.sum_add_distrib]
  refine Finset.sum_congr rfl fun i _ => ?_
  rw [hlimb i, Nat.add_mul]

/-! ## Differences -/

/-- `borrow`, with integers. -/
def exactBorrow (t : Vector ℤ 5) (i j : Fin 5) (amount : ℤ) : Vector ℤ 5 :=
  if t[i] < 0 then
    let t := t.set i (t[i] + 2 ^ 51)
    t.set j (t[j] - amount)
  else t

/-- `borrowPass`, with integers. -/
def exactPass (t : Vector ℤ 5) : Vector ℤ 5 :=
  let t := exactBorrow t 0 1 1
  let t := exactBorrow t 1 2 1
  let t := exactBorrow t 2 3 1
  let t := exactBorrow t 3 4 1
  exactBorrow t 4 0 19

/-- `feSub`, with integers. -/
def exactSub (a b : Fe) : Vector ℤ 5 :=
  let t := Vector.ofFn fun i : Fin 5 => (a[i].toNat : ℤ) - b[i].toNat
  (List.range 3).foldl (fun t _ => exactPass t) t

/-- Whether a limb borrows. -/
def borrows (x : ℤ) : ℤ := if x < 0 then 1 else 0

theorem borrows_range (x : ℤ) : 0 ≤ borrows x ∧ borrows x ≤ 1 := by
  rw [borrows]
  split_ifs <;> decide

theorem exactBorrow_eq (t : Vector ℤ 5) {i j : Fin 5} (hij : i ≠ j) (amount : ℤ) :
    exactBorrow t i j amount = (t.set i (t[i] + 2 ^ 51 * borrows t[i])).set j (t[j] - amount * borrows t[i]) := by
  have hval : i.val ≠ j.val := fun h => hij (Fin.ext h)
  rw [exactBorrow, borrows]
  split_ifs
  · have hset : (t.set i (t[i] + 2 ^ 51))[j] = t[j] := Vector.getElem_set_ne _ _ hval
    simp only [hset, mul_one]
  · simp

/-- A pass: each limb borrows from the limb behind, and the last one from the first, where `2 ^ 255` is 19. -/
theorem exactPass_eq (t : Vector ℤ 5) :
    ∃ b0 b1 b2 b3 b4 : ℤ, b0 = borrows t[0] ∧ b1 = borrows (t[1] - b0) ∧ b2 = borrows (t[2] - b1) ∧
      b3 = borrows (t[3] - b2) ∧ b4 = borrows (t[4] - b3) ∧
      exactPass t = #v[t[0] + 2 ^ 51 * b0 - 19 * b4, t[1] - b0 + 2 ^ 51 * b1, t[2] - b1 + 2 ^ 51 * b2,
        t[3] - b2 + 2 ^ 51 * b3, t[4] - b3 + 2 ^ 51 * b4] := by
  refine ⟨_, _, _, _, _, rfl, rfl, rfl, rfl, rfl, ?_⟩
  rw [exactPass, exactBorrow_eq _ (by decide), exactBorrow_eq _ (by decide), exactBorrow_eq _ (by decide),
    exactBorrow_eq _ (by decide), exactBorrow_eq _ (by decide)]
  apply Vector.ext
  intro i hi
  interval_cases i <;> simp

theorem foldl_range_three {α : Type*} (f : α → α) (x : α) : (List.range 3).foldl (fun x _ => f x) x = f (f (f x)) := rfl

theorem exactPass_of_nonneg {t : Vector ℤ 5} (ht : ∀ i : Fin 5, 0 ≤ t[i]) : exactPass t = t := by
  have hstay (i j : Fin 5) (amount : ℤ) : exactBorrow t i j amount = t := if_neg (not_lt.mpr (ht i))
  rw [exactPass, hstay, hstay, hstay, hstay, hstay]

/-- A limb behind the passes: not negative, and no larger than before unless it is one of 51 bits. -/
def Settled (x y : ℤ) : Prop := 0 ≤ y ∧ (y ≤ x ∨ y < 2 ^ 51)

theorem Settled.trans {x y z : ℤ} (hy : Settled x y) (hz : Settled y z) : Settled x z := by
  rw [Settled] at *
  omega

/-- A limb that borrows, and may have given 1. -/
theorem settled_borrow {x b : ℤ} (hx : -2 ^ 51 < x) (hb : 0 ≤ b ∧ b ≤ 1) :
    Settled x (x - b + 2 ^ 51 * borrows (x - b)) := by
  rw [Settled, borrows]
  split_ifs <;> omega

/-- The number of signed limbs. -/
def limbSum (t : Vector ℤ 5) : ℤ := t[0] + 2 ^ 51 * t[1] + 2 ^ 102 * t[2] + 2 ^ 153 * t[3] + 2 ^ 204 * t[4]

theorem p_cast : (p : ℤ) = 2 ^ 255 - 19 := by
  have h := p_add
  omega

/-- A pass over limbs above `-2 ^ 51`: only the first may be negative behind it, as far as it was lower or the last one
borrows from it, and the number has changed by the prime if so. -/
theorem exactPass_spec {t : Vector ℤ 5} (ht : ∀ i : Fin 5, i ≠ 0 → -2 ^ 51 < t[i]) :
    ∃ b : ℤ, 0 ≤ b ∧ b ≤ 1 ∧ limbSum (exactPass t) = limbSum t + b * p ∧
      (exactPass t)[(0 : Fin 5)] = t[(0 : Fin 5)] + 2 ^ 51 * borrows t[(0 : Fin 5)] - 19 * b ∧
      ∀ i : Fin 5, i ≠ 0 → Settled t[i] (exactPass t)[i] := by
  obtain ⟨b0, b1, b2, b3, b4, hb0, hb1, hb2, hb3, hb4, heq⟩ := exactPass_eq t
  have r0 : 0 ≤ b0 ∧ b0 ≤ 1 := hb0 ▸ borrows_range _
  have r1 : 0 ≤ b1 ∧ b1 ≤ 1 := hb1 ▸ borrows_range _
  have r2 : 0 ≤ b2 ∧ b2 ≤ 1 := hb2 ▸ borrows_range _
  have r3 : 0 ≤ b3 ∧ b3 ≤ 1 := hb3 ▸ borrows_range _
  have r4 : 0 ≤ b4 ∧ b4 ≤ 1 := hb4 ▸ borrows_range _
  have l1 := settled_borrow (ht 1 (by decide)) r0
  have l2 := settled_borrow (ht 2 (by decide)) r1
  have l3 := settled_borrow (ht 3 (by decide)) r2
  have l4 := settled_borrow (ht 4 (by decide)) r3
  rw [heq]
  refine ⟨b4, r4.1, r4.2, ?_, by rw [hb0]; rfl, fun i hi => ?_⟩
  · rw [p_cast]
    show t[0] + 2 ^ 51 * b0 - 19 * b4 + 2 ^ 51 * (t[1] - b0 + 2 ^ 51 * b1) + 2 ^ 102 * (t[2] - b1 + 2 ^ 51 * b2) +
      2 ^ 153 * (t[3] - b2 + 2 ^ 51 * b3) + 2 ^ 204 * (t[4] - b3 + 2 ^ 51 * b4) = _
    rw [limbSum]
    ring
  · rw [hb1, hb2, hb3, hb4] at *
    fin_cases i
    exacts [absurd rfl hi, l1, l2, l3, l4]

theorem first_limb {x b y : ℤ} (hx : -(2 ^ 51 + 19) < x) (hb : 0 ≤ b ∧ b ≤ 1)
    (hy : y = x + 2 ^ 51 * borrows x - 19 * b) : -40 < y ∧ (y ≤ x ∨ y < 2 ^ 51) := by
  rw [borrows] at hy
  split_ifs at hy <;> omega

/-- The first limb behind a pass that it was negative before. -/
theorem first_limb_of_neg {x b y : ℤ} (hx : -40 < x) (hneg : x < 0) (hb : 0 ≤ b ∧ b ≤ 1)
    (hy : y = x + 2 ^ 51 * borrows x - 19 * b) : 0 ≤ y ∧ y < 2 ^ 51 := by
  rw [borrows, if_pos hneg] at hy
  omega

/-- Three passes leave no negative limb, and the number has changed by up to twice the prime. -/
theorem exactPasses_spec {t : Vector ℤ 5} (h0 : -(2 ^ 51 + 19) < t[(0 : Fin 5)])
    (ht : ∀ i : Fin 5, i ≠ 0 → -2 ^ 51 < t[i]) :
    (∃ n : ℤ, 0 ≤ n ∧ n ≤ 2 ∧ limbSum (exactPass (exactPass (exactPass t))) = limbSum t + n * p) ∧
      ∀ i : Fin 5, Settled t[i] (exactPass (exactPass (exactPass t)))[i] := by
  obtain ⟨b, hb, hb', hsum, hfirst, hrest⟩ := exactPass_spec ht
  obtain ⟨hlow, hle⟩ := first_limb h0 ⟨hb, hb'⟩ hfirst
  rcases lt_or_ge (exactPass t)[(0 : Fin 5)] 0 with hneg | hnonneg
  · obtain ⟨c, hc, hc', hsum', hfirst', hrest'⟩ := exactPass_spec (t := exactPass t)
      fun i hi => lt_of_lt_of_le (by norm_num) (hrest i hi).1
    obtain ⟨hpos, hlt⟩ := first_limb_of_neg hlow hneg ⟨hc, hc'⟩ hfirst'
    have hall (i : Fin 5) : Settled t[i] (exactPass (exactPass t))[i] := by
      rcases eq_or_ne i 0 with rfl | hi
      · exact ⟨hpos, .inr hlt⟩
      · exact (hrest i hi).trans (hrest' i hi)
    rw [exactPass_of_nonneg fun i => (hall i).1]
    refine ⟨⟨b + c, add_nonneg hb hc, add_le_add hb' hc', ?_⟩, hall⟩
    rw [hsum', hsum]
    ring
  · have hall (i : Fin 5) : Settled t[i] (exactPass t)[i] := by
      rcases eq_or_ne i 0 with rfl | hi
      · exact ⟨hnonneg, hle⟩
      · exact hrest i hi
    have hstay : exactPass (exactPass t) = exactPass t := exactPass_of_nonneg fun i => (hall i).1
    rw [hstay, hstay]
    exact ⟨⟨b, hb, hb'.trans (by norm_num), hsum⟩, hall⟩

/-- A tight element is subtracted. -/
theorem exactSub_spec (a : Fe) {b : Fe} (hb : Fe.Tight b) :
    (∃ n : ℤ, 0 ≤ n ∧ n ≤ 2 ∧ limbSum (exactSub a b) = (Fe.val a : ℤ) - Fe.val b + n * p) ∧
      ∀ i : Fin 5, Settled a[i].toNat (exactSub a b)[i] := by
  have hstart (i : Fin 5) : (Vector.ofFn fun i : Fin 5 => (a[i].toNat : ℤ) - b[i].toNat)[i] =
      (a[i].toNat : ℤ) - b[i].toNat := Vector.getElem_ofFn _
  obtain ⟨⟨n, hn, hn', hsum⟩, hall⟩ := exactPasses_spec
    (t := Vector.ofFn fun i : Fin 5 => (a[i].toNat : ℤ) - b[i].toNat)
    (by
      have h := hb.l0
      rw [hstart]
      simp only [Fin.getElem_fin, Fin.val_zero]
      omega)
    (by
      intro i hi
      rw [hstart]
      have h : b[i].toNat < 2 ^ 51 := by
        obtain ⟨-, h1, h2, h3, h4⟩ := hb
        fin_cases i
        exacts [absurd rfl hi, h1, h2, h3, h4]
      omega)
  refine ⟨⟨n, hn, hn', ?_⟩, fun i => ?_⟩
  · rw [exactSub, foldl_range_three exactPass, hsum, limbSum, Fe.val_eq, Fe.val_eq]
    push_cast
    simp only [Vector.getElem_ofFn, Fin.getElem_fin]
    ring
  · have h := hall i
    rw [hstart, Settled] at h
    rw [exactSub, foldl_range_three exactPass, Settled]
    omega

/-- All limbs are between `-m` and `m`. -/
def Within (m : ℤ) (t : Vector ℤ 5) : Prop := ∀ k : Fin 5, -m ≤ t[k] ∧ t[k] ≤ m

theorem int64_of_range {x : ℤ} (h1 : -2 ^ 63 ≤ x) (h2 : x < 2 ^ 63) : int64 x = x :=
  Int.bmod_eq_of_le (by omega) (by omega)

theorem borrow_exact {t : Vector ℤ 5} {m : ℤ} (ht : Within m t) (hm : m ≤ 2 ^ 62) (i j : Fin 5) {amount : ℤ}
    (ham : 0 ≤ amount ∧ amount ≤ 2 ^ 51) :
    borrow t i j amount = exactBorrow t i j amount ∧ Within (m + 2 ^ 51) (exactBorrow t i j amount) := by
  have hi := ht i
  have hset (k : Fin 5) : -(m + 2 ^ 51) ≤ (t.set i (t[i] + 2 ^ 51))[k] - amount ∧
      (t.set i (t[i] + 2 ^ 51))[k] ≤ m + 2 ^ 51 ∨ t[i] ≥ 0 := by
    have hk := ht k
    simp only [Fin.getElem_fin] at hi hk ⊢
    rw [Vector.getElem_set]
    split_ifs <;> omega
  rw [borrow, exactBorrow]
  split_ifs with hneg
  · have hj := (hset j).resolve_right (not_le.mpr hneg)
    have hword : int64 (t[i] + 0x8000000000000) = t[i] + 2 ^ 51 := int64_of_range (by omega) (by omega)
    dsimp only
    rw [hword, int64_of_range (by omega) (by omega)]
    refine ⟨rfl, fun k => ?_⟩
    have hk := (hset k).resolve_right (not_le.mpr hneg)
    simp only [Fin.getElem_fin] at hj hk ⊢
    rw [Vector.getElem_set]
    split_ifs <;> omega
  · refine ⟨rfl, fun k => ?_⟩
    have hk := ht k
    omega

theorem borrowPass_exact {t : Vector ℤ 5} {m : ℤ} (ht : Within m t) (hm : m ≤ 2 ^ 61) :
    borrowPass t = exactPass t ∧ Within (m + 5 * 2 ^ 51) (exactPass t) := by
  obtain ⟨e0, h0⟩ := borrow_exact ht (by omega) 0 1 (show 0 ≤ (1 : ℤ) ∧ (1 : ℤ) ≤ 2 ^ 51 by decide)
  obtain ⟨e1, h1⟩ := borrow_exact h0 (by omega) 1 2 (show 0 ≤ (1 : ℤ) ∧ (1 : ℤ) ≤ 2 ^ 51 by decide)
  obtain ⟨e2, h2⟩ := borrow_exact h1 (by omega) 2 3 (show 0 ≤ (1 : ℤ) ∧ (1 : ℤ) ≤ 2 ^ 51 by decide)
  obtain ⟨e3, h3⟩ := borrow_exact h2 (by omega) 3 4 (show 0 ≤ (1 : ℤ) ∧ (1 : ℤ) ≤ 2 ^ 51 by decide)
  obtain ⟨e4, h4⟩ := borrow_exact h3 (by omega) 4 0 (show 0 ≤ (19 : ℤ) ∧ (19 : ℤ) ≤ 2 ^ 51 by decide)
  refine ⟨?_, fun k => ?_⟩
  · rw [borrowPass, exactPass, e0, e1, e2, e3, e4]
  · have hk := h4 k
    rw [exactPass]
    omega

theorem toNat_ofInt {x : ℤ} (h0 : 0 ≤ x) (h1 : x < 2 ^ 64) : ((UInt64.ofInt x).toNat : ℤ) = x := by
  rw [UInt64.ofInt, UInt64.toNat_ofNat']
  omega

theorem int64_sub {m n : ℕ} (hm : m < 2 ^ 60) (hn : n < 2 ^ 51 + 19) : int64 (int64 m - int64 n) = (m : ℤ) - n := by
  rw [int64_of_range (x := m) (by omega) (by omega), int64_of_range (x := n) (by omega) (by omega),
    int64_of_range (by omega) (by omega)]

/-- The limbs of a difference. -/
theorem feSub_exact {a b : Fe} (ha : Fe.Below (2 ^ 60) a) (hb : Fe.Tight b) (i : Fin 5) :
    ((feSub a b)[i].toNat : ℤ) = (exactSub a b)[i] := by
  have hwords : (Vector.ofFn fun k : Fin 5 => int64 (int64 a[k].toNat - int64 b[k].toNat)) =
      Vector.ofFn fun k : Fin 5 => (a[k].toNat : ℤ) - b[k].toNat :=
    congrArg _ (funext fun k => int64_sub (ha.lt k) (hb.below.lt k))
  have hstart : Within (2 ^ 60) (Vector.ofFn fun k : Fin 5 => (a[k].toNat : ℤ) - b[k].toNat) := by
    intro k
    have h1 := ha.lt k
    have h2 := hb.below.lt k
    rw [Fin.getElem_fin, Vector.getElem_ofFn]
    simp only [Fin.getElem_fin] at h1 h2 ⊢
    omega
  obtain ⟨e0, h0⟩ := borrowPass_exact hstart (by norm_num)
  obtain ⟨e1, h1⟩ := borrowPass_exact h0 (by norm_num)
  obtain ⟨e2, -⟩ := borrowPass_exact h1 (by norm_num)
  have hpasses : feSub a b = (exactSub a b).map UInt64.ofInt := by
    rw [feSub, exactSub, foldl_range_three borrowPass, foldl_range_three exactPass, hwords, e0, e1, e2]
  obtain ⟨hpos, hle⟩ := (exactSub_spec a hb).2 i
  have hlt := ha.lt i
  rw [hpasses, Fin.getElem_fin, Vector.getElem_map]
  exact toNat_ofInt hpos (by simp only [Fin.getElem_fin] at hle hlt ⊢; omega)

/-- **Differences.** A tight element is subtracted. -/
theorem feSub_spec {a b : Fe} (ha : Fe.Below (2 ^ 60) a) (hb : Fe.Tight b) :
    (∃ n ≤ 2, Fe.val (feSub a b) + Fe.val b = Fe.val a + n * p) ∧
      ∀ i : Fin 5, (feSub a b)[i].toNat ≤ a[i].toNat ∨ (feSub a b)[i].toNat < 2 ^ 51 := by
  obtain ⟨⟨n, hn, hn', hsum⟩, hall⟩ := exactSub_spec a hb
  have hlimb := feSub_exact ha hb
  constructor
  · have hval : (Fe.val (feSub a b) : ℤ) = limbSum (exactSub a b) := by
      rw [Fe.val_eq, limbSum]
      push_cast
      exact congrArg₂ _ (congrArg₂ _ (congrArg₂ _ (congrArg₂ _ (hlimb 0) (congrArg _ (hlimb 1)))
        (congrArg _ (hlimb 2))) (congrArg _ (hlimb 3))) (congrArg _ (hlimb 4))
    refine ⟨n.toNat, Int.toNat_le.mpr hn', ?_⟩
    zify
    rw [Int.toNat_of_nonneg hn, hval, hsum]
    ring
  · intro i
    have h := (hall i).2
    rw [← hlimb] at h
    omega

theorem feSub_below {a b : Fe} {m : ℕ} (ha : Fe.Below m a) (hm : 2 ^ 51 ≤ m ∧ m ≤ 2 ^ 60) (hb : Fe.Tight b) :
    Fe.Below m (feSub a b) := by
  have h := (feSub_spec (ha.mono hm.2) hb).2
  have hlt (i : Fin 5) : (feSub a b)[i].toNat < m := by
    have h1 := h i
    have h2 := ha.lt i
    omega
  exact ⟨hlt 0, hlt 1, hlt 2, hlt 3, hlt 4⟩

theorem feSub_tight {a b : Fe} (ha : Fe.Tight a) (hb : Fe.Tight b) : Fe.Tight (feSub a b) := by
  have h := (feSub_spec (ha.below.mono (by decide)) hb).2
  have hlt {m : ℕ} (hm : 2 ^ 51 ≤ m) (i : Fin 5) (hi : a[i].toNat < m) : (feSub a b)[i].toNat < m := by
    have h1 := h i
    omega
  exact ⟨hlt (by decide) 0 ha.l0, hlt le_rfl 1 ha.l1, hlt le_rfl 2 ha.l2, hlt le_rfl 3 ha.l3, hlt le_rfl 4 ha.l4⟩

/-! ## Carries -/

/-- A round of carries over five limbs, with what each of them carries. -/
structure Carried (x y : Fin 5 → ℕ) (q0 q1 q2 q3 q4 : ℕ) : Prop where
  e0 : y 0 + 2 ^ 51 * q0 = x 0 + 19 * q4
  e1 : y 1 + 2 ^ 51 * q1 = x 1 + q0
  e2 : y 2 + 2 ^ 51 * q2 = x 2 + q1
  e3 : y 3 + 2 ^ 51 * q3 = x 3 + q2
  e4 : y 4 + 2 ^ 51 * q4 = x 4 + q3
  l0 : y 0 < 2 ^ 51 + 19 * q4
  l1 : y 1 < 2 ^ 51
  l2 : y 2 < 2 ^ 51
  l3 : y 3 < 2 ^ 51
  l4 : y 4 < 2 ^ 51

theorem carried_of_mod {x y : Fin 5 → ℕ} {c1 c2 c3 c4 : ℕ} (h1 : c1 = x 1 + x 0 / 2 ^ 51)
    (h2 : c2 = x 2 + c1 / 2 ^ 51) (h3 : c3 = x 3 + c2 / 2 ^ 51) (h4 : c4 = x 4 + c3 / 2 ^ 51)
    (e0 : y 0 = x 0 % 2 ^ 51 + 19 * (c4 / 2 ^ 51)) (e1 : y 1 = c1 % 2 ^ 51) (e2 : y 2 = c2 % 2 ^ 51)
    (e3 : y 3 = c3 % 2 ^ 51) (e4 : y 4 = c4 % 2 ^ 51) :
    Carried x y (x 0 / 2 ^ 51) (c1 / 2 ^ 51) (c2 / 2 ^ 51) (c3 / 2 ^ 51) (c4 / 2 ^ 51) := by
  constructor <;> omega

/-- The number of five limbs. -/
def limbValue (x : Fin 5 → ℕ) : ℕ := x 0 + 2 ^ 51 * x 1 + 2 ^ 102 * x 2 + 2 ^ 153 * x 3 + 2 ^ 204 * x 4

theorem Carried.limbValue_eq {x y : Fin 5 → ℕ} {q0 q1 q2 q3 q4 : ℕ} (h : Carried x y q0 q1 q2 q3 q4) :
    limbValue y + q4 * p = limbValue x := by
  obtain ⟨e0, e1, e2, e3, e4, -, -, -, -, -⟩ := h
  have hmul : q4 * p + q4 * 19 = q4 * 2 ^ 255 := by rw [← Nat.mul_add, p_add]
  rw [limbValue, limbValue]
  omega

/-- The second round leaves tight limbs. -/
theorem Carried.tight {x y z : Fin 5 → ℕ} {q0 q1 q2 q3 q4 r0 r1 r2 r3 r4 : ℕ} (h : Carried x y q0 q1 q2 q3 q4)
    (hq : q4 < 2 ^ 70) (h' : Carried y z r0 r1 r2 r3 r4) : z 0 < 2 ^ 51 + 19 := by
  obtain ⟨-, -, -, -, -, l0, l1, l2, l3, l4⟩ := h
  obtain ⟨e0, e1, e2, e3, e4, l0', l1', l2', l3', l4'⟩ := h'
  omega

/-! ## Products -/

/-- `mulColumns`, with numbers. -/
def exactColumns (a b : Fe) : Vector ℕ 9 :=
  (pairs 5 5).foldl (fun t p => addAt (· + ·) t (p.1.val + p.2.val) (a[p.1].toNat * b[p.2].toNat))
    (Vector.replicate 9 0)

/-- `foldColumn`, with numbers. -/
def exactFold (t : Vector ℕ 9) (j : Fin 4) : Vector ℕ 9 :=
  (t.set j.val (t[j.val] + 19 * (t[j.val + 5] % 2 ^ 51))).set (j.val + 1)
    (t[j.val + 1] + 19 * (t[j.val + 5] / 2 ^ 51))

/-- `carryInto`, with numbers. -/
def exactCarry (t : Vector ℕ 9) (i : Fin 4) : Vector ℕ 9 :=
  (t.set i.val (t[i.val] % 2 ^ 51)).set (i.val + 1) (t[i.val + 1] + t[i.val] / 2 ^ 51)

/-- `carryTop`, with numbers. -/
def exactTop (t : Vector ℕ 9) : Vector ℕ 9 :=
  (t.set 4 (t[4] % 2 ^ 51)).set 0 (t[0] + 19 * (t[4] / 2 ^ 51))

attribute [local instance] neZero_four in
/-- `carryRound`, with numbers. -/
def exactRound (t : Vector ℕ 9) : Vector ℕ 9 :=
  exactTop (exactCarry (exactCarry (exactCarry (exactCarry t 0) 1) 2) 3)

attribute [local instance] neZero_four in
/-- `feMul`, with numbers. -/
def exactMul (a b : Fe) : Vector ℕ 5 :=
  let t := [3, 2, 1, 0].foldl exactFold (exactColumns a b)
  let t := (List.range 2).foldl (fun t _ => exactRound t) t
  Vector.ofFn fun i : Fin 5 => t[i.val]

/-- The first five columns. -/
def low (t : Vector ℕ 9) (i : Fin 5) : ℕ := t[i.val]

/-- What the columns behind count for. -/
def highValue (t : Vector ℕ 9) : ℕ := t[5] + 2 ^ 51 * t[6] + 2 ^ 102 * t[7] + 2 ^ 153 * t[8]

theorem exactColumns_spec {a b : Fe} (ha : Fe.Below (2 ^ 54) a) (hb : Fe.Below (2 ^ 54) b) :
    limbValue (low (exactColumns a b)) + 2 ^ 255 * highValue (exactColumns a b) = Fe.val a * Fe.val b ∧
      ∀ k : Fin 9, (exactColumns a b)[k] < 2 ^ 113 := by
  have hadd : ∀ x y : ℕ, id x + id y < 2 ^ 128 → id (x + y) = id x + id y := fun _ _ _ => rfl
  have h := foldl_addAt_pairs (B := 2 ^ 51) (n := 9) (M := 2 ^ 54 * 2 ^ 54) hadd (fun i j => rfl)
    (fun i j => Nat.mul_le_mul (ha.lt i).le (hb.lt j).le) (by decide) 0 rfl (by decide)
  refine ⟨?_, fun k => (h.2 k).trans_lt (by decide)⟩
  rw [Fe.val, value, Fe.val, value]
  refine Eq.trans ?_ h.1
  rw [value, Fin.sum_univ_castSucc, Fin.sum_univ_eight, limbValue, highValue]
  show _ = (exactColumns a b)[0] * (2 ^ 51) ^ 0 + (exactColumns a b)[1] * (2 ^ 51) ^ 1 +
    (exactColumns a b)[2] * (2 ^ 51) ^ 2 + (exactColumns a b)[3] * (2 ^ 51) ^ 3 +
    (exactColumns a b)[4] * (2 ^ 51) ^ 4 + (exactColumns a b)[5] * (2 ^ 51) ^ 5 +
    (exactColumns a b)[6] * (2 ^ 51) ^ 6 + (exactColumns a b)[7] * (2 ^ 51) ^ 7 + (exactColumns a b)[8] * (2 ^ 51) ^ 8
  show (exactColumns a b)[0] + 2 ^ 51 * (exactColumns a b)[1] + 2 ^ 102 * (exactColumns a b)[2] +
    2 ^ 153 * (exactColumns a b)[3] + 2 ^ 204 * (exactColumns a b)[4] + _ = _
  ring

/-- The columns behind are folded. -/
theorem foldl_exactFold (t : Vector ℕ 9) :
    limbValue (low ([3, 2, 1, 0].foldl exactFold t)) = limbValue (low t) + 19 * highValue t := by
  simp only [limbValue, low, highValue, exactFold, Fin.isValue, List.foldl_cons, List.foldl_nil, Fin.coe_ofNat_eq_mod,
    Nat.mod_succ, Nat.reduceAdd, Nat.reducePow, Nat.reduceMod, ne_eq, Nat.reduceEqDiff, not_false_eq_true,
    Vector.getElem_set_ne, Vector.getElem_set_self, OfNat.ofNat_eq_ofNat, Nat.succ_ne_self, Nat.one_mod,
    OfNat.ofNat_ne_one, Nat.zero_mod, OfNat.ofNat_ne_zero, one_ne_zero, zero_add, OfNat.one_ne_ofNat,
    OfNat.zero_ne_ofNat]
  omega

theorem carried_exactRound (t : Vector ℕ 9) : ∃ q0 q1 q2 q3 q4, Carried (low t) (low (exactRound t)) q0 q1 q2 q3 q4 :=
  ⟨_, _, _, _, _, carried_of_mod rfl rfl rfl rfl (by simp [low, exactRound, exactTop, exactCarry])
    (by simp [low, exactRound, exactTop, exactCarry]) (by simp [low, exactRound, exactTop, exactCarry])
    (by simp [low, exactRound, exactTop, exactCarry]) (by simp [low, exactRound, exactTop, exactCarry])⟩

/-- The words are the numbers, which are below `m`. -/
def Agree (m : ℕ) (t : Vector UInt128 9) (u : Vector ℕ 9) : Prop := ∀ k : Fin 9, t[k].toNat = u[k] ∧ u[k] < m

theorem Agree.mono {m n : ℕ} {t : Vector UInt128 9} {u : Vector ℕ 9} (h : Agree m t u) (hmn : m ≤ n) : Agree n t u :=
  fun k => ⟨(h k).1, (h k).2.trans_le hmn⟩

theorem mulColumns_exact {a b : Fe} (ha : Fe.Below (2 ^ 54) a) (hb : Fe.Below (2 ^ 54) b) :
    Agree (2 ^ 113) (mulColumns a b) (exactColumns a b) := by
  have hadd (x y : UInt128) (h : x.toNat + y.toNat < 2 ^ 128) : (add128 x y).toNat = x.toNat + y.toNat := add128_toNat h
  have h := foldl_addAt_exact (M := 2 ^ 54 * 2 ^ 54) (c := 0) (t := Vector.replicate 9 ⟨0, 0⟩)
    (u := Vector.replicate 9 0) hadd ((pairs 5 5).map fun p => (p.1.val + p.2.val, mul64 a[p.1] b[p.2]))
    (by
      intro p hp
      obtain ⟨q, -, rfl⟩ := List.mem_map.mp hp
      exact (mul64_toNat _ _).trans_le (Nat.mul_le_mul (ha.lt q.1).le (hb.lt q.2).le))
    (by
      intro k
      simp [UInt128.toNat])
    (by simp) (by rw [List.length_map, length_pairs]; decide)
  intro k
  refine ⟨?_, (exactColumns_spec ha hb).2 k⟩
  have hk := h k
  rw [List.foldl_map, List.foldl_map] at hk
  simp only [mul64_toNat] at hk
  exact hk

theorem foldColumn_exact {t : Vector UInt128 9} {u : Vector ℕ 9} {m : ℕ} (h : Agree m t u) (hm : m ≤ 2 ^ 114)
    (j : Fin 4) : Agree (m + 2 ^ 68) (foldColumn t j) (exactFold u j) := by
  have h0 := h ⟨j.val, by omega⟩
  have h1 := h ⟨j.val + 1, by omega⟩
  have h5 := h ⟨j.val + 5, by omega⟩
  simp only [Fin.getElem_fin] at h0 h1 h5
  have hlow : (mul64 19 (t[j.val + 5].lo &&& 0x7ffffffffffff)).toNat = 19 * (u[j.val + 5] % 2 ^ 51) := by
    rw [mul64_toNat, ← h5.1, ← mask_lo_toNat]
    rfl
  have hhigh : (mul64 19 (rshift128 t[j.val + 5] 51).lo).toNat = 19 * (u[j.val + 5] / 2 ^ 51) := by
    have hr := rshift128_toNat t[j.val + 5]
    rw [mul64_toNat, UInt128.lo_toNat_of_lt (by rw [hr]; omega), hr, h5.1]
    rfl
  have hne : (t.set j.val (add128 t[j.val] (mul64 19 (t[j.val + 5].lo &&& 0x7ffffffffffff))))[j.val + 1] =
      t[j.val + 1] := Vector.getElem_set_ne _ _ (by omega)
  intro k
  have hk := h k
  simp only [Fin.getElem_fin, foldColumn, exactFold, hne] at hk ⊢
  simp only [Vector.getElem_set]
  split_ifs
  · rw [add128_toNat (by omega)]
    omega
  · rw [add128_toNat (by omega)]
    omega
  · omega

theorem carryInto_exact {t : Vector UInt128 9} {u : Vector ℕ 9} {m : ℕ} (h : Agree m t u) (hm : m ≤ 2 ^ 115)
    (i : Fin 4) : Agree (m + m / 2 ^ 51) (carryInto t i) (exactCarry u i) := by
  have h0 := h ⟨i.val, by omega⟩
  have h1 := h ⟨i.val + 1, by omega⟩
  simp only [Fin.getElem_fin] at h0 h1
  have hmask : (UInt128.mk (mask51 t[i.val].lo) 0).toNat = t[i.val].toNat % 2 ^ 51 := by
    rw [← mask_lo_toNat]
    exact Nat.add_zero _
  have hcarry := rshift128_toNat t[i.val]
  have hne : (t.set i.val ⟨mask51 t[i.val].lo, 0⟩)[i.val + 1] = t[i.val + 1] := Vector.getElem_set_ne _ _ (by omega)
  intro k
  have hk := h k
  simp only [Fin.getElem_fin, carryInto, exactCarry, hne] at hk ⊢
  simp only [Vector.getElem_set]
  split_ifs
  · rw [add128_toNat (by omega)]
    omega
  · omega
  · omega

theorem carryTop_exact {t : Vector UInt128 9} {u : Vector ℕ 9} {m : ℕ} (h : Agree m t u) (hm : m ≤ 2 ^ 115)
    (h0 : u[0] < 2 ^ 51) : Agree (m + 2 ^ 69) (carryTop t) (exactTop u) := by
  have ht0 : t[0].toNat = u[0] ∧ u[0] < m := h 0
  have ht4 : t[4].toNat = u[4] ∧ u[4] < m := h 4
  have hmask : (UInt128.mk (mask51 t[4].lo) 0).toNat = t[4].toNat % 2 ^ 51 := by
    rw [← mask_lo_toNat]
    exact Nat.add_zero _
  have hcarry := rshift128_toNat t[4]
  have hlt : (rshift128 t[4] 51).toNat < 2 ^ 64 := by
    rw [hcarry]
    omega
  have hadd : (mul64 19 (rshift128 t[4] 51).lo).toNat = 19 * (u[4] / 2 ^ 51) := by
    rw [mul64_toNat, UInt128.lo_toNat_of_lt hlt, hcarry, ht4.1]
    rfl
  have hzero : (mul64 19 (rshift128 t[4] 51).hi).toNat = 0 := by
    rw [mul64_toNat, UInt128.hi_of_lt hlt]
    rfl
  have hne : (t.set 4 ⟨mask51 t[4].lo, 0⟩)[0] = t[0] := Vector.getElem_set_ne _ _ (by decide)
  have hfirst : (add128 t[0] (mul64 19 (rshift128 t[4] 51).lo)).toNat = u[0] + 19 * (u[4] / 2 ^ 51) := by
    rw [add128_toNat (by omega)]
    omega
  intro k
  have hk := h k
  simp only [Fin.getElem_fin, carryTop, exactTop, hne] at hk ⊢
  split_ifs with hc
  · simp only [Vector.getElem_set_self]
    simp only [Vector.getElem_set]
    split_ifs
    · rw [add128_toNat (by omega)]
      omega
    · omega
    · omega
  · -- without a carry the first limb stays
    have hnone : u[4] / 2 ^ 51 = 0 := by
      rw [not_or, not_not] at hc
      rw [← ht4.1, ← hcarry, ← UInt128.lo_toNat_of_lt hlt, hc.1]
      rfl
    simp only [Vector.getElem_set]
    by_cases c0 : 0 = k.val
    · simp only [← c0, ↓reduceIte, OfNat.ofNat_ne_zero] at hk ⊢
      omega
    · rw [if_neg c0]
      split_ifs <;> omega

/-- A round of carries leaves the words as they would be without a limit. -/
theorem carryRound_exact {t : Vector UInt128 9} {u : Vector ℕ 9} {m : ℕ} (h : Agree m t u) (hm : m ≤ 2 ^ 114) :
    Agree (m + 2 ^ 70) (carryRound t) (exactRound u) := by
  have h0 := (carryInto_exact h (by omega) 0).mono (show m + m / 2 ^ 51 ≤ m + 2 ^ 64 by omega)
  have h1 := (carryInto_exact h0 (by omega) 1).mono (show m + 2 ^ 64 + (m + 2 ^ 64) / 2 ^ 51 ≤ m + 2 ^ 65 by omega)
  have h2 := (carryInto_exact h1 (by omega) 2).mono (show m + 2 ^ 65 + (m + 2 ^ 65) / 2 ^ 51 ≤ m + 2 ^ 66 by omega)
  have h3 := (carryInto_exact h2 (by omega) 3).mono (show m + 2 ^ 66 + (m + 2 ^ 66) / 2 ^ 51 ≤ m + 2 ^ 67 by omega)
  refine (carryTop_exact h3 (by omega) ?_).mono (by omega)
  have hfirst : (exactCarry (exactCarry (exactCarry (exactCarry u 0) 1) 2) 3)[0] = u[0] % 2 ^ 51 := by simp [exactCarry]
  rw [hfirst]
  exact Nat.mod_lt _ (by decide)

theorem foldl_range_two {α : Type*} (f : α → α) (x : α) : (List.range 2).foldl (fun x _ => f x) x = f (f x) := rfl

/-- The limbs of a product without a limit. -/
theorem exactMul_spec {a b : Fe} (ha : Fe.Below (2 ^ 54) a) (hb : Fe.Below (2 ^ 54) b)
    (hcols : ∀ k : Fin 9, ([3, 2, 1, 0].foldl exactFold (exactColumns a b))[k] < 2 ^ 114) :
    ((exactMul a b)[0] < 2 ^ 51 + 19 ∧ (exactMul a b)[1] < 2 ^ 51 ∧ (exactMul a b)[2] < 2 ^ 51 ∧
      (exactMul a b)[3] < 2 ^ 51 ∧ (exactMul a b)[4] < 2 ^ 51) ∧
      ∃ n, limbValue (fun i => (exactMul a b)[i]) + n * p = Fe.val a * Fe.val b := by
  have hfold := foldl_exactFold (exactColumns a b)
  have hval := (exactColumns_spec ha hb).1
  obtain ⟨t, ht⟩ : ∃ t, t = [3, 2, 1, 0].foldl exactFold (exactColumns a b) := ⟨_, rfl⟩
  rw [← ht] at hcols hfold
  have hlow (i : Fin 5) : low t i < 2 ^ 114 := hcols ⟨i.val, by omega⟩
  have hmul (i : Fin 5) : (exactMul a b)[i] = low (exactRound (exactRound t)) i := by
    rw [exactMul, ← ht, foldl_range_two exactRound, Fin.getElem_fin, Vector.getElem_ofFn]
    rfl
  obtain ⟨q0, q1, q2, q3, q4, hc⟩ := carried_exactRound t
  obtain ⟨r0, r1, r2, r3, r4, hc'⟩ := carried_exactRound (exactRound t)
  have hq : q4 < 2 ^ 70 := by
    obtain ⟨e0, e1, e2, e3, e4, -, -, -, -, -⟩ := hc
    have b0 := hlow 0
    have b1 := hlow 1
    have b2 := hlow 2
    have b3 := hlow 3
    have b4 := hlow 4
    omega
  refine ⟨⟨(hmul 0).trans_lt (hc.tight hq hc'), (hmul 1).trans_lt hc'.l1, (hmul 2).trans_lt hc'.l2,
    (hmul 3).trans_lt hc'.l3, (hmul 4).trans_lt hc'.l4⟩, r4 + q4 + highValue (exactColumns a b), ?_⟩
  have hv := hc.limbValue_eq
  have hv' := hc'.limbValue_eq
  rw [funext hmul, ← hval, Nat.add_mul, Nat.add_mul, ← p_add, Nat.add_mul, Nat.mul_comm p]
  omega

/-- The limbs of a product. -/
theorem feMul_exact {a b : Fe} (ha : Fe.Below (2 ^ 54) a) (hb : Fe.Below (2 ^ 54) b) :
    (∀ i : Fin 5, (feMul a b)[i].toNat = (exactMul a b)[i]) ∧
      ∀ k : Fin 9, ([3, 2, 1, 0].foldl exactFold (exactColumns a b))[k] < 2 ^ 114 := by
  have h1 := foldColumn_exact (mulColumns_exact ha hb) (by norm_num) 3
  have h2 := foldColumn_exact h1 (by norm_num) 2
  have h3 := foldColumn_exact h2 (by norm_num) 1
  have h4 := (foldColumn_exact h3 (by norm_num) 0).mono
    (show 2 ^ 113 + 2 ^ 68 + 2 ^ 68 + 2 ^ 68 + 2 ^ 68 ≤ 2 ^ 113 + 2 ^ 70 by norm_num)
  have h6 := carryRound_exact (carryRound_exact h4 (by norm_num)) (by norm_num)
  have hcols (k : Fin 9) : ([3, 2, 1, 0].foldl exactFold (exactColumns a b))[k] < 2 ^ 114 :=
    (h4 k).2.trans (by norm_num)
  refine ⟨fun i => ?_, hcols⟩
  have hword : (carryRound (carryRound ([3, 2, 1, 0].foldl foldColumn (mulColumns a b))))[i.val].toNat =
      (exactMul a b)[i] := by
    rw [exactMul, foldl_range_two exactRound, Fin.getElem_fin, Vector.getElem_ofFn]
    exact (h6 ⟨i.val, by omega⟩).1
  have hlt : (exactMul a b)[i] < 2 ^ 64 := by
    obtain ⟨⟨l0, l1, l2, l3, l4⟩, -⟩ := exactMul_spec ha hb hcols
    fin_cases i
    exacts [l0.trans (by norm_num), l1.trans (by norm_num), l2.trans (by norm_num), l3.trans (by norm_num),
      l4.trans (by norm_num)]
  rw [← hword] at hlt ⊢
  rw [feMul, foldl_range_two carryRound, Fin.getElem_fin, Vector.getElem_ofFn]
  exact UInt128.lo_toNat_of_lt hlt

/-- **Products.** -/
theorem feMul_spec {a b : Fe} (ha : Fe.Below (2 ^ 54) a) (hb : Fe.Below (2 ^ 54) b) :
    Fe.Tight (feMul a b) ∧ ∃ n, Fe.val (feMul a b) + n * p = Fe.val a * Fe.val b := by
  obtain ⟨hlimb, hcols⟩ := feMul_exact ha hb
  obtain ⟨⟨l0, l1, l2, l3, l4⟩, n, hn⟩ := exactMul_spec ha hb hcols
  refine ⟨⟨(hlimb 0).trans_lt l0, (hlimb 1).trans_lt l1, (hlimb 2).trans_lt l2, (hlimb 3).trans_lt l3,
    (hlimb 4).trans_lt l4⟩, n, ?_⟩
  rw [← hn, ← funext hlimb, Fe.val_eq]
  rfl

end SneppxAlg.Ed25519

/-!
# The encoding of `ed25519.c`

Up to its last step `fe_to_bytes` writes the number below the prime: two rounds of carries leave limbs of 51 bits, and
the subtraction of the prime from the limbs reduces what is left. The last step compares the bytes with those of the
prime again, but from byte 30 down. So it subtracts the prime from numbers that are below it as well: those whose first
31 bytes are not below the first 31 bytes of the prime (`feToBytes_eq`).
-/

namespace SneppxAlg.Ed25519

open Lib.Bytes Lib.Columns

/-! ## Limbs of 51 bits -/

/-- What is above 51 bits, 19 times. -/
theorem toNat_carried (x : UInt64) : ((19 : UInt64) * (x >>> 51)).toNat = 19 * (x.toNat / 2 ^ 51) := by
  have hshift : (x >>> 51).toNat = x.toNat / 2 ^ 51 := toNat_shiftRight_lt _ _ (by decide)
  have h19 : (19 : UInt64).toNat = 19 := rfl
  have hx := x.toNat_lt
  rw [toNat_mul_lt (by rw [hshift, h19]; omega), hshift, h19]

theorem toNat_add_carry {x y : UInt64} (hx : x.toNat < 2 ^ 63) : (x + y >>> 51).toNat = x.toNat + y.toNat / 2 ^ 51 := by
  have hshift : (y >>> 51).toNat = y.toNat / 2 ^ 51 := toNat_shiftRight_lt _ _ (by decide)
  have hy := y.toNat_lt
  rw [toNat_add_lt (by rw [hshift]; omega), hshift]

def Fe.limbs (a : Fe) (i : Fin 5) : ℕ := a[i].toNat

theorem Fe.limbValue_limbs (a : Fe) : limbValue a.limbs = Fe.val a := (Fe.val_eq a).symm

theorem foldTop_spec {r : Fe} (hr : Fe.Below (2 ^ 63) r) :
    (foldTop r).limbs 0 < 2 ^ 63 + 2 ^ 17 ∧ (foldTop r).limbs 1 < 2 ^ 63 ∧ (foldTop r).limbs 2 < 2 ^ 63 ∧
      (foldTop r).limbs 3 < 2 ^ 63 ∧ (foldTop r).limbs 4 < 2 ^ 51 ∧
      Fe.val (foldTop r) + r[4].toNat / 2 ^ 51 * p = Fe.val r := by
  obtain ⟨r0, r1, r2, r3, r4⟩ := hr
  -- the bounds of the indices, found by `assumption`
  obtain ⟨i0, i1, i2, i3, i4⟩ : 0 < 5 ∧ 1 < 5 ∧ 2 < 5 ∧ 3 < 5 ∧ 4 < 5 := by decide
  have hcarry : 19 * (r[4].toNat / 2 ^ 51) < 2 ^ 17 := by omega
  have hc := toNat_carried r[4]
  have e0 : (foldTop r)[0].toNat = r[0].toNat + 19 * (r[4].toNat / 2 ^ 51) := by
    rw [← hc]
    exact toNat_add_lt (by rw [hc]; omega)
  have e4 : (foldTop r)[4].toNat = r[4].toNat % 2 ^ 51 := mask51_toNat _
  refine ⟨e0.trans_lt (Nat.add_lt_add r0 hcarry), r1, r2, r3, e4.trans_lt (Nat.mod_lt _ (by norm_num)), ?_⟩
  have hmod := Nat.mod_add_div r[4].toNat (2 ^ 51)
  have hval : Fe.val (foldTop r) = r[0].toNat + 19 * (r[4].toNat / 2 ^ 51) + 2 ^ 51 * r[1].toNat +
      2 ^ 102 * r[2].toNat + 2 ^ 153 * r[3].toNat + 2 ^ 204 * (r[4].toNat % 2 ^ 51) := by
    rw [Fe.val_eq, e0, e4]
    rfl
  rw [hval, Fe.val_eq]
  linear_combination 2 ^ 204 * hmod + r[4].toNat / 2 ^ 51 * p_add

theorem carryLimbs_spec {t : Fe} (h1 : t.limbs 1 < 2 ^ 63) (h2 : t.limbs 2 < 2 ^ 63) (h3 : t.limbs 3 < 2 ^ 63)
    (h4 : t.limbs 4 < 2 ^ 51) :
    ∃ q0 q1 q2 q3 q4, Carried t.limbs (carryLimbs t).limbs q0 q1 q2 q3 q4 := by
  obtain ⟨t1, ht1⟩ : ∃ t1, t1 = t[1] + t[0] >>> 51 := ⟨_, rfl⟩
  have s1 : t1.toNat = t.limbs 1 + t.limbs 0 / 2 ^ 51 := by
    rw [ht1]
    exact toNat_add_carry h1
  obtain ⟨t2, ht2⟩ : ∃ t2, t2 = t[2] + t1 >>> 51 := ⟨_, rfl⟩
  have s2 : t2.toNat = t.limbs 2 + t1.toNat / 2 ^ 51 := by
    rw [ht2]
    exact toNat_add_carry h2
  obtain ⟨t3, ht3⟩ : ∃ t3, t3 = t[3] + t2 >>> 51 := ⟨_, rfl⟩
  have s3 : t3.toNat = t.limbs 3 + t2.toNat / 2 ^ 51 := by
    rw [ht3]
    exact toNat_add_carry h3
  obtain ⟨t4, ht4⟩ : ∃ t4, t4 = t[4] + t3 >>> 51 := ⟨_, rfl⟩
  have s4 : t4.toNat = t.limbs 4 + t3.toNat / 2 ^ 51 := by
    rw [ht4]
    exact toNat_add_carry (h4.trans (by norm_num))
  have heq : carryLimbs t =
      #v[mask51 t[0] + (19 : UInt64) * (t4 >>> 51), mask51 t1, mask51 t2, mask51 t3, mask51 t4] := by
    rw [carryLimbs, ht4, ht3, ht2, ht1]
  have c0 : (carryLimbs t).limbs 0 = t.limbs 0 % 2 ^ 51 + 19 * (t4.toNat / 2 ^ 51) := by
    have hmod := Nat.mod_lt t[0].toNat (show 0 < 2 ^ 51 by norm_num)
    have hlt := t4.toNat_lt
    rw [heq]
    exact (toNat_add_lt (by rw [toNat_carried, mask51_toNat]; omega)).trans (by rw [toNat_carried, mask51_toNat]; rfl)
  have c1 : (carryLimbs t).limbs 1 = t1.toNat % 2 ^ 51 := by rw [heq]; exact mask51_toNat t1
  have c2 : (carryLimbs t).limbs 2 = t2.toNat % 2 ^ 51 := by rw [heq]; exact mask51_toNat t2
  have c3 : (carryLimbs t).limbs 3 = t3.toNat % 2 ^ 51 := by rw [heq]; exact mask51_toNat t3
  have c4 : (carryLimbs t).limbs 4 = t4.toNat % 2 ^ 51 := by rw [heq]; exact mask51_toNat t4
  exact ⟨_, _, _, _, _, carried_of_mod s1 s2 s3 s4 c0 c1 c2 c3 c4⟩

/-- Two rounds leave limbs of 51 bits. -/
theorem Carried.below {x y z : Fin 5 → ℕ} {q0 q1 q2 q3 q4 r0 r1 r2 r3 r4 : ℕ} (h : Carried x y q0 q1 q2 q3 q4)
    (hq : q4 ≤ 1) (h' : Carried y z r0 r1 r2 r3 r4) : z 0 < 2 ^ 51 := by
  obtain ⟨-, -, -, -, -, l0, l1, l2, l3, l4⟩ := h
  obtain ⟨e0, e1, e2, e3, e4, l0', l1', l2', l3', l4'⟩ := h'
  omega

/-- The limbs that `fe_to_bytes` reaches. -/
def reduced (r : Fe) : Fe := subPrime (carryLimbs (carryLimbs (foldTop r)))

theorem Fe.Below.val_lt {a : Fe} (h : Fe.Below (2 ^ 51) a) : Fe.val a < 2 ^ 255 := by
  obtain ⟨h0, h1, h2, h3, h4⟩ := h
  rw [Fe.val_eq]
  omega

theorem carried_spec {r : Fe} (hr : Fe.Below (2 ^ 63) r) :
    Fe.Below (2 ^ 51) (carryLimbs (carryLimbs (foldTop r))) ∧
      ∃ n, Fe.val (carryLimbs (carryLimbs (foldTop r))) + n * p = Fe.val r := by
  obtain ⟨f0, f1, f2, f3, f4, hval⟩ := foldTop_spec hr
  obtain ⟨q0, q1, q2, q3, q4, hc⟩ := carryLimbs_spec f1 f2 f3 f4
  have hq : q4 ≤ 1 := by
    have e0 := hc.e0
    have e1 := hc.e1
    have e2 := hc.e2
    have e3 := hc.e3
    have e4 := hc.e4
    omega
  obtain ⟨s0, s1, s2, s3, s4, hc'⟩ := carryLimbs_spec (t := carryLimbs (foldTop r)) (hc.l1.trans (by norm_num))
    (hc.l2.trans (by norm_num)) (hc.l3.trans (by norm_num)) hc.l4
  refine ⟨⟨hc.below hq hc', hc'.l1, hc'.l2, hc'.l3, hc'.l4⟩, s4 + q4 + r[4].toNat / 2 ^ 51, ?_⟩
  have hv := hc.limbValue_eq
  have hv' := hc'.limbValue_eq
  rw [Fe.limbValue_limbs, Fe.limbValue_limbs] at hv hv'
  rw [Nat.add_mul, Nat.add_mul]
  omega

theorem mask_toNat : (0x7FFFFFFFFFFFF : UInt64).toNat = 2251799813685247 := rfl

theorem primeLow_toNat : (0x7FFFFFFFFFFED : UInt64).toNat = 2251799813685229 := rfl

theorem eq_mask {x : UInt64} (hx : x.toNat = 2251799813685247) : x = 0x7FFFFFFFFFFFF := by
  apply UInt64.toNat_inj.mp
  rw [hx, mask_toNat]

theorem subPrime_of_ge {t : Fe} (h0 : 2251799813685229 ≤ t[0].toNat) (h1 : t[1].toNat = 2251799813685247)
    (h2 : t[2].toNat = 2251799813685247) (h3 : t[3].toNat = 2251799813685247) (h4 : t[4].toNat = 2251799813685247) :
    ∃ x : UInt64, subPrime t = #v[x, 0, 0, 0, 0] ∧ x.toNat = t[0].toNat - 2251799813685229 := by
  have hle : (0x7FFFFFFFFFFED : UInt64) ≤ t[0] := UInt64.le_iff_toNat_le.mpr h0
  have hc : (t[4] == 0x7FFFFFFFFFFFF && t[3] == 0x7FFFFFFFFFFFF && t[2] == 0x7FFFFFFFFFFFF && t[1] == 0x7FFFFFFFFFFFF) =
      true ∧ t[0] ≥ 0x7FFFFFFFFFFED := by
    simp only [Bool.and_eq_true, beq_iff_eq]
    exact ⟨⟨⟨⟨eq_mask h4, eq_mask h3⟩, eq_mask h2⟩, eq_mask h1⟩, hle⟩
  have hzero {x : UInt64} (hx : x.toNat = 2251799813685247) : x - 0x7FFFFFFFFFFFF = 0 := by
    rw [eq_mask hx, UInt64.sub_self]
  refine ⟨t[0] - 0x7FFFFFFFFFFED, ?_, ?_⟩
  · rw [subPrime, if_pos (by simpa using hc), hzero h1, hzero h2, hzero h3, hzero h4]
  · rw [UInt64.toNat_sub_of_le _ _ hle, primeLow_toNat]

theorem subPrime_of_not_ge {t : Fe} (h : ¬(2251799813685229 ≤ t[0].toNat ∧ t[1].toNat = 2251799813685247 ∧
    t[2].toNat = 2251799813685247 ∧ t[3].toNat = 2251799813685247 ∧ t[4].toNat = 2251799813685247)) :
    subPrime t = t := by
  rw [subPrime]
  refine if_neg fun hc => h ?_
  simp only [Bool.and_eq_true, beq_iff_eq, decide_eq_true_eq] at hc
  obtain ⟨⟨⟨⟨c4, c3⟩, c2⟩, c1⟩, c0⟩ := hc
  have c0' := UInt64.le_iff_toNat_le.mp c0
  rw [primeLow_toNat] at c0'
  rw [c1, c2, c3, c4, mask_toNat]
  exact ⟨c0', rfl, rfl, rfl, rfl⟩

theorem subPrime_spec {t : Fe} (ht : Fe.Below (2 ^ 51) t) :
    Fe.Below (2 ^ 51) (subPrime t) ∧ Fe.val (subPrime t) = Fe.val t % p := by
  have hlt := ht.val_lt
  have hp := p_add
  have hval := Fe.val_eq t
  by_cases hc : 2251799813685229 ≤ t[0].toNat ∧ t[1].toNat = 2251799813685247 ∧ t[2].toNat = 2251799813685247 ∧
      t[3].toNat = 2251799813685247 ∧ t[4].toNat = 2251799813685247
  · obtain ⟨c0, c1, c2, c3, c4⟩ := hc
    obtain ⟨x, heq, hx⟩ := subPrime_of_ge c0 c1 c2 c3 c4
    have h0 := ht.l0
    have hsmall : x.toNat < 2 ^ 51 := by omega
    have h00 : (0 : UInt64).toNat < 2 ^ 51 := by decide
    have hval' : Fe.val #v[x, 0, 0, 0, 0] = x.toNat := by
      rw [Fe.val_eq]
      simp
    rw [heq]
    refine ⟨⟨hsmall, h00, h00, h00, h00⟩, ?_⟩
    rw [hval', Nat.mod_eq_sub_mod (by omega), Nat.mod_eq_of_lt (by omega)]
    omega
  · rw [subPrime_of_not_ge hc]
    refine ⟨ht, (Nat.mod_eq_of_lt ?_).symm⟩
    obtain ⟨h0, h1, h2, h3, h4⟩ := ht
    -- with any limb below its largest value the number is below the prime
    omega

/-! ## Bytes of limbs -/

theorem length_limbBytes (t : Fe) : (limbBytes t).length = 32 := rfl

theorem toNat_lowByte (x : UInt64) : x.toUInt8.toNat = x.toNat % 256 := UInt64.toNat_toUInt8 x

theorem toNat_byte (x k : UInt64) (hk : k.toNat < 64) : (x >>> k).toUInt8.toNat = x.toNat / 2 ^ k.toNat % 256 := by
  rw [UInt64.toNat_toUInt8, toNat_shiftRight_lt x k hk]

/-- A byte that belongs to two limbs: the upper bits of one, and the `r` lower bits of the other. -/
theorem toNat_byte_or (x y k m s : UInt64) {r : ℕ} (hk : k.toNat < 64) (hm : m.toNat = 2 ^ r - 1)
    (hr : r + s.toNat = 8) (hx : x.toNat / 2 ^ k.toNat < 2 ^ s.toNat) :
    ((x >>> k).toUInt8 ||| ((y &&& m) <<< s).toUInt8).toNat =
      x.toNat / 2 ^ k.toNat + 2 ^ s.toNat * (y.toNat % 2 ^ r) := by
  have hs : (2 : ℕ) ^ r * 2 ^ s.toNat = 256 := by
    rw [← pow_add, hr]
    rfl
  have hmod : y.toNat % 2 ^ r < 2 ^ r := Nat.mod_lt _ (by positivity)
  have hlt : y.toNat % 2 ^ r * 2 ^ s.toNat < 256 := by
    rw [← hs]
    exact Nat.mul_lt_mul_of_pos_right hmod (by positivity)
  have hx256 : x.toNat / 2 ^ k.toNat < 256 :=
    hx.trans_le (Nat.pow_le_pow_right (by decide) (show s.toNat ≤ 8 by omega))
  have hand : (y &&& m).toNat = y.toNat % 2 ^ r := toNat_and_mask y m r hm
  rw [UInt8.toNat_or, toNat_byte x k hk, UInt64.toNat_toUInt8, UInt64.toNat_shiftLeft, hand,
    Nat.mod_eq_of_lt (show s.toNat < 64 by omega), Nat.shiftLeft_eq, Nat.mod_eq_of_lt (hlt.trans (by decide)),
    Nat.mod_eq_of_lt (show y.toNat % 2 ^ r * 2 ^ s.toNat < 2 ^ 8 from hlt), Nat.mod_eq_of_lt hx256, ← Nat.shiftLeft_eq,
    or_shiftLeft_eq_add hx, Nat.mul_comm (2 ^ s.toNat)]

theorem byte_add (x n : ℕ) : x / 2 ^ n = x / 2 ^ n % 256 + 256 * (x / 2 ^ (n + 8)) := by
  rw [pow_add, ← Nat.div_div_eq_div_mul]
  exact (Nat.mod_add_div _ _).symm

/-- A number in bytes from bit `n` on. -/
theorem bytes_of_limb (x n : ℕ) :
    x = x % 2 ^ n + 2 ^ n * (x / 2 ^ n % 256 + 256 * (x / 2 ^ (n + 8) % 256 + 256 * (x / 2 ^ (n + 16) % 256 +
      256 * (x / 2 ^ (n + 24) % 256 + 256 * (x / 2 ^ (n + 32) % 256 + 256 * (x / 2 ^ (n + 40))))))) := by
  rw [← byte_add x (n + 32), ← byte_add x (n + 24), ← byte_add x (n + 16), ← byte_add x (n + 8), ← byte_add x n]
  exact (Nat.mod_add_div x (2 ^ n)).symm

theorem leVal_limbBytes {t : Fe} (ht : Fe.Below (2 ^ 51) t) : leVal (limbBytes t) = Fe.val t := by
  obtain ⟨h0, h1, h2, h3, h4⟩ := ht
  rw [Fe.val_eq, limbBytes]
  generalize t[0] = x0 at *
  generalize t[1] = x1 at *
  generalize t[2] = x2 at *
  generalize t[3] = x3 at *
  generalize t[4] = x4 at *
  have o6 := toNat_byte_or x0 x1 48 0x1F 3 (r := 5) (by decide) (by decide) (by decide)
    (Nat.div_lt_of_lt_mul (h0.trans_le (by decide)))
  have o12 := toNat_byte_or x1 x2 45 3 6 (r := 2) (by decide) (by decide) (by decide)
    (Nat.div_lt_of_lt_mul (h1.trans_le (by decide)))
  have o19 := toNat_byte_or x2 x3 50 0x7F 1 (r := 7) (by decide) (by decide) (by decide)
    (Nat.div_lt_of_lt_mul (h2.trans_le (by decide)))
  have o25 := toNat_byte_or x3 x4 47 0x0F 4 (r := 4) (by decide) (by decide) (by decide)
    (Nat.div_lt_of_lt_mul (h3.trans_le (by decide)))
  have m31 : x4.toNat / 2 ^ 44 % 256 = x4.toNat / 2 ^ 44 :=
    Nat.mod_eq_of_lt (Nat.div_lt_of_lt_mul (h4.trans_le (by decide)))
  clear h0 h1 h2 h3 h4
  have d0 := bytes_of_limb x0.toNat 8
  have d1 := bytes_of_limb x1.toNat 5
  have d2 := bytes_of_limb x2.toNat 2
  have d2' := byte_add x2.toNat 42
  have d3 := bytes_of_limb x3.toNat 7
  have d4 := bytes_of_limb x4.toNat 4
  simp only [leVal_cons, leVal_nil, o6, o12, o19, o25, toNat_lowByte]
  simp (disch := decide) only [toNat_shiftRight_lt, UInt64.reduceToNat]
  rw [m31]
  simp only [Nat.reduceAdd, Nat.reducePow] at d0 d1 d2 d2' d3 d4 ⊢
  linear_combination -d0 - 2 ^ 51 * d1 - 2 ^ 102 * d2 - 2 ^ 153 * d3 - 2 ^ 204 * d4 - 2 ^ 144 * d2'

/-! ## The last step -/

theorem leVal_take (l : List UInt8) (n : ℕ) : leVal (l.take n) = leVal l % 256 ^ n := by
  rcases Nat.le_total l.length n with h | h
  · rw [List.take_of_length_le h, Nat.mod_eq_of_lt ((leVal_lt l).trans_le (Nat.pow_le_pow_right (by decide) h))]
  · have hlen : (l.take n).length = n := List.length_take_of_le h
    have hlt := leVal_lt (l.take n)
    rw [hlen] at hlt
    conv_rhs => rw [← List.take_append_drop n l, leVal_append, hlen, Nat.add_mul_mod_self_left, Nat.mod_eq_of_lt hlt]

/-- A string of a known length is the encoding of its value. -/
theorem eq_leBytes {l : List UInt8} {n : ℕ} (h : l.length = n) : l = leBytes n (leVal l) := by
  have hlt := leVal_lt l
  rw [h] at hlt
  exact eq_of_leVal_eq (by rw [length_leBytes, h]) (by rw [leVal_leBytes, Nat.mod_eq_of_lt hlt])

theorem length_primeBytes (n : ℕ) : (primeBytes n).length = n := by simp [primeBytes]

theorem leVal_primeBytes : leVal (primeBytes 32) = p := by decide +kernel

theorem leVal_primeBytes_low : leVal (primeBytes 31) = 2 ^ 248 - 19 := by decide +kernel

/-- What the last step takes for the prime or a larger number. -/
def LooksLarge (v : ℕ) : Prop := 2 ^ 248 - 19 ≤ v % 2 ^ 248

instance (v : ℕ) : Decidable (LooksLarge v) := inferInstanceAs (Decidable (_ ≤ _))

/-- The number that `fe_to_bytes` writes. -/
def written (v : ℕ) : ℕ := if LooksLarge v then v + 2 ^ 256 - p else v

theorem written_lt {v : ℕ} (hv : v < p) : written v < 2 ^ 256 := by
  have hp := p_add
  rw [written]
  split_ifs <;> omega

theorem subPrimeBytes_eq {b : List UInt8} (hb : b.length = 32) (hv : leVal b < p) :
    subPrimeBytes b = leBytes 32 (written (leVal b)) := by
  have hlen : b.length = (primeBytes 32).length := by rw [hb, length_primeBytes]
  have hcmp : compareHigh (b.take 31).reverse (primeBytes 31).reverse ≠ .lt ↔ LooksLarge (leVal b) := by
    rw [compareHigh_ne_lt (by rw [length_primeBytes, List.length_take, hb]; rfl), leVal_primeBytes_low, leVal_take,
      LooksLarge]
    rfl
  rw [subPrimeBytes, written]
  by_cases hlarge : LooksLarge (leVal b)
  · rw [if_pos (hcmp.mpr hlarge), if_pos hlarge]
    obtain ⟨hle, hsub⟩ := leVal_subBytes hlen (b := 0) (by decide)
    have hborrow : (subBytes 0 b (primeBytes 32)).2.toNat = 1 := by
      have hne : (subBytes 0 b (primeBytes 32)).2 ≠ 0 := by
        rw [Ne, subBytes_borrow_eq_zero hlen, leVal_primeBytes]
        omega
      have hne' : (subBytes 0 b (primeBytes 32)).2.toNat ≠ 0 := fun h => hne (UInt16.toNat_inj.mp h)
      omega
    rw [hborrow, leVal_primeBytes, hb] at hsub
    have hzero : (0 : UInt16).toNat = 0 := rfl
    have hval : leVal (subBytes 0 b (primeBytes 32)).1 = leVal b + 2 ^ 256 - p := by
      rw [hzero] at hsub
      omega
    rw [← hval]
    exact eq_leBytes (by rw [length_subBytes hlen, hb])
  · rw [if_neg (fun h => hlarge (hcmp.mp h)), if_neg hlarge]
    exact eq_leBytes hb

/-- **What `fe_to_bytes` writes.** -/
theorem feToBytes_eq {r : Fe} (hr : Fe.Below (2 ^ 63) r) : feToBytes r = leBytes 32 (written (Fe.val r % p)) := by
  obtain ⟨hbelow, n, hval⟩ := carried_spec hr
  obtain ⟨hbelow', hval'⟩ := subPrime_spec hbelow
  have hmod : Fe.val (carryLimbs (carryLimbs (foldTop r))) % p = Fe.val r % p := by
    rw [← hval, Nat.add_mul_mod_self_right]
  have hbytes := leVal_limbBytes hbelow'
  rw [hval', hmod] at hbytes
  rw [feToBytes, foldl_range_two carryLimbs, ← hbytes]
  refine subPrimeBytes_eq (length_limbBytes _) ?_
  rw [hbytes]
  exact Nat.mod_lt _ (by decide)

/-- Different numbers below the prime are written differently. -/
theorem written_inj {v w : ℕ} (hv : v < p) (hw : w < p) (h : written v = written w) : v = w := by
  have hp := p_add
  rw [written, written] at h
  split_ifs at h <;> omega

/-- The encodings of two elements are equal exactly if they are congruent. -/
theorem feToBytes_eq_iff {r s : Fe} (hr : Fe.Below (2 ^ 63) r) (hs : Fe.Below (2 ^ 63) s) :
    feToBytes r = feToBytes s ↔ Fe.val r ≡ Fe.val s [MOD p] := by
  have hlt (x : ℕ) : x % p < p := Nat.mod_lt _ (by decide)
  rw [feToBytes_eq hr, feToBytes_eq hs]
  constructor
  · intro h
    have h' := leBytes_inj h
    have hpow : 256 ^ 32 = 2 ^ 256 := by norm_num
    rw [hpow, Nat.mod_eq_of_lt (written_lt (hlt _)), Nat.mod_eq_of_lt (written_lt (hlt _))] at h'
    exact written_inj (hlt _) (hlt _) h'
  · intro h
    rw [show Fe.val r % p = Fe.val s % p from h]

/-! ## Decoding -/

theorem toNat_or_shift {a b k : UInt64} {n : ℕ} (hn : k.toNat = n) (hk : n ≤ 56) (ha : a.toNat < 2 ^ n)
    (hb : b.toNat < 256) : (a ||| b <<< k).toNat = a.toNat + 2 ^ n * b.toNat := by
  have hb' : b.toNat < 2 ^ (64 - k.toNat) :=
    hb.trans_le (Nat.pow_le_pow_right (n := 2) (by decide) (show 8 ≤ 64 - k.toNat by omega))
  rw [UInt64.toNat_or, toNat_shiftLeft_lt (by omega) hb', hn, or_shiftLeft_eq_add ha, Nat.mul_comm]

/-- A limb from the bytes that lie on it: `n` bits, five bytes, and what is above. -/
theorem toNat_limb {x c0 c1 c2 c3 c4 y k0 k1 k2 k3 k4 k5 : UInt64} {n : ℕ} (hn : n ≤ 8) (h0 : k0.toNat = n)
    (h1 : k1.toNat = n + 8) (h2 : k2.toNat = n + 16) (h3 : k3.toNat = n + 24) (h4 : k4.toNat = n + 32)
    (h5 : k5.toNat = n + 40) (hx : x.toNat < 2 ^ n) (hc0 : c0.toNat < 256) (hc1 : c1.toNat < 256)
    (hc2 : c2.toNat < 256) (hc3 : c3.toNat < 256) (hc4 : c4.toNat < 256) (hy : y.toNat < 256) :
    (x ||| c0 <<< k0 ||| c1 <<< k1 ||| c2 <<< k2 ||| c3 <<< k3 ||| c4 <<< k4 ||| y <<< k5).toNat =
      x.toNat + 2 ^ n * (c0.toNat + 256 * (c1.toNat + 256 * (c2.toNat + 256 * (c3.toNat + 256 * (c4.toNat +
        256 * y.toNat))))) := by
  have hpow (m : ℕ) : 2 ^ (m + 8) = 2 ^ m * 256 := pow_add 2 m 8
  have hstep {a b m : ℕ} (ha : a < 2 ^ m) (hb : b < 256) : a + 2 ^ m * b < 2 ^ (m + 8) := by
    have hmul : 2 ^ m * b + 2 ^ m ≤ 2 ^ m * 256 := by
      rw [← Nat.mul_succ]
      exact Nat.mul_le_mul_left _ hb
    rw [hpow]
    omega
  have e0 := toNat_or_shift h0 (by omega) hx hc0
  have b0 := hstep hx hc0
  rw [← e0] at b0
  have e1 := toNat_or_shift h1 (by omega) b0 hc1
  have b1 := hstep b0 hc1
  rw [← e1] at b1
  have e2 := toNat_or_shift h2 (by omega) b1 hc2
  have b2 := hstep b1 hc2
  rw [← e2] at b2
  have e3 := toNat_or_shift h3 (by omega) b2 hc3
  have b3 := hstep b2 hc3
  rw [← e3] at b3
  have e4 := toNat_or_shift h4 (by omega) b3 hc4
  have b4 := hstep b3 hc4
  rw [← e4] at b4
  have e5 := toNat_or_shift h5 (by omega) b4 hy
  rw [e5, e4, e3, e2, e1, e0, hpow (n + 32), hpow (n + 24), hpow (n + 16), hpow (n + 8), hpow n]
  ring

theorem limb_lt {x c0 c1 c2 c3 c4 y n m : ℕ} (hx : x < 2 ^ n) (h0 : c0 < 256) (h1 : c1 < 256)
    (h2 : c2 < 256) (h3 : c3 < 256) (h4 : c4 < 256) (hy : y < 2 ^ m) :
    x + 2 ^ n * (c0 + 256 * (c1 + 256 * (c2 + 256 * (c3 + 256 * (c4 + 256 * y))))) < 2 ^ (n + m + 40) := by
  obtain ⟨w, hw⟩ : ∃ w, w = c0 + 256 * (c1 + 256 * (c2 + 256 * (c3 + 256 * (c4 + 256 * y)))) := ⟨_, rfl⟩
  have hwm : w + 1 ≤ 2 ^ 40 * 2 ^ m := by
    have hmul : 2 ^ 40 * (y + 1) ≤ 2 ^ 40 * 2 ^ m := Nat.mul_le_mul_left _ hy
    omega
  rw [← hw]
  calc x + 2 ^ n * w < 2 ^ n + 2 ^ n * w := Nat.add_lt_add_right hx _
    _ = 2 ^ n * (w + 1) := by ring
    _ ≤ 2 ^ n * (2 ^ 40 * 2 ^ m) := Nat.mul_le_mul_left _ hwm
    _ = 2 ^ (n + m + 40) := by ring

theorem top_lt {x y : ℕ} (hx : x < 2 ^ 50) (hy : y < 2) : x + 2 ^ 50 * y < 2 ^ 51 := by
  omega

theorem eq_thirtyTwo {b : List UInt8} (hb : b.length = 32) :
    b = (List.range 32).map fun i => b.getD i 0 := by
  apply List.ext_getElem
  · rw [hb]
    rfl
  · intro i hi _
    rw [List.getElem_map, List.getElem_range, List.getD_eq_getElem _ _ hi]

/-- The bytes of the limbs, with the highest bit apart. -/
theorem bytes_of_limbs (c : ℕ → ℕ) (h19 : c 19 < 256) :
    c 0 + 256 * (c 1 + 256 * (c 2 + 256 * (c 3 + 256 * (c 4 + 256 * (c 5 + 256 * (c 6 + 256 * (c 7 + 256 * (c 8 +
      256 * (c 9 + 256 * (c 10 + 256 * (c 11 + 256 * (c 12 + 256 * (c 13 + 256 * (c 14 + 256 * (c 15 + 256 * (c 16 +
      256 * (c 17 + 256 * (c 18 + 256 * (c 19 + 256 * (c 20 + 256 * (c 21 + 256 * (c 22 + 256 * (c 23 + 256 * (c 24 +
      256 * (c 25 + 256 * (c 26 + 256 * (c 27 + 256 * (c 28 + 256 * (c 29 + 256 * (c 30 +
      256 * (c 31 + 256 * 0))))))))))))))))))))))))))))))) =
    c 0 + 2 ^ 8 * (c 1 + 256 * (c 2 + 256 * (c 3 + 256 * (c 4 + 256 * (c 5 + 256 * (c 6 % 8)))))) +
      2 ^ 51 * (c 6 / 8 + 2 ^ 5 * (c 7 + 256 * (c 8 + 256 * (c 9 + 256 * (c 10 + 256 * (c 11 + 256 * (c 12 % 64))))))) +
      2 ^ 102 * (c 12 / 64 + 2 ^ 2 * (c 13 + 256 * (c 14 + 256 * (c 15 + 256 * (c 16 + 256 * (c 17 + 256 * c 18))))) +
        2 ^ 50 * (c 19 % 2)) +
      2 ^ 153 * (c 19 / 2 % 128 + 2 ^ 7 * (c 20 + 256 * (c 21 + 256 * (c 22 + 256 * (c 23 + 256 * (c 24 +
        256 * (c 25 % 16))))))) +
      2 ^ 204 * (c 25 / 16 + 2 ^ 4 * (c 26 + 256 * (c 27 + 256 * (c 28 + 256 * (c 29 + 256 * (c 30 +
        256 * (c 31 % 128))))))) + 2 ^ 255 * (c 31 / 128) := by
  have d6 := (Nat.mod_add_div (c 6) 8).symm
  have d12 := (Nat.mod_add_div (c 12) 64).symm
  have d19 := (Nat.mod_add_div (c 19) 2).symm
  have d25 := (Nat.mod_add_div (c 25) 16).symm
  have d31 := (Nat.mod_add_div (c 31) 128).symm
  rw [Nat.mod_eq_of_lt (show c 19 / 2 < 128 by omega)]
  linear_combination 2 ^ 48 * d6 + 2 ^ 96 * d12 + 2 ^ 152 * d19 + 2 ^ 200 * d25 + 2 ^ 248 * d31

section Words

variable (c : ℕ → UInt8) (b : ℕ → UInt64) (hb : b = fun i => (c i).toUInt64)

include hb

theorem toNat_word (i : ℕ) : (b i).toNat = (c i).toNat := by
  rw [hb, UInt8.toNat_toUInt64]

theorem toNat_word_lt (i : ℕ) : (b i).toNat < 256 := (toNat_word c b hb i).trans_lt (c i).toNat_lt

theorem toNat_word_and (i : ℕ) (m : UInt64) (r : ℕ) (hm : m.toNat = 2 ^ r - 1) :
    (b i &&& m).toNat = (c i).toNat % 2 ^ r := by
  rw [toNat_and_mask _ m r hm, toNat_word c b hb]

theorem toNat_word_shift (i : ℕ) (k : UInt64) (hk : k.toNat < 64) : (b i >>> k).toNat = (c i).toNat / 2 ^ k.toNat := by
  rw [toNat_shiftRight_lt _ k hk, toNat_word c b hb]

theorem limb0_of_bytes :
    (b 0 ||| b 1 <<< 8 ||| b 2 <<< 16 ||| b 3 <<< 24 ||| b 4 <<< 32 ||| b 5 <<< 40 ||| (b 6 &&& 7) <<< 48).toNat =
      (c 0).toNat + 2 ^ 8 * ((c 1).toNat + 256 * ((c 2).toNat + 256 * ((c 3).toNat + 256 * ((c 4).toNat +
        256 * ((c 5).toNat + 256 * ((c 6).toNat % 8)))))) := by
  have hlt := toNat_word_lt c b hb
  have y : (b 6 &&& 7).toNat = (c 6).toNat % 8 := toNat_word_and c b hb 6 7 3 (by decide)
  rw [toNat_limb (n := 8) (by decide) rfl rfl rfl rfl rfl rfl (hlt 0) (hlt 1) (hlt 2) (hlt 3) (hlt 4) (hlt 5)
    (y.trans_lt (by omega)), y]
  simp only [toNat_word c b hb]

theorem limb1_of_bytes :
    (b 6 >>> 3 ||| b 7 <<< 5 ||| b 8 <<< 13 ||| b 9 <<< 21 ||| b 10 <<< 29 ||| b 11 <<< 37 |||
      (b 12 &&& 0x3F) <<< 45).toNat =
      (c 6).toNat / 8 + 2 ^ 5 * ((c 7).toNat + 256 * ((c 8).toNat + 256 * ((c 9).toNat + 256 * ((c 10).toNat +
        256 * ((c 11).toNat + 256 * ((c 12).toNat % 64)))))) := by
  have hlt := toNat_word_lt c b hb
  have x : (b 6 >>> 3).toNat = (c 6).toNat / 8 := toNat_word_shift c b hb 6 3 (by decide)
  have y : (b 12 &&& 0x3F).toNat = (c 12).toNat % 64 := toNat_word_and c b hb 12 0x3F 6 (by decide)
  have h6 := (c 6).toNat_lt
  rw [toNat_limb (n := 5) (by decide) rfl rfl rfl rfl rfl rfl (x.trans_lt (by omega)) (hlt 7) (hlt 8) (hlt 9) (hlt 10)
    (hlt 11) (y.trans_lt (by omega)), x, y]
  simp only [toNat_word c b hb]

theorem limb2_of_bytes :
    (b 12 >>> 6 ||| b 13 <<< 2 ||| b 14 <<< 10 ||| b 15 <<< 18 ||| b 16 <<< 26 ||| b 17 <<< 34 ||| b 18 <<< 42 |||
      (b 19 &&& 1) <<< 50).toNat =
      (c 12).toNat / 64 + 2 ^ 2 * ((c 13).toNat + 256 * ((c 14).toNat + 256 * ((c 15).toNat + 256 * ((c 16).toNat +
        256 * ((c 17).toNat + 256 * (c 18).toNat))))) + 2 ^ 50 * ((c 19).toNat % 2) := by
  have hlt := toNat_word_lt c b hb
  have x : (b 12 >>> 6).toNat = (c 12).toNat / 64 := toNat_word_shift c b hb 12 6 (by decide)
  have y : (b 19 &&& 1).toNat = (c 19).toNat % 2 := toNat_word_and c b hb 19 1 1 (by decide)
  have h12 := (c 12).toNat_lt
  have hx : (b 12 >>> 6).toNat < 2 ^ 2 := x.trans_lt (by omega)
  have hlow : (b 12 >>> 6 ||| b 13 <<< 2 ||| b 14 <<< 10 ||| b 15 <<< 18 ||| b 16 <<< 26 ||| b 17 <<< 34 |||
      b 18 <<< 42).toNat = _ :=
    toNat_limb (n := 2) (by decide) rfl rfl rfl rfl rfl rfl hx (hlt 13) (hlt 14) (hlt 15) (hlt 16) (hlt 17) (hlt 18)
  have hlow' := limb_lt (n := 2) (m := 8) hx (hlt 13) (hlt 14) (hlt 15) (hlt 16) (hlt 17) (hlt 18)
  rw [toNat_or_shift (n := 50) rfl (by decide) (hlow.trans_lt hlow') (y.trans_lt (by omega)), hlow, x, y]
  simp only [toNat_word c b hb]

theorem limb3_of_bytes :
    ((b 19 >>> 1 &&& (0x7F : UInt64)) ||| b 20 <<< 7 ||| b 21 <<< 15 ||| b 22 <<< 23 ||| b 23 <<< 31 ||| b 24 <<< 39 |||
      (b 25 &&& 0x0F) <<< 47).toNat =
      (c 19).toNat / 2 % 128 + 2 ^ 7 * ((c 20).toNat + 256 * ((c 21).toNat + 256 * ((c 22).toNat + 256 * ((c 23).toNat +
        256 * ((c 24).toNat + 256 * ((c 25).toNat % 16)))))) := by
  have hlt := toNat_word_lt c b hb
  have x : (b 19 >>> 1 &&& (0x7F : UInt64)).toNat = (c 19).toNat / 2 % 128 := by
    rw [toNat_and_mask _ _ 7 (by decide), toNat_word_shift c b hb 19 1 (by decide)]
    rfl
  have y : (b 25 &&& 0x0F).toNat = (c 25).toNat % 16 := toNat_word_and c b hb 25 0x0F 4 (by decide)
  rw [toNat_limb (n := 7) (by decide) rfl rfl rfl rfl rfl rfl (x.trans_lt (by omega)) (hlt 20) (hlt 21) (hlt 22) (hlt 23)
    (hlt 24) (y.trans_lt (by omega)), x, y]
  simp only [toNat_word c b hb]

theorem limb4_of_bytes :
    (b 25 >>> 4 ||| b 26 <<< 4 ||| b 27 <<< 12 ||| b 28 <<< 20 ||| b 29 <<< 28 ||| b 30 <<< 36 |||
      (b 31 &&& 0x7F) <<< 44).toNat =
      (c 25).toNat / 16 + 2 ^ 4 * ((c 26).toNat + 256 * ((c 27).toNat + 256 * ((c 28).toNat + 256 * ((c 29).toNat +
        256 * ((c 30).toNat + 256 * ((c 31).toNat % 128)))))) := by
  have hlt := toNat_word_lt c b hb
  have x : (b 25 >>> 4).toNat = (c 25).toNat / 16 := toNat_word_shift c b hb 25 4 (by decide)
  have y : (b 31 &&& 0x7F).toNat = (c 31).toNat % 128 := toNat_word_and c b hb 31 0x7F 7 (by decide)
  have h25 := (c 25).toNat_lt
  rw [toNat_limb (n := 4) (by decide) rfl rfl rfl rfl rfl rfl (x.trans_lt (by omega)) (hlt 26) (hlt 27) (hlt 28) (hlt 29)
    (hlt 30) (y.trans_lt (by omega)), x, y]
  simp only [toNat_word c b hb]

end Words

theorem limbs_of_bytes (c : ℕ → UInt8) (v : Fe) (b : ℕ → UInt64) (hb : b = fun i => (c i).toUInt64)
    (h0 : v[0] = (b 0 ||| b 1 <<< 8 ||| b 2 <<< 16 ||| b 3 <<< 24 ||| b 4 <<< 32 ||| b 5 <<< 40 ||| (b 6 &&& 7) <<< 48))
    (h1 : v[1] = (b 6 >>> 3 ||| b 7 <<< 5 ||| b 8 <<< 13 ||| b 9 <<< 21 ||| b 10 <<< 29 ||| b 11 <<< 37 |||
      (b 12 &&& 0x3F) <<< 45))
    (h2 : v[2] = (b 12 >>> 6 ||| b 13 <<< 2 ||| b 14 <<< 10 ||| b 15 <<< 18 ||| b 16 <<< 26 ||| b 17 <<< 34 |||
      b 18 <<< 42 ||| (b 19 &&& 1) <<< 50))
    (h3 : v[3] = ((b 19 >>> 1 &&& (0x7F : UInt64)) ||| b 20 <<< 7 ||| b 21 <<< 15 ||| b 22 <<< 23 ||| b 23 <<< 31 |||
      b 24 <<< 39 ||| (b 25 &&& 0x0F) <<< 47))
    (h4 : v[4] = (b 25 >>> 4 ||| b 26 <<< 4 ||| b 27 <<< 12 ||| b 28 <<< 20 ||| b 29 <<< 28 ||| b 30 <<< 36 |||
      (b 31 &&& 0x7F) <<< 44)) :
    Fe.val v = leVal ((List.range 32).map c) % 2 ^ 255 := by
  have l0 := (congrArg UInt64.toNat h0).trans (limb0_of_bytes c b hb)
  have l1 := (congrArg UInt64.toNat h1).trans (limb1_of_bytes c b hb)
  have l2 := (congrArg UInt64.toNat h2).trans (limb2_of_bytes c b hb)
  have l3 := (congrArg UInt64.toNat h3).trans (limb3_of_bytes c b hb)
  have l4 := (congrArg UInt64.toNat h4).trans (limb4_of_bytes c b hb)
  have g (i : ℕ) : (c i).toNat < 256 := (c i).toNat_lt
  have hmod (i : ℕ) {k : ℕ} (hk : 0 < k) : (c i).toNat % k < k := Nat.mod_lt _ hk
  have hdiv (i k m : ℕ) (hk : 256 ≤ k * m) : (c i).toNat / k < m := Nat.div_lt_of_lt_mul ((g i).trans_le hk)
  have k0 := l0.trans_lt (limb_lt (n := 8) (m := 3) (g 0) (g 1) (g 2) (g 3) (g 4) (g 5) (hmod 6 (by decide)))
  have k1 := l1.trans_lt
    (limb_lt (n := 5) (m := 6) (hdiv 6 8 (2 ^ 5) (by decide)) (g 7) (g 8) (g 9) (g 10) (g 11) (hmod 12 (by decide)))
  have hl2 := limb_lt (n := 2) (m := 8) (hdiv 12 64 (2 ^ 2) (by decide)) (g 13) (g 14) (g 15) (g 16) (g 17) (g 18)
  have k2 := l2.trans_lt (top_lt hl2 (hmod 19 (by decide)))
  have k3 := l3.trans_lt
    (limb_lt (n := 7) (m := 4) (Nat.mod_lt _ (by decide)) (g 20) (g 21) (g 22) (g 23) (g 24) (hmod 25 (by decide)))
  have k4 := l4.trans_lt
    (limb_lt (n := 4) (m := 7) (hdiv 25 16 (2 ^ 4) (by decide)) (g 26) (g 27) (g 28) (g 29) (g 30) (hmod 31 (by decide)))
  have hsum : leVal ((List.range 32).map c) = Fe.val v + 2 ^ 255 * ((c 31).toNat / 128) := by
    show leVal
      [c 0, c 1, c 2, c 3, c 4, c 5, c 6, c 7, c 8, c 9, c 10, c 11, c 12, c 13, c 14, c 15, c 16,
        c 17, c 18, c 19, c 20, c 21, c 22, c 23, c 24, c 25, c 26, c 27, c 28, c 29, c 30, c 31] = _
    simp only [leVal_cons, leVal_nil]
    rw [Fe.val_eq, l0, l1, l2, l3, l4]
    exact bytes_of_limbs (fun i => (c i).toNat) (g 19)
  rw [hsum, Nat.add_mul_mod_self_left, Nat.mod_eq_of_lt (Fe.Below.val_lt ⟨k0, k1, k2, k3, k4⟩)]

/-- **What `fe_from_bytes` reads.** The highest bit is left out. -/
theorem feFromBytes_spec {b : List UInt8} (hb : b.length = 32) : Fe.val (feFromBytes b) = leVal b % 2 ^ 255 := by
  have h := limbs_of_bytes (fun i => b.getD i 0) (feFromBytes b) _ rfl rfl rfl rfl rfl rfl
  rwa [← eq_thirtyTwo hb] at h

/-! ## Round trips -/

/-- The element is written as the number below the prime, and read back as a congruent one. -/
def Encodes (r : Fe) : Prop :=
  feToBytes r = leBytes 32 (Fe.val r % p) ∧ Fe.val (feFromBytes (feToBytes r)) ≡ Fe.val r [MOD p]

theorem encodes_iff {r : Fe} (hr : Fe.Below (2 ^ 63) r) : Encodes r ↔ ¬LooksLarge (Fe.val r % p) := by
  have hlt : Fe.val r % p < p := Nat.mod_lt _ (by decide)
  have hp := p_add
  rw [Encodes, feToBytes_eq hr]
  constructor
  · rintro ⟨h, -⟩ hlarge
    have h' := leBytes_inj h
    have hpow : 256 ^ 32 = 2 ^ 256 := by norm_num
    rw [hpow, Nat.mod_eq_of_lt (written_lt hlt), Nat.mod_eq_of_lt (show Fe.val r % p < 2 ^ 256 by omega), written,
      if_pos hlarge] at h'
    omega
  · intro hsmall
    rw [written, if_neg hsmall]
    refine ⟨rfl, ?_⟩
    rw [feFromBytes_spec (length_leBytes _ _), leVal_leBytes, show 256 ^ 32 = 2 ^ 256 by norm_num,
      Nat.mod_eq_of_lt (show Fe.val r % p < 2 ^ 256 by omega), Nat.mod_eq_of_lt (show Fe.val r % p < 2 ^ 255 by omega)]
    exact Nat.mod_modEq _ _

/-- **Encodings.** They are right, and congruence is equality of them, exactly if neither number below the prime has 31
bytes that are not below those of the prime. -/
theorem encodings_iff {r s : Fe} (hr : Fe.Below (2 ^ 63) r) (hs : Fe.Below (2 ^ 63) s) :
    (Encodes r ∧ Encodes s ∧ (Fe.val r ≡ Fe.val s [MOD p] ↔ feToBytes r = feToBytes s)) ↔
      ¬LooksLarge (Fe.val r % p) ∧ ¬LooksLarge (Fe.val s % p) := by
  rw [encodes_iff hr, encodes_iff hs]
  constructor
  · rintro ⟨h, h', -⟩
    exact ⟨h, h'⟩
  · rintro ⟨h, h'⟩
    exact ⟨h, h', (feToBytes_eq_iff hr hs).symm⟩

/-- The limbs of `2 ^ 248 - 1`. -/
def largeElement : Fe := #v[0x7FFFFFFFFFFFF, 0x7FFFFFFFFFFFF, 0x7FFFFFFFFFFFF, 0x7FFFFFFFFFFFF, 0xFFFFFFFFFFF]

theorem encodings_iff_one :
    (Encodes feOne ∧ Encodes feZero ∧ (Fe.val feOne ≡ Fe.val feZero [MOD p] ↔ feToBytes feOne = feToBytes feZero)) ↔
      ¬LooksLarge (Fe.val feOne % p) ∧ ¬LooksLarge (Fe.val feZero % p) :=
  encodings_iff ⟨by decide, by decide, by decide, by decide, by decide⟩
    ⟨by decide, by decide, by decide, by decide, by decide⟩

theorem not_encodes_largeElement : ¬Encodes largeElement := by
  have hval : Fe.val largeElement = 2 ^ 248 - 1 := by
    rw [Fe.val_eq]
    decide
  rw [encodes_iff ⟨by decide, by decide, by decide, by decide, by decide⟩, hval]
  decide

end SneppxAlg.Ed25519

/-!
# The points of `ed25519.c`

On points with tight coordinates `point_add` and `point_double` are the sum of the curve, with all
coordinates times 4, and leave tight coordinates. The identity guard of `point_double` writes `1`
into all limbs of two coordinates, which is the neutral point with another common factor. It fires
for the neutral point only, whether it looks at the argument or, as in `point_scalar_mult`, at the
result.
-/

namespace SneppxAlg.Ed25519

open Lib.Bytes Lib.TwistedEdwards

/-! ## The field -/

/-- The small primes that the test of `p` needs. -/
def smallPrimes : List ℕ :=
  [2, 3, 5, 7, 13, 19, 31, 47, 107, 127, 223, 353, 2437, 4153, 57467, 65147, 75707, 132049, 430751, 569003, 1923133,
    8574133]

theorem prime_of_mem_smallPrimes : ∀ q ∈ smallPrimes, q.Prime := by
  simp only [smallPrimes, List.forall_mem_cons]
  norm_num

/-- The chain of tests that ends in `p`. -/
def primeChain : List Lib.Lucas.Link :=
  [⟨2773320623, 5, [2, 2437, 569003]⟩,
    ⟨72106336199, 7, [2, 13, 2773320623]⟩,
    ⟨1919519569386763, 2, [2, 3, 7, 19, 47, 47, 127, 8574133]⟩,
    ⟨31757755568855353, 10, [2, 2, 2, 3, 31, 107, 223, 4153, 430751]⟩,
    ⟨75445702479781427272750846543864801, 7, [2, 2, 2, 2, 2, 3, 3, 5, 5, 75707, 72106336199, 1919519569386763]⟩,
    ⟨74058212732561358302231226437062788676166966415465897661863160754340907, 2,
      [2, 3, 353, 57467, 132049, 1923133, 31757755568855353, 75445702479781427272750846543864801]⟩,
    ⟨p, 2, [2, 2, 3, 65147, 74058212732561358302231226437062788676166966415465897661863160754340907]⟩]

/-- **The prime is one.** -/
theorem prime_p : Nat.Prime p := by
  have hmem : p ∈ Lib.Lucas.primes 256 smallPrimes primeChain := by decide +kernel
  exact Lib.Lucas.prime_of_mem_primes prime_of_mem_smallPrimes primeChain p hmem

instance : Fact p.Prime := ⟨prime_p⟩

/-- The element of the field. -/
def Fe.toZ (a : Fe) : ZMod p := Fe.val a

theorem toZ_feAdd {a b : Fe} {m n : ℕ} (ha : Fe.Below m a) (hb : Fe.Below n b) (hmn : m + n ≤ 2 ^ 64) :
    (feAdd a b).toZ = a.toZ + b.toZ := by
  rw [Fe.toZ, (feAdd_spec ha hb hmn).2, Nat.cast_add]
  rfl

theorem toZ_feSub {a b : Fe} (ha : Fe.Below (2 ^ 60) a) (hb : Fe.Tight b) : (feSub a b).toZ = a.toZ - b.toZ := by
  obtain ⟨n, -, h⟩ := (feSub_spec ha hb).1
  have h' := congrArg (Nat.cast : ℕ → ZMod p) h
  rw [Nat.cast_add, Nat.cast_add, Nat.cast_mul, ZMod.natCast_self, mul_zero, add_zero] at h'
  exact eq_sub_of_add_eq h'

theorem toZ_feMul {a b : Fe} (ha : Fe.Below (2 ^ 54) a) (hb : Fe.Below (2 ^ 54) b) :
    (feMul a b).toZ = a.toZ * b.toZ := by
  obtain ⟨n, h⟩ := (feMul_spec ha hb).2
  have h' := congrArg (Nat.cast : ℕ → ZMod p) h
  rw [Nat.cast_add, Nat.cast_mul, Nat.cast_mul, ZMod.natCast_self, mul_zero, add_zero] at h'
  exact h'

theorem Fe.toZ_eq_zero_iff (a : Fe) : a.toZ = 0 ↔ Fe.val a % p = 0 := by
  rw [Fe.toZ, ZMod.natCast_eq_zero_iff, Nat.dvd_iff_mod_eq_zero]

/-! ### The constants -/

theorem val_d : Fe.val d = 37095705934669439343138083508754565189542113879843219016388785533085940283555 := by
  rw [Fe.val_eq]
  decide

theorem val_d2 : Fe.val d2 = 16295367250680780974490674513165176452449235426866156013048779062215315747161 := by
  rw [Fe.val_eq]
  decide

theorem d_eq : 121666 * d.toZ = -121665 := by
  rw [Fe.toZ, val_d, eq_neg_iff_add_eq_zero]
  norm_cast

theorem toZ_d2 : d2.toZ = 2 * d.toZ := by
  rw [Fe.toZ, Fe.toZ, val_d, val_d2]
  norm_cast

theorem tight_d2 : Fe.Tight d2 := ⟨by decide, by decide, by decide, by decide, by decide⟩

theorem two_ne : (2 : ZMod p) ≠ 0 := by
  have h : ((2 : ℕ) : ZMod p) ≠ 0 := by
    rw [Ne, ZMod.natCast_eq_zero_iff]
    decide
  exact h

/-- `d` is no square. -/
theorem sq_ne_d (r : ZMod p) : r ^ 2 ≠ d.toZ := by
  have hpow : d.toZ ^ (p / 2) = -1 := by
    have h : Lib.Lucas.mulPow p 255 1 (Fe.val d) (p / 2) = p - 1 := by
      rw [val_d]
      decide +kernel
    rw [Lib.Lucas.mulPow_eq p (by decide), Nat.one_mul] at h
    have h' := congrArg (Nat.cast : ℕ → ZMod p) h
    rw [ZMod.natCast_mod, Nat.cast_pow, Nat.cast_sub (by decide), ZMod.natCast_self, Nat.cast_one, zero_sub] at h'
    exact h'
  have hne : d.toZ ≠ 0 := by
    rw [Ne, Fe.toZ_eq_zero_iff, val_d]
    decide
  intro hr
  have hone := (ZMod.euler_criterion p hne).mp ⟨r, by rw [← hr, sq]⟩
  rw [hpow] at hone
  exact two_ne (by linear_combination -hone)

theorem exists_sq_eq_neg_one : ∃ i : ZMod p, i ^ 2 = -1 := by
  obtain ⟨i, hi⟩ := (ZMod.exists_sq_eq_neg_one_iff (p := p)).mpr (by decide)
  exact ⟨i, by rw [sq, hi]⟩

/-- **The zero test.** -/
theorem ctIsZero_feToBytes {r : Fe} (hr : Fe.Below (2 ^ 63) r) : ctIsZero (feToBytes r) = true ↔ r.toZ = 0 := by
  have hlt : Fe.val r % p < p := Nat.mod_lt _ (by decide)
  rw [ctIsZero, beq_iff_eq, foldl_or_eq_zero, feToBytes_eq hr, leVal_leBytes, Fe.toZ_eq_zero_iff,
    Nat.mod_eq_of_lt ((written_lt hlt).trans_eq (by norm_num)), written]
  constructor
  · rintro ⟨-, h⟩
    have hp := p_add
    split_ifs at h <;> omega
  · intro h
    rw [h]
    decide

/-! ## Points -/

/-- What the operations leave. -/
structure Point.Tight (P : Point) : Prop where
  x : Fe.Tight P.x
  y : Fe.Tight P.y
  z : Fe.Tight P.z
  t : Fe.Tight P.t

/-- The coordinates in the field. -/
def Point.toExt (P : Point) : Ext (ZMod p) := ⟨P.x.toZ, P.y.toZ, P.z.toZ, P.t.toZ⟩

theorem below_feAdd {a b : Fe} (ha : Fe.Tight a) (hb : Fe.Tight b) : Fe.Below (2 ^ 53) (feAdd a b) :=
  (feAdd_spec ha.below hb.below (by decide)).1.mono (by decide)

theorem Fe.Tight.below54 {a : Fe} (ha : Fe.Tight a) : Fe.Below (2 ^ 54) a := ha.below.mono (by decide)

/-- The last step of both operations: the products of two out of four elements. -/
theorem products_spec {e f g h : Fe} (he : Fe.Below (2 ^ 54) e) (hf : Fe.Below (2 ^ 54) f)
    (hg : Fe.Below (2 ^ 54) g) (hh : Fe.Below (2 ^ 54) h) :
    Point.Tight ⟨feMul e f, feMul g h, feMul f g, feMul e h⟩ ∧
      Point.toExt ⟨feMul e f, feMul g h, feMul f g, feMul e h⟩ =
        ⟨e.toZ * f.toZ, g.toZ * h.toZ, f.toZ * g.toZ, e.toZ * h.toZ⟩ := by
  constructor
  · exact ⟨(feMul_spec he hf).1, (feMul_spec hg hh).1, (feMul_spec hf hg).1, (feMul_spec he hh).1⟩
  · rw [Point.toExt, toZ_feMul he hf, toZ_feMul hg hh, toZ_feMul hf hg, toZ_feMul he hh]

/-- What both operations multiply, from tight elements `a`, `b`, `c` and `d`. -/
theorem combine_spec {a c e f : Fe} (ha : Fe.Tight a) (hc : Fe.Tight c) (he : Fe.Tight e)
    (hf : Fe.Tight f) :
    (Fe.Below (2 ^ 54) (feSub c a) ∧ (feSub c a).toZ = c.toZ - a.toZ) ∧
      (Fe.Below (2 ^ 54) (feAdd c a) ∧ (feAdd c a).toZ = c.toZ + a.toZ) ∧
      (Fe.Below (2 ^ 54) (feSub (feAdd f f) e) ∧
        (feSub (feAdd f f) e).toZ = f.toZ + f.toZ - e.toZ) ∧
      (Fe.Below (2 ^ 54) (feAdd (feAdd f f) e) ∧
        (feAdd (feAdd f f) e).toZ = f.toZ + f.toZ + e.toZ) := by
  have hff := below_feAdd hf hf
  have hff' : (feAdd f f).toZ = f.toZ + f.toZ := toZ_feAdd hf.below hf.below (by decide)
  refine ⟨⟨?_, ?_⟩, ⟨?_, ?_⟩, ⟨?_, ?_⟩, ⟨?_, ?_⟩⟩
  · exact (feSub_tight hc ha).below54
  · exact toZ_feSub (hc.below.mono (by decide)) ha
  · exact (below_feAdd hc ha).mono (by decide)
  · exact toZ_feAdd hc.below ha.below (by decide)
  · exact (feSub_below hff (by decide) he).mono (by decide)
  · rw [toZ_feSub (hff.mono (by decide)) he, hff']
  · exact (feAdd_spec hff he.below (by decide)).1.mono (by decide)
  · rw [toZ_feAdd hff he.below (by decide), hff']

/-- **The sum.** -/
theorem pointAdd_spec {P Q : Point} (hP : P.Tight) (hQ : Q.Tight) :
    (pointAdd P Q).Tight ∧ (pointAdd P Q).toExt = (add d.toZ P.toExt Q.toExt).scale 4 := by
  have hPsub := feSub_tight hP.y hP.x
  have hQsub := feSub_tight hQ.y hQ.x
  have hPadd := (below_feAdd hP.y hP.x).mono (n := 2 ^ 54) (by decide)
  have hQadd := (below_feAdd hQ.y hQ.x).mono (n := 2 ^ 54) (by decide)
  have ha := (feMul_spec hPsub.below54 hQsub.below54).1
  have hc := (feMul_spec hPadd hQadd).1
  have htt := (feMul_spec hP.t.below54 hQ.t.below54).1
  have he := (feMul_spec htt.below54 tight_d2.below54).1
  have hf := (feMul_spec hP.z.below54 hQ.z.below54).1
  have ha' : (feMul (feSub P.y P.x) (feSub Q.y Q.x)).toZ = (P.y.toZ - P.x.toZ) * (Q.y.toZ - Q.x.toZ) := by
    rw [toZ_feMul hPsub.below54 hQsub.below54, toZ_feSub (hP.y.below.mono (by decide)) hP.x,
      toZ_feSub (hQ.y.below.mono (by decide)) hQ.x]
  have hc' : (feMul (feAdd P.y P.x) (feAdd Q.y Q.x)).toZ = (P.y.toZ + P.x.toZ) * (Q.y.toZ + Q.x.toZ) := by
    rw [toZ_feMul hPadd hQadd, toZ_feAdd hP.y.below hP.x.below (by decide),
      toZ_feAdd hQ.y.below hQ.x.below (by decide)]
  have he' : (feMul (feMul P.t Q.t) d2).toZ = P.t.toZ * Q.t.toZ * (2 * d.toZ) := by
    rw [toZ_feMul htt.below54 tight_d2.below54, toZ_feMul hP.t.below54 hQ.t.below54, toZ_d2]
  have hf' : (feMul P.z Q.z).toZ = P.z.toZ * Q.z.toZ := toZ_feMul hP.z.below54 hQ.z.below54
  obtain ⟨⟨h1, e1⟩, ⟨h2, e2⟩, ⟨h3, e3⟩, ⟨h4, e4⟩⟩ := combine_spec ha hc he hf
  obtain ⟨htight, hcoords⟩ := products_spec h1 h3 h4 h2
  refine ⟨htight, ?_⟩
  rw [e1, e2, e3, e4, ha', hc', he', hf'] at hcoords
  refine hcoords.trans ?_
  apply Ext.ext
  · simp only [Ext.scale, add, Point.toExt]
    ring
  · simp only [Ext.scale, add, Point.toExt]
    ring
  · simp only [Ext.scale, add, Point.toExt]
    ring
  · simp only [Ext.scale, add, Point.toExt]
    ring

/-- Before the guard, the double is the sum of the point and itself, operation by operation. -/
theorem doubleCoords_eq (P : Point) : doubleCoords P = pointAdd P P := rfl

/-! ## The guard -/

theorem maskLimbs_zero (bit : UInt64) (a : Fe) : maskLimbs 0 bit a = a := by
  rw [maskLimbs]
  apply Vector.ext
  intro i hi
  rw [Vector.getElem_map, UInt64.zero_and, UInt64.or_zero]
  exact UInt64.and_neg_one

theorem maskLimbs_ones (bit : UInt64) (a : Fe) :
    maskLimbs 0xffffffffffffffff bit a = Vector.replicate 5 bit := by
  rw [maskLimbs]
  apply Vector.ext
  intro i hi
  rw [Vector.getElem_map, Vector.getElem_replicate]
  have hones : (0xffffffffffffffff : UInt64) = -1 := by decide
  have hnot : ~~~(-1 : UInt64) = 0 := by decide
  rw [hones, hnot, UInt64.and_zero, UInt64.zero_or, UInt64.neg_one_and]

/-- What the guard writes. -/
def guarded : Point :=
  ⟨Vector.replicate 5 0, Vector.replicate 5 1, Vector.replicate 5 1, Vector.replicate 5 0⟩

theorem tight_guarded : guarded.Tight := by
  have h0 : Fe.Tight (Vector.replicate 5 0) := ⟨by decide, by decide, by decide, by decide, by decide⟩
  have h1 : Fe.Tight (Vector.replicate 5 1) := ⟨by decide, by decide, by decide, by decide, by decide⟩
  exact ⟨h0, h1, h1, h0⟩

theorem toExt_guarded : ∃ c : ZMod p, c ≠ 0 ∧ guarded.toExt = ⟨0, c, c, 0⟩ := by
  refine ⟨Fe.toZ (Vector.replicate 5 1), ?_, ?_⟩
  · rw [Ne, Fe.toZ_eq_zero_iff, Fe.val_eq]
    decide
  · have hzero : Fe.toZ (Vector.replicate 5 0) = 0 := by
      rw [Fe.toZ_eq_zero_iff, Fe.val_eq]
      decide
    rw [Point.toExt, guarded]
    dsimp only
    rw [hzero]

/-- **The guard.** -/
theorem identityGuard_eq {P : Point} (hP : P.Tight) (R : Point) :
    identityGuard P R = if P.toExt.x = 0 ∧ P.toExt.y = P.toExt.z then guarded else R := by
  have hcond : (ctIsZero (feToBytes P.x) && ctIsZero (feToBytes (feSub P.y P.z))) = true ↔
      P.toExt.x = 0 ∧ P.toExt.y = P.toExt.z := by
    rw [Bool.and_eq_true, ctIsZero_feToBytes (hP.x.below.mono (by decide)),
      ctIsZero_feToBytes ((feSub_tight hP.y hP.z).below.mono (by decide)),
      toZ_feSub (hP.y.below.mono (by decide)) hP.z, sub_eq_zero]
    rfl
  simp only [identityGuard, hcond]
  split_ifs with h
  · simp only [maskLimbs_ones, guarded]
  · simp only [maskLimbs_zero]

/-- `R` is the sum of `P` and `Q`: tight coordinates that satisfy the two equations and, for points,
are those of the sum. -/
structure IsPointSum (P Q R : Point) : Prop where
  tight : R.Tight
  onCurve : OnCurve d.toZ R.toExt
  isSum : P.toExt.z ≠ 0 → Q.toExt.z ≠ 0 → IsSum d.toZ P.toExt Q.toExt R.toExt

theorem four_ne : (4 : ZMod p) ≠ 0 := by
  rw [show (4 : ZMod p) = 2 * 2 by norm_num]
  exact mul_ne_zero two_ne two_ne

/-- **Sums.** -/
theorem pointAdd_isPointSum {P Q : Point} (hP : P.Tight) (hQ : Q.Tight) (hPc : OnCurve d.toZ P.toExt)
    (hQc : OnCurve d.toZ Q.toExt) : IsPointSum P Q (pointAdd P Q) := by
  obtain ⟨htight, hcoords⟩ := pointAdd_spec hP hQ
  obtain ⟨i, hi⟩ := exists_sq_eq_neg_one
  refine ⟨htight, ?_, fun hPz hQz => ?_⟩
  · rw [hcoords]
    exact (hPc.add hQc).scale 4
  · rw [hcoords]
    exact (isSum_add hi sq_ne_d two_ne hPc hQc hPz hQz).scale four_ne

/-- A sum that is the neutral point may be replaced by what the guard writes. -/
theorem IsPointSum.guarded {P Q R : Point} (h : IsPointSum P Q R) (hx : R.toExt.x = 0)
    (hy : R.toExt.y = R.toExt.z) : IsPointSum P Q guarded := by
  obtain ⟨c, hc, heq⟩ := toExt_guarded
  refine ⟨tight_guarded, ?_, fun hPz hQz => ?_⟩
  · rw [heq]
    exact onCurve_neutral _ c
  · rw [heq]
    exact (h.isSum hPz hQz).neutral hx hy hc

/-- **Doubles**, with the guard on the argument. -/
theorem pointDouble_isPointSum {P : Point} (hP : P.Tight) (hPc : OnCurve d.toZ P.toExt) :
    IsPointSum P P (pointDouble P) := by
  have h := pointAdd_isPointSum hP hP hPc hPc
  rw [pointDouble, identityGuard_eq hP, doubleCoords_eq]
  split_ifs with hzero
  · have hd : d.toZ ≠ 0 := fun h0 => sq_ne_d 0 (by rw [h0, sq, zero_mul])
    obtain ⟨hx, hy⟩ := add_self_neutral hPc hd hzero.1 hzero.2
    have hcoords := (pointAdd_spec hP hP).2
    refine h.guarded ?_ ?_
    · rw [hcoords]
      exact (congrArg (4 * ·) hx).trans (mul_zero 4)
    · rw [hcoords]
      exact congrArg (4 * ·) hy
  · exact h

/-- **Doubles in place**, with the guard on the result. -/
theorem pointDoubleInPlace_isPointSum {P : Point} (hP : P.Tight) (hPc : OnCurve d.toZ P.toExt) :
    IsPointSum P P (pointDoubleInPlace P) := by
  have h := pointAdd_isPointSum hP hP hPc hPc
  rw [pointDoubleInPlace, doubleCoords_eq, identityGuard_eq h.tight]
  split_ifs with hzero
  · exact h.guarded hzero.1 hzero.2
  · exact h

/-! ## Multiples -/

/-- Tight coordinates of a point. -/
structure Point.Valid (P : Point) : Prop where
  tight : P.Tight
  onCurve : OnCurve d.toZ P.toExt
  z_ne_zero : P.toExt.z ≠ 0

theorem IsPointSum.valid {P Q R : Point} (h : IsPointSum P Q R) (hP : P.Valid) (hQ : Q.Valid) :
    R.Valid :=
  ⟨h.tight, h.onCurve, (h.isSum hP.z_ne_zero hQ.z_ne_zero).z_ne_zero⟩

theorem neutral_valid : neutral.Valid := by
  have h0 : Fe.Tight feZero := ⟨by decide, by decide, by decide, by decide, by decide⟩
  have h1 : Fe.Tight feOne := ⟨by decide, by decide, by decide, by decide, by decide⟩
  have e0 : feZero.toZ = 0 := by
    rw [Fe.toZ_eq_zero_iff, Fe.val_eq]
    decide
  have e1 : feOne.toZ ≠ 0 := by
    rw [Ne, Fe.toZ_eq_zero_iff, Fe.val_eq]
    decide
  refine ⟨⟨h0, h1, h1, h0⟩, ?_, e1⟩
  have hcoords : neutral.toExt = ⟨0, feOne.toZ, feOne.toZ, 0⟩ := by
    rw [Point.toExt, neutral]
    dsimp only
    rw [e0]
  rw [hcoords]
  exact onCurve_neutral _ _

theorem selectLimbs_eq {bit : UInt8} (hbit : bit = 0 ∨ bit = 1) (r t : Fe) :
    selectLimbs (0 - bit.toUInt64) r t = if bit = 1 then t else r := by
  apply Vector.ext
  intro j hj
  rw [selectLimbs, Vector.getElem_ofFn]
  rcases hbit with rfl | rfl
  · rw [if_neg (by decide), show (0 - (0 : UInt8).toUInt64) = 0 by decide, UInt64.zero_and, UInt64.xor_zero]
    rfl
  · rw [if_pos rfl, show (0 - (1 : UInt8).toUInt64) = -1 by decide, UInt64.neg_one_and, ← UInt64.xor_assoc,
      UInt64.xor_self, UInt64.zero_xor]
    rfl

theorem lowBit (x : UInt8) : x &&& 1 = 0 ∨ x &&& 1 = 1 := by
  have h : (x &&& 1).toNat = x.toNat % 2 := by
    rw [UInt8.toNat_and]
    exact Nat.and_one_is_mod _
  rw [← UInt8.toNat_inj, ← UInt8.toNat_inj, h]
  exact Nat.mod_two_eq_zero_or_one _

/-- What doubling and adding the base keep holds of the result. -/
theorem pointScalarMult_induction {motive : Point → Prop} (scalar : List UInt8) {base : Point}
    (hneutral : motive neutral) (hdouble : ∀ r, motive r → motive (pointDoubleInPlace r))
    (hadd : ∀ r, motive r → motive (pointAdd r base)) : motive (pointScalarMult scalar base) := by
  rw [pointScalarMult]
  refine List.foldlRecOn _ _ hneutral fun r hr i _ => ?_
  simp only [selectLimbs_eq (lowBit _)]
  split_ifs
  · exact hadd _ (hdouble _ hr)
  · exact hdouble _ hr

/-- **The points of `point_scalar_mult`.** -/
theorem pointScalarMult_valid (scalar : List UInt8) {base : Point} (hbase : base.Valid) :
    (pointScalarMult scalar base).Valid := by
  refine pointScalarMult_induction scalar neutral_valid (fun r hr => ?_) (fun r hr => ?_)
  · exact (pointDoubleInPlace_isPointSum hr.tight hr.onCurve).valid hr hr
  · exact (pointAdd_isPointSum hr.tight hbase.tight hr.onCurve hbase.onCurve).valid hr hbase

theorem pointScalarMult_tight (scalar : List UInt8) {base : Point} (hbase : base.Tight) :
    (pointScalarMult scalar base).Tight := by
  refine pointScalarMult_induction scalar neutral_valid.tight (fun r hr => ?_) (fun r hr => ?_)
  · have hdouble := (pointAdd_spec hr hr).1
    rw [pointDoubleInPlace, doubleCoords_eq, identityGuard_eq hdouble]
    split_ifs
    · exact tight_guarded
    · exact hdouble
  · exact (pointAdd_spec hr hbase).1

/-! ### The base point -/

theorem tight_feMul {a b : Fe} (ha : Fe.Tight a) (hb : Fe.Tight b) : Fe.Tight (feMul a b) :=
  (feMul_spec ha.below54 hb.below54).1

theorem tight_fePow22523 {a : Fe} (ha : Fe.Tight a) : Fe.Tight (fePow22523 a) := by
  rw [fePow22523]
  refine List.foldlRecOn _ _ ha fun r hr i _ => ?_
  have hsq := tight_feMul hr hr
  dsimp only
  split_ifs
  · exact tight_feMul hsq ha
  · exact hsq

theorem tight_feInvert {a : Fe} (ha : Fe.Tight a) : Fe.Tight (feInvert a) := by
  have h := tight_fePow22523 ha
  have h2 := tight_feMul h h
  have h4 := tight_feMul h2 h2
  have h8 := tight_feMul h4 h4
  exact tight_feMul (tight_feMul (tight_feMul h8 ha) ha) ha

theorem tight_feOne : Fe.Tight feOne := ⟨by decide, by decide, by decide, by decide, by decide⟩

theorem pointNormalize_tight {P : Point} (hP : P.Tight) : (pointNormalize P).Tight := by
  have hinv := tight_feInvert hP.z
  have hx := tight_feMul hP.x hinv
  have hy := tight_feMul hP.y hinv
  exact ⟨hx, hy, tight_feOne, tight_feMul hx hy⟩

theorem baseX_tight {y : Fe} (hy : Fe.Tight y) : Fe.Tight (baseX y feOne).1 := by
  have hd : Fe.Tight d := ⟨by decide, by decide, by decide, by decide, by decide⟩
  have hsqrt : Fe.Tight sqrtm1 := ⟨by decide, by decide, by decide, by decide, by decide⟩
  have hyy := tight_feMul hy hy
  have hu := feSub_tight hyy tight_feOne
  have hv : Fe.Below (2 ^ 54) (feAdd (feMul (feSq y) d) feOne) :=
    (below_feAdd (tight_feMul hyy hd) tight_feOne).mono (by decide)
  have hv3 := (feMul_spec (feMul_spec hv hv).1.below54 hv).1
  have hx := (feMul_spec (feMul_spec (tight_feMul hv3 hv3).below54 hv).1.below54 hu.below54).1
  have hx' := tight_feMul (tight_feMul (tight_fePow22523 hx) hv3) hu
  rw [baseX]
  split_ifs
  · exact hx'
  · exact tight_feMul hx' hsqrt
  · exact hx'

theorem tight_ofX {x : Fe × Bool} {y : Fe} (hx : Fe.Tight x.1) (hy : Fe.Tight y) :
    Point.Tight
      (if x.2 then
        let x := if x.1[0] &&& 1 ≠ 0 then feNeg x.1 else x.1
        ⟨x, y, feOne, feMul x y⟩
      else ⟨x.1, y, feOne, feZero⟩) := by
  have hzero : Fe.Tight feZero := neutral_valid.tight.x
  have hneg := feSub_tight hzero hx
  split_ifs
  · exact ⟨hneg, hy, tight_feOne, tight_feMul hneg hy⟩
  · exact ⟨hx, hy, tight_feOne, tight_feMul hx hy⟩
  · exact ⟨hx, hy, tight_feOne, hzero⟩

theorem tight_basePoint : basePoint.Tight := by
  have hy : Fe.Tight #v[0x0006666666666658, 0x0004CCCCCCCCCCCC, 0x0001999999999999, 0x0003333333333333,
      0x0006666666666666] := ⟨by decide, by decide, by decide, by decide, by decide⟩
  exact tight_ofX (baseX_tight hy) hy

end SneppxAlg.Ed25519

/-!
# The scalars of `ed25519.c`

The loop of `sc_reduce64` for `k` ends below `L * 256 ^ k`, as its comparison is exact while the
number has no byte above the highest one of the argument. So the loop for `k = 0` ends below `L`,
the final subtractions do nothing, and what is left is the argument modulo `L`.
-/

namespace SneppxAlg.Ed25519

open Lib.Bytes Lib.Columns

/-- The order of the base point. -/
def L : ℕ := leVal lBytes

/-! ## The comparison -/

theorem leVal_drop (l : List UInt8) (n : ℕ) : leVal (l.drop n) = leVal l / 256 ^ n := by
  have h := leVal_append (l.take n) (l.drop n)
  rw [List.take_append_drop] at h
  rcases Nat.le_total n l.length with hn | hn
  · rw [List.length_take, Nat.min_eq_left hn] at h
    rw [h, Nat.add_mul_div_left _ _ (by positivity), leVal_take, Nat.div_eq_of_lt (Nat.mod_lt _ (by positivity)),
      Nat.zero_add]
  · rw [List.drop_of_length_le hn, Nat.div_eq_of_lt]
    · rfl
    · exact (leVal_lt l).trans_le (Nat.pow_le_pow_right (by decide) hn)

theorem any_ne_zero_iff (l : List UInt8) : l.any (· ≠ 0) = true ↔ leVal l ≠ 0 := by
  induction l with
  | nil => simp
  | cons b l ih =>
    have hb : b = 0 ↔ b.toNat = 0 := UInt8.toNat_inj.symm
    rw [List.any_cons, Bool.or_eq_true, ih, leVal_cons, decide_eq_true_eq, Ne, hb]
    omega

/-- **The comparison is exact.** -/
theorem geShifted_iff {top k : ℕ} (hk : k + 32 ≤ top) {t : List UInt8} (ht : t.length = 64) (htop : top ≤ 64)
    (hlt : leVal t < 256 ^ top) : geShifted top k t = true ↔ L * 256 ^ k ≤ leVal t := by
  have hwindow : ((t.drop k).take 32).length = lBytes.length := by
    rw [List.length_take, List.length_drop, ht, show lBytes.length = 32 from rfl]
    omega
  have hL : L < 256 ^ 32 := by decide
  rw [geShifted, Bool.or_eq_true, any_ne_zero_iff, decide_eq_true_eq, compareHigh_ne_lt hwindow, leVal_drop, leVal_take,
    Nat.mod_eq_of_lt hlt, leVal_take, leVal_drop, pow_add, ← Nat.div_div_eq_div_mul,
    ← Nat.le_div_iff_mul_le (by positivity)]
  change _ ∨ L ≤ _ ↔ _
  generalize leVal t / 256 ^ k = v
  constructor
  · rintro (h | h)
    · exact hL.le.trans (Nat.div_pos_iff.mp (Nat.pos_of_ne_zero h)).2
    · exact h.trans (Nat.mod_le _ _)
  · intro h
    rcases Nat.lt_or_ge v (256 ^ 32) with hv | hv
    · right
      rwa [Nat.mod_eq_of_lt hv]
    · left
      exact (Nat.div_pos hv (by positivity)).ne'

/-! ## The reduction -/

/-- The loop for one `k`. -/
theorem reduceAt_spec {top k : ℕ} (hk : k ≤ 32) (hk' : k + 32 ≤ top) (htop : top ≤ 64) (t : List UInt8)
    (ht : t.length = 64) (hlt : leVal t < 256 ^ top) :
    leVal (reduceAt top k hk t ht).1 < L * 256 ^ k ∧ leVal (reduceAt top k hk t ht).1 ≤ leVal t ∧
      leVal (reduceAt top k hk t ht).1 ≡ leVal t [MOD L] := by
  induction t, ht using reduceAt.induct top k hk with
  | case1 t ht hge hborrow ih =>
    have hlen : t.length = (shiftedL k).length := by rw [ht, length_shiftedL]
    have hle := (subBytes_borrow_eq_zero hlen).mp hborrow
    have hsub : leVal (subScShifted t k).1 = leVal t - leVal (shiftedL k) := leVal_subBytes_of_le hlen hle
    obtain ⟨h1, h2, h3⟩ := ih (by omega)
    rw [reduceAt, if_pos hge, dif_pos hborrow]
    refine ⟨h1, by omega, h3.trans ?_⟩
    rw [hsub, leVal_shiftedL hk]
    rw [leVal_shiftedL hk] at hle
    exact ((Nat.modEq_iff_dvd' (Nat.sub_le _ _)).mpr ⟨256 ^ k, by
      rw [Nat.sub_sub_self hle, Nat.mul_comm]
      rfl⟩)
  | case2 t ht hge hborrow =>
    have hlen : t.length = (shiftedL k).length := by rw [ht, length_shiftedL]
    have hle := (geShifted_iff hk' ht htop hlt).mp hge
    refine absurd ((subBytes_borrow_eq_zero hlen).mpr ?_) hborrow
    rw [leVal_shiftedL hk, Nat.mul_comm]
    exact hle
  | case3 t ht hge =>
    rw [reduceAt, if_neg hge]
    rw [geShifted_iff hk' ht htop hlt, not_le] at hge
    exact ⟨hge, le_rfl, Nat.ModEq.refl _⟩

/-- The loop over all `k`. -/
theorem reduceDown_spec {top : ℕ} (htop : top ≤ 64) (n : ℕ) (hn : n ≤ 33) (hn' : n ≤ top - 31)
    (t : {t : List UInt8 // t.length = 64}) (hlt : leVal t.1 < 256 ^ top) (hzero : n = 0 → leVal t.1 < L) :
    leVal (reduceDown top n hn t).1 < L ∧ leVal (reduceDown top n hn t).1 ≡ leVal t.1 [MOD L] := by
  induction n generalizing t with
  | zero => exact ⟨hzero rfl, Nat.ModEq.refl _⟩
  | succ n ih =>
    obtain ⟨h1, h2, h3⟩ := reduceAt_spec (Nat.le_of_succ_le_succ hn) (by omega) htop t.1 t.2 hlt
    obtain ⟨h4, h5⟩ := ih (Nat.le_of_succ_le hn) (by omega) (reduceAt top n (Nat.le_of_succ_le_succ hn) t.1 t.2)
      (by omega) (fun h0 => h1.trans_eq (by rw [h0, pow_zero, Nat.mul_one]))
    exact ⟨h4, h5.trans h3⟩

/-- The highest byte that is not `0`. -/
theorem leVal_lt_topBytes {t : List UInt8} {n : ℕ} (h : leVal t < 256 ^ n) : leVal t < 256 ^ topBytes t n := by
  induction n with
  | zero => exact h
  | succ n ih =>
    rw [topBytes]
    split_ifs with hzero
    · apply ih
      have hdrop : (t.drop n).headD 0 = t.getD n 0 := by
        rw [List.headD_eq_head?_getD, List.head?_drop, List.getD_eq_getElem?_getD]
      have hval := leVal_headD_tail (t.drop n)
      rw [hdrop, hzero, List.tail_drop, leVal_drop, leVal_drop, Nat.div_eq_of_lt h] at hval
      exact (Nat.div_eq_zero_iff.mp hval).resolve_left (by positivity)
    · exact h

/-- Below `L` nothing is subtracted. -/
theorem finalSub_of_lt {t : List UInt8} (ht : t.length = 64) (hlt : leVal t < L) (n : ℕ) : finalSub n t = t := by
  cases n with
  | zero => rfl
  | succ n =>
    have hlen : (t.take 32).length = lBytes.length := by
      rw [List.length_take, ht]
      rfl
    rw [finalSub, if_pos]
    by_contra h
    rw [← Ne, compareHigh_ne_lt hlen, leVal_take] at h
    exact absurd (h.trans (Nat.mod_le _ _)) (not_le.mpr hlt)

/-- **The reduction.** -/
theorem scReduce64_eq (a : List UInt8) (ha : a.length = 64) : scReduce64 a ha = leBytes 32 (leVal a % L) := by
  have h64 : leVal a < 256 ^ 64 := by
    rw [← ha]
    exact leVal_lt a
  have hlt := leVal_lt_topBytes h64
  have htop := topBytes_le a 64
  rw [scReduce64]
  dsimp only
  split_ifs with hzero
  · rw [hzero, pow_zero, Nat.lt_one_iff] at hlt
    rw [hlt]
    decide
  · obtain ⟨h1, h2⟩ := reduceDown_spec htop (topBytes a 64 - 31) (by omega) le_rfl ⟨a, ha⟩ hlt fun h31 => by
      refine hlt.trans_le ((Nat.pow_le_pow_right (by decide) (show topBytes a 64 ≤ 31 by omega)).trans ?_)
      decide
    generalize reduceDown _ _ _ _ = r at h1 h2
    have hL : L < 256 ^ 32 := by decide
    rw [finalSub_of_lt r.2 h1]
    have hlen : (r.1.take 32).length = 32 := by
      rw [List.length_take, r.2]
      rfl
    rw [eq_leBytes hlen, leVal_take, Nat.mod_eq_of_lt (h1.trans hL), ← Nat.mod_eq_of_lt h1]
    exact congrArg _ h2

/-! ## Products and sums -/

theorem sum_bytes {a : List UInt8} (ha : a.length = 32) :
    ∑ i : Fin 32, (a.getD i 0).toNat * 256 ^ i.val = leVal a := by
  rw [sum_eq_ofDigits, leVal]
  congr 1
  apply List.ext_getElem
  · simp [ha]
  · intro i h1 h2
    rw [List.getElem_ofFn, List.getElem_map, List.getD_eq_getElem _ _ (by simpa using h2)]

/-- **The product.** -/
theorem leVal_scMul256 {a b : List UInt8} (ha : a.length = 32) (hb : b.length = 32) :
    leVal (scMul256 a b) = leVal a * leVal b := by
  have hbyte (l : List UInt8) (i : Fin 32) : (l.getD i 0).toNat ≤ 255 := Nat.le_of_lt_succ (l.getD i 0).toNat_lt
  have hprod (i j : Fin 32) :
      ((a.getD i 0).toUInt32 * (b.getD j 0).toUInt32).toNat = (a.getD i 0).toNat * (b.getD j 0).toNat := by
    have h := Nat.mul_le_mul (hbyte a i) (hbyte b j)
    rw [UInt32.toNat_mul, UInt8.toNat_toUInt32, UInt8.toNat_toUInt32, Nat.mod_eq_of_lt (by omega)]
  have hadd (x y : UInt32) (h : x.toNat + y.toNat < 2 ^ 32) : (x + y).toNat = x.toNat + y.toNat := by
    rw [UInt32.toNat_add, Nat.mod_eq_of_lt h]
  have h := (foldl_addAt_pairs (B := 256) (n := 64) (M := 255 * 255) hadd hprod
    (fun i j => (hprod i j).trans_le (Nat.mul_le_mul (hbyte a i) (hbyte b j))) (by decide) 0 rfl (by decide)).1
  rw [sum_bytes ha, sum_bytes hb, value_eq_ofDigits] at h
  have halt := leVal_lt a
  have hblt := leVal_lt b
  rw [ha] at halt
  rw [hb] at hblt
  rw [scMul256, leVal_carryBytes (by decide), h, Vector.length_toList]
  exact (congrArg (· % 256 ^ 64) (Nat.zero_add _)).trans
    (Nat.mod_eq_of_lt ((Nat.mul_lt_mul'' halt hblt).trans_eq (by norm_num)))

/-- **The sum of `sign`.** -/
theorem leVal_scMulAdd {h a r : List UInt8} (hh : h.length = 32) (ha : a.length = 32) (hr : r.length = 32) :
    leVal (scMulAdd h a r) = leVal h * leVal a + leVal r := by
  have hhlt := leVal_lt h
  have halt := leVal_lt a
  have hrlt := leVal_lt r
  rw [hh] at hhlt
  rw [ha] at halt
  rw [hr] at hrlt
  have hmul : leVal h * leVal a ≤ (256 ^ 32 - 1) * (256 ^ 32 - 1) :=
    Nat.mul_le_mul (Nat.le_pred_of_lt hhlt) (Nat.le_pred_of_lt halt)
  rw [scMulAdd, leVal_addBytes (by rw [length_scMul256, hr]; decide) (by decide), leVal_scMul256 hh ha, length_scMul256]
  exact Nat.mod_eq_of_lt (lt_of_le_of_lt (Nat.add_le_add_right (Nat.add_le_add hmul (Nat.le_pred_of_lt hrlt)) _)
    (by decide))

/-! ## Signatures -/

theorem length_feToBytes (r : Fe) : (feToBytes r).length = 32 := by
  rw [feToBytes]
  generalize subPrime _ = t
  rw [subPrimeBytes]
  split_ifs
  · rw [length_subBytes (by rw [length_limbBytes, length_primeBytes]), length_limbBytes]
  · exact length_limbBytes t

theorem length_pointBytes (P : Point) : (pointBytes P).length = 32 := by
  rw [pointBytes, List.length_modify, length_feToBytes]

/-- The nonce `r`, before the reduction. -/
def nonce (kp : Keypair) (message : List UInt8) : ℕ :=
  leVal (Sha512.sha512 [kp.privateKey.toList.drop 32, message])

/-- The challenge `h` of the first half of a signature, before the reduction. -/
def challenge (kp : Keypair) (message r : List UInt8) : ℕ :=
  leVal (Sha512.sha512 [r, kp.publicKey.toList, message])

theorem length_scReduce64 (a : List UInt8) (ha : a.length = 64) : (scReduce64 a ha).length = 32 := by
  rw [scReduce64_eq, length_leBytes]

theorem leVal_scReduce64 (a : List UInt8) (ha : a.length = 64) : leVal (scReduce64 a ha) = leVal a % L := by
  have hlt : leVal a % L < 256 ^ 32 := (Nat.mod_lt _ (by decide)).trans (show L < 256 ^ 32 by decide)
  rw [scReduce64_eq, leVal_leBytes, Nat.mod_eq_of_lt hlt]

/-- A signature is the bytes of a point, and the sum modulo `L`. -/
theorem signature_eq (kp : Keypair) (message : List UInt8) :
    ∃ data : List UInt8, data.length = 32 ∧ ∃ (r h : List UInt8) (hr : r.length = 64) (hh : h.length = 64),
      r = Sha512.sha512 [kp.privateKey.toList.drop 32, message] ∧
      h = Sha512.sha512 [data, kp.publicKey.toList, message] ∧
      signature kp message = data ++ scReduce64
        (scMulAdd (scReduce64 h hh) (kp.privateKey.toList.take 32) (scReduce64 r hr)) (length_scMulAdd _ _ _) :=
  ⟨_, length_pointBytes _, _, _, Sha512.length_sha512 _, Sha512.length_sha512 _, rfl, rfl, rfl⟩

/-- **The second half of a signature.** -/
theorem signature_drop (kp : Keypair) (message : List UInt8) :
    (signature kp message).length = 64 ∧
      (signature kp message).drop 32 =
        leBytes 32 ((nonce kp message + challenge kp message ((signature kp message).take 32) *
          leVal (kp.privateKey.toList.take 32)) % L) := by
  have hkey : (kp.privateKey.toList.take 32).length = 32 := by
    rw [List.length_take, Vector.length_toList]
    rfl
  obtain ⟨data, hdata, r, h, hr, hh, hr', hh', hsig⟩ := signature_eq kp message
  rw [hsig, List.length_append, length_scReduce64, hdata, List.drop_left' hdata, List.take_left' hdata,
    scReduce64_eq, leVal_scMulAdd (length_scReduce64 _ _) hkey (length_scReduce64 _ _), leVal_scReduce64,
    leVal_scReduce64, nonce, challenge, ← hr', ← hh']
  refine ⟨rfl, congrArg _ ?_⟩
  rw [Nat.add_comm (leVal r)]
  exact Nat.ModEq.add ((Nat.mod_modEq _ _).mul_right _) (Nat.mod_modEq _ _)

end SneppxAlg.Ed25519

/-!
# The arithmetic under the signatures

The field operations on words are those on numbers without a limit, so that no addition wraps around and no word that
the code drops is other than zero. With the sums of points and the reduction of scalars this is the arithmetic under
the signatures.
-/

namespace SneppxAlg.Ed25519

open Lib.Bytes Lib.TwistedEdwards

attribute [local instance] neZero_four

/-- **Exact arithmetic.** The words of the field operations are those of numbers without a limit, and the results are
sum, difference and product inside of bounds that they keep. Sums and doubles of points are right, also over the whole
of `point_scalar_mult`. Scalars are reduced, and the second half of a signature is `r + h * a` modulo `L`. -/
theorem arithmetic_exact :
    (∀ (a b : Fe) (m n : ℕ), Fe.Below m a → Fe.Below n b → m + n ≤ 2 ^ 64 →
      Fe.Below (m + n) (feAdd a b) ∧ (∀ i : Fin 5, (feAdd a b)[i].toNat = a[i].toNat + b[i].toNat) ∧
        (feAdd a b).toZ = a.toZ + b.toZ) ∧
    (∀ (a b : Fe) (m : ℕ), Fe.Below m a → 2 ^ 51 ≤ m ∧ m ≤ 2 ^ 60 → Fe.Tight b →
      Fe.Below m (feSub a b) ∧ (Fe.Tight a → Fe.Tight (feSub a b)) ∧
        (∀ i : Fin 5, ((feSub a b)[i].toNat : ℤ) = (exactSub a b)[i]) ∧ (feSub a b).toZ = a.toZ - b.toZ) ∧
    (∀ a b : Fe, Fe.Below (2 ^ 54) a → Fe.Below (2 ^ 54) b →
      Fe.Tight (feMul a b) ∧ (∀ i : Fin 5, (feMul a b)[i].toNat = (exactMul a b)[i]) ∧
        (feMul a b).toZ = a.toZ * b.toZ) ∧
    121666 * d.toZ = -121665 ∧
    (∀ P Q : Point, P.Tight → Q.Tight → OnCurve d.toZ P.toExt → OnCurve d.toZ Q.toExt →
      IsPointSum P Q (pointAdd P Q)) ∧
    (∀ P : Point, P.Tight → OnCurve d.toZ P.toExt →
      IsPointSum P P (pointDouble P) ∧ IsPointSum P P (pointDoubleInPlace P)) ∧
    basePoint.Tight ∧
    (∀ (scalar : List UInt8) (base : Point), base.Tight →
      (pointScalarMult scalar base).Tight ∧ (pointNormalize (pointScalarMult scalar base)).Tight) ∧
    (∀ (scalar : List UInt8) (base : Point), base.Valid → (pointScalarMult scalar base).Valid) ∧
    (∀ (a : List UInt8) (ha : a.length = 64), scReduce64 a ha = leBytes 32 (leVal a % L)) ∧
    (∀ (kp : Keypair) (message : List UInt8), ∃ sig, sign (some kp) (some message) true = some sig ∧
      sig.length = 64 ∧ sig.drop 32 = leBytes 32 ((nonce kp message + challenge kp message (sig.take 32) *
        leVal (kp.privateKey.toList.take 32)) % L)) := by
  refine ⟨fun a b m n ha hb hmn => ?_, fun a b m ha hm hb => ?_, fun a b ha hb => ?_, d_eq, fun P Q hP hQ hPc hQc => ?_,
    fun P hP hPc => ?_, tight_basePoint, fun scalar base hbase => ?_, fun scalar base hbase => ?_, scReduce64_eq,
    fun kp message => ?_⟩
  · exact ⟨(feAdd_spec ha hb hmn).1, feAdd_exact ha hb hmn, toZ_feAdd ha hb hmn⟩
  · have ha' := ha.mono hm.2
    exact ⟨feSub_below ha hm hb, fun hat => feSub_tight hat hb, feSub_exact ha' hb, toZ_feSub ha' hb⟩
  · exact ⟨(feMul_spec ha hb).1, (feMul_exact ha hb).1, toZ_feMul ha hb⟩
  · exact pointAdd_isPointSum hP hQ hPc hQc
  · exact ⟨pointDouble_isPointSum hP hPc, pointDoubleInPlace_isPointSum hP hPc⟩
  · have h := pointScalarMult_tight scalar hbase
    exact ⟨h, pointNormalize_tight h⟩
  · exact pointScalarMult_valid scalar hbase
  · exact ⟨signature kp message, rfl, signature_drop kp message⟩

def basePointLimbs : Point where
  x := #v[0x62d608f25d51a, 0x412a4b4f6592a, 0x75b7171a4b31d, 0x1ff60527118fe, 0x216936d3cd6e5]
  y := #v[0x6666666666658, 0x4cccccccccccc, 0x1999999999999, 0x3333333333333, 0x6666666666666]
  z := feOne
  t := #v[0x68ab3a5b7dda3, 0x0eea2a5eadbb, 0x2af8df483c27e, 0x332b375274732, 0x67875f0fd78b7]

theorem tight_basePointLimbs : basePointLimbs.Tight where
  x := ⟨by decide, by decide, by decide, by decide, by decide⟩
  y := ⟨by decide, by decide, by decide, by decide, by decide⟩
  z := tight_feOne
  t := ⟨by decide, by decide, by decide, by decide, by decide⟩

theorem onCurve_basePointLimbs : OnCurve d.toZ basePointLimbs.toExt where
  product := by
    have h : (Fe.val basePointLimbs.x * Fe.val basePointLimbs.y : ℕ) ≡
        Fe.val basePointLimbs.z * Fe.val basePointLimbs.t [MOD p] := by
      simp only [Fe.val_eq]
      decide
    have h := (ZMod.natCast_eq_natCast_iff _ _ p).mpr h
    push_cast at h
    exact h
  curve := by
    have h : (Fe.val basePointLimbs.y ^ 2 : ℕ) ≡ Fe.val basePointLimbs.z ^ 2 + Fe.val d * Fe.val basePointLimbs.t ^ 2 +
        Fe.val basePointLimbs.x ^ 2 [MOD p] := by
      simp only [Fe.val_eq]
      decide
    have h := (ZMod.natCast_eq_natCast_iff _ _ p).mpr h
    push_cast at h
    exact sub_eq_of_eq_add h

/-- The double of the base point, a product of its coordinates, and a signature. -/
theorem arithmetic_exact_basePoint :
    IsPointSum basePointLimbs basePointLimbs (pointAdd basePointLimbs basePointLimbs) ∧
      (feMul basePointLimbs.x basePointLimbs.t).toZ = basePointLimbs.x.toZ * basePointLimbs.t.toZ ∧
      ∃ sig, sign (some ⟨Vector.replicate 32 7, Vector.replicate 64 3⟩) (some [0x61, 0x62, 0x63]) true = some sig ∧
        sig.length = 64 := by
  have h := arithmetic_exact
  refine ⟨h.2.2.2.2.1 _ _ tight_basePointLimbs tight_basePointLimbs onCurve_basePointLimbs onCurve_basePointLimbs,
    (h.2.2.1 _ _ tight_basePointLimbs.x.below54 tight_basePointLimbs.t.below54).2.2, ?_⟩
  obtain ⟨sig, hsig, hlen, -⟩ := h.2.2.2.2.2.2.2.2.2.2
    ⟨Vector.replicate 32 7, Vector.replicate 64 3⟩ [0x61, 0x62, 0x63]
  exact ⟨sig, hsig, hlen⟩

end SneppxAlg.Ed25519
