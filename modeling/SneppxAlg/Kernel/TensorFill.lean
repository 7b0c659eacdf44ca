import SneppxAlg.Kernel.TensorBounds
import SneppxAlg.Lib.Bytes
import SneppxAlg.Lib.FloatBits
import SneppxAlg.Lib.StoringLoops

/-!
# `tensor.c`: tensors filled with a value

`SNEPPX_tensor_ones`, `SNEPPX_tensor_full`, `SNEPPX_tensor_eye`, `SNEPPX_tensor_randn` and the static
`SNEPPX_tensor_fill_scalar`. Some of them store floats of 4 bytes, or fill the memory with bytes, for types of another
size. `SNEPPX_malloc` fills new memory with zeros.

Values are bit patterns. `gauss` is what `randn` computes with `logf`, `sqrtf`, `cosf` and `sinf` from two of its random
numbers.

A tensor is filled with a value if each of its elements, inside of its memory, is what the value is in its type
(`encode`). For a new tensor this is about the stores only (`fills_iff`).
-/

namespace SneppxAlg.TensorEngine

open Lib.AddingLoops Lib.Bytes Lib.FloatBits

/-! ## The functions -/

/-- The bytes from `t->data` to the end of the storage, and their number. -/
def memory (h : Heap) (t : Tensor) : Option (ℕ × (ℕ → UInt8)) :=
  (h.storages t.storage).map fun st =>
    let start := (t.offset * t.itemSize).toNat
    (st.numBytes.toNat - start, fun p => st.data (start + p))

/-- Other bytes from `t->data` on. -/
def setMemory (h : Heap) (t : Tensor) (data : ℕ → UInt8) : Heap :=
  let start := (t.offset * t.itemSize).toNat
  { h with storages := Function.update h.storages t.storage ((h.storages t.storage).map fun st =>
    { st with data := fun p => if p < start then st.data p else data (p - start) }) }

/-- A function that works on the bytes from `t->data` on; it stops with `none` when it leaves them. -/
def fillMemory (h : Heap) (t : Tensor) (f : ℕ → (ℕ → UInt8) → Option (ℕ → UInt8)) : Outcome (Heap × Tensor) :=
  Outcome.ofOption do
    let m ← memory h t
    let data ← f m.1 m.2
    some (setMemory h t data, t)

/-- `1.0f`, as a pattern. -/
def one32 : ℕ := 0x3F800000

/-- `1.0`, as a pattern. -/
def one64 : ℕ := 0x3FF0000000000000

/-- What `SNEPPX_tensor_ones` stores. -/
def onesLoop (dtype : Dtype) (size : UInt64) (cells : ℕ) (data : ℕ → UInt8) : Option (ℕ → UInt8) :=
  match dtype with
  | .float32 | .float16 | .bfloat16 | .float8 =>
    forLoop size.toNat (fun i => storeBytes cells (i * 4) (leBytes 4 one32)) data
  | .float64 => forLoop size.toNat (fun i => storeBytes cells (i * 8) (leBytes 8 one64)) data
  | .int32 | .int64 | .int16 | .int8 | .uint8 | .bool =>
    storeBytes cells 0 (List.replicate (size * dtype.size).toNat 1) data
  | .complex64 | .complex128 => some data

/-- `SNEPPX_tensor_ones`. -/
def tensorOnes (h : Heap) (shape : List UInt64) (dtype : Dtype) : Outcome (Heap × Tensor) :=
  let c := tensorCreate h shape dtype
  fillMemory c.1 c.2 (onesLoop dtype c.2.size)

/-- What `SNEPPX_tensor_full` stores; `value` is read up to the size of an item. -/
def fullLoop (dtype : Dtype) (value : List UInt8) (size : UInt64) (cells : ℕ) (data : ℕ → UInt8) :
    Option (ℕ → UInt8) :=
  forLoop size.toNat (fun i => if value.length < dtype.size.toNat then fun _ => none else
    storeBytes cells (UInt64.ofNat i * dtype.size).toNat (value.take dtype.size.toNat)) data

/-- `SNEPPX_tensor_full`. -/
def tensorFull (h : Heap) (shape : List UInt64) (dtype : Dtype) (value : Option (List UInt8)) :
    Outcome (Heap × Tensor) :=
  let c := tensorCreate h shape dtype
  match value with
  | none => .ok c
  | some value => fillMemory c.1 c.2 (fullLoop dtype value c.2.size)

/-- What `SNEPPX_tensor_eye` stores at an element of the diagonal. -/
def eyeBytes (dtype : Dtype) : List UInt8 :=
  match dtype with
  | .float64 => leBytes 8 one64
  | .int32 | .int64 => List.replicate dtype.size.toNat 1
  | _ => leBytes 4 one32

/-- What `SNEPPX_tensor_eye` stores: it sets all bytes to 0, and then elements of the diagonal. -/
def eyeLoop (dtype : Dtype) (n size : UInt64) (cells : ℕ) (data : ℕ → UInt8) : Option (ℕ → UInt8) := do
  let data ← storeBytes cells 0 (List.replicate (size * dtype.size).toNat 0) data
  forLoop n.toNat (fun i =>
    storeBytes cells ((UInt64.ofNat i * n + UInt64.ofNat i) * dtype.size).toNat (eyeBytes dtype)) data

/-- `SNEPPX_tensor_eye`. -/
def tensorEye (h : Heap) (n : UInt64) (dtype : Dtype) : Outcome (Heap × Tensor) :=
  let c := tensorCreate h [n, n] dtype
  fillMemory c.1 c.2 (eyeLoop dtype n c.2.size)

/-- The step of the generator; `unsigned long` has 64 bits. -/
def lcgNext (s : UInt64) : UInt64 := s * 1103515245 + 12345

/-- The number of which `uniform_01` returns a 32767th. -/
def draw (s : UInt64) : ℕ := ((s >>> 16) &&& 0x7FFF).toNat

/-- One round of the loop of `SNEPPX_tensor_randn`, with `lcg_state`; `i` is `2 * j`. -/
def randnRound (gauss : ℕ → ℕ → UInt32 × UInt32) (size : UInt64) (cells j : ℕ) (st : (ℕ → UInt8) × UInt64) :
    Option ((ℕ → UInt8) × UInt64) := do
  let s1 := lcgNext st.2
  let s2 := lcgNext s1
  let xy := gauss (draw s1) (draw s2)
  let data ← storeBytes cells (2 * j * 4) (leBytes 4 xy.1.toNat) st.1
  (if 2 * j + 1 < size.toNat then storeBytes cells ((2 * j + 1) * 4) (leBytes 4 xy.2.toNat) data
    else some data).map fun data => (data, s2)

/-- What `SNEPPX_tensor_randn` stores, with `lcg_state`. -/
def randnLoop (gauss : ℕ → ℕ → UInt32 × UInt32) (size : UInt64) (cells : ℕ) (data : ℕ → UInt8) (s : UInt64) :
    Option ((ℕ → UInt8) × UInt64) :=
  forLoop ((size.toNat + 1) / 2) (randnRound gauss size cells) (data, s)

/-- `SNEPPX_tensor_randn`, with the new `lcg_state`. -/
def tensorRandn (gauss : ℕ → ℕ → UInt32 × UInt32) (h : Heap) (shape : List UInt64) (dtype : Dtype) (s : UInt64) :
    Outcome ((Heap × Tensor) × UInt64) :=
  let c := tensorCreate h shape dtype
  Outcome.ofOption do
    let m ← memory c.1 c.2
    let r ← randnLoop gauss c.2.size m.1 m.2 s
    some ((setMemory c.1 c.2 r.1, c.2), r.2)

/-- A conversion to an integer of `n` bytes between `lo` and `hi`; there is none of a value outside. -/
def castInt (n : ℕ) (lo hi : ℤ) (v : UInt64) : Option (List UInt8) :=
  (trunc v).bind fun z => if lo ≤ z ∧ z ≤ hi then some (leBytes n (z % 2 ^ (8 * n)).toNat) else none

/-- What `SNEPPX_tensor_fill_scalar` stores for a `double`. -/
def fillLoop (R : Roundings) (dtype : Dtype) (v : UInt64) (size : UInt64) (cells : ℕ) (data : ℕ → UInt8) :
    Option (ℕ → UInt8) :=
  let fill := fun item bytes => forLoop size.toNat (fun i => storeBytes cells (i * item) bytes) data
  match dtype with
  | .float32 => fill 4 (leBytes 4 (R.float32 v).toNat)
  | .float64 => fill 8 (leBytes 8 v.toNat)
  | .float16 | .bfloat16 | .float8 => fill 4 (leBytes 4 (R.float32 v).toNat)
  | .int32 => (castInt 4 (-2 ^ 31) (2 ^ 31 - 1) v).bind (fill 4)
  | .int64 => (castInt 8 (-2 ^ 63) (2 ^ 63 - 1) v).bind (fill 8)
  | .int16 => (castInt 2 (-2 ^ 15) (2 ^ 15 - 1) v).bind (fill 2)
  | .int8 => (castInt 1 (-2 ^ 7) (2 ^ 7 - 1) v).bind (fill 1)
  | .uint8 => (castInt 1 0 (2 ^ 8 - 1) v).bind (fill 1)
  | .bool => fill 1 [if isZero v then 0 else 1]
  | .complex64 | .complex128 => storeBytes cells 0 (List.replicate (size * dtype.size).toNat 0) data

/-- `SNEPPX_tensor_fill_scalar`. -/
def tensorFillScalar (R : Roundings) (h : Heap) (t : Tensor) (v : UInt64) : Outcome (Heap × Tensor) :=
  fillMemory h t (fillLoop R t.dtype v t.size)

/-! ## What they are for -/

/-- The bytes that a `double` has in a type; a complex number is one without an imaginary part. -/
def encode (R : Roundings) (dtype : Dtype) (v : UInt64) : Option (List UInt8) :=
  match dtype with
  | .float8 => some (leBytes 1 (R.float8 v).toNat)
  | .float16 => some (leBytes 2 (R.float16 v).toNat)
  | .bfloat16 => some (leBytes 2 (R.bfloat16 v).toNat)
  | .float32 => some (leBytes 4 (R.float32 v).toNat)
  | .float64 => some (leBytes 8 v.toNat)
  | .int8 => castInt 1 (-2 ^ 7) (2 ^ 7 - 1) v
  | .int16 => castInt 2 (-2 ^ 15) (2 ^ 15 - 1) v
  | .int32 => castInt 4 (-2 ^ 31) (2 ^ 31 - 1) v
  | .int64 => castInt 8 (-2 ^ 63) (2 ^ 63 - 1) v
  | .uint8 => castInt 1 0 (2 ^ 8 - 1) v
  | .bool => some [if isZero v then 0 else 1]
  | .complex64 => some (leBytes 4 (R.float32 v).toNat ++ leBytes 4 0)
  | .complex128 => some (leBytes 8 v.toNat ++ leBytes 8 0)

/-- Random number `k` from a state of the generator on. -/
def sample (gauss : ℕ → ℕ → UInt32 × UInt32) (s : UInt64) (k : ℕ) : UInt32 :=
  let xy := gauss (draw (lcgNext^[2 * (k / 2) + 1] s)) (draw (lcgNext^[2 * (k / 2) + 2] s))
  if k % 2 = 0 then xy.1 else xy.2

/-- Documented behaviour of `logf`, `sqrtf`, `cosf` and `sinf`: the numbers are finite. If the logarithm is not 0, the
first one is not 0 and below 8; the second one is not `+0` if the angle is neither 0 nor a full turn. -/
structure Gaussian (gauss : ℕ → ℕ → UInt32 × UInt32) : Prop where
  finite : ∀ k1 ≤ 32767, ∀ k2 ≤ 32767, exponent32 (gauss k1 k2).1 < 255 ∧ exponent32 (gauss k1 k2).2 < 255
  first : ∀ k1 < 32767, ∀ k2 ≤ 32767, 0 < exponent32 (gauss k1 k2).1 ∧ exponent32 (gauss k1 k2).1 ≤ 129
  second : ∀ k1 < 32767, ∀ k2 < 32767, 0 < k2 → (gauss k1 k2).2 ≠ 0

/-- The bytes of element number `k`, in the order of the indices, of a tensor that is stored row after row. -/
def elementBytes (r : Heap × Tensor) (k : ℕ) : Option (List UInt8) :=
  (memory r.1 r.2).bind fun m =>
    if k * r.2.itemSize.toNat + r.2.itemSize.toNat ≤ m.1 then some (item r.2.itemSize.toNat m.2 k) else none

/-- The result has the shape and the type, and its elements have the values `w`. -/
def Fills (o : Outcome (Heap × Tensor)) (shape : List UInt64) (dtype : Dtype) (w : ℕ → Option (List UInt8)) : Prop :=
  ∃ r, o = .ok r ∧ r.2.shape = shape ∧ r.2.dtype = dtype ∧
    ∀ k < (extents shape).prod, ∃ bytes, w k = some bytes ∧ elementBytes r k = some bytes

/-- `SNEPPX_malloc` fills memory with zeros. -/
def Zeroed (h : Heap) : Prop := ∀ s p, h.fresh s p = 0

section New

variable {h : Heap} {shape : List UInt64} {dtype : Dtype} {data : ℕ → UInt8}

theorem memory_tensorCreate (hzero : Zeroed h) :
    memory (tensorCreate h shape dtype).1 (tensorCreate h shape dtype).2 =
      some ((numel shape * dtype.size).toNat, fun _ => 0) := by
  have hfresh : h.fresh h.next = fun _ => 0 := funext fun p => hzero _ p
  simp [memory, tensorCreate, storageCreate, hfresh]

theorem memory_setMemory (data : ℕ → UInt8) :
    memory (setMemory (tensorCreate h shape dtype).1 (tensorCreate h shape dtype).2 data)
      (tensorCreate h shape dtype).2 = some ((numel shape * dtype.size).toNat, data) := by
  simp [memory, setMemory, tensorCreate, storageCreate]

theorem elementBytes_setMemory (k : ℕ) :
    elementBytes (setMemory (tensorCreate h shape dtype).1 (tensorCreate h shape dtype).2 data,
      (tensorCreate h shape dtype).2) k =
      if k * dtype.size.toNat + dtype.size.toNat ≤ (numel shape * dtype.size).toNat then
        some (item dtype.size.toNat data k) else none := by
  rw [elementBytes, memory_setMemory]
  rfl

/-- For a new tensor: its bytes can be counted, and the stores leave the values in them. -/
theorem fills_iff (hzero : Zeroed h) (f : ℕ → (ℕ → UInt8) → Option (ℕ → UInt8)) (w : ℕ → Option (List UInt8)) :
    Fills (fillMemory (tensorCreate h shape dtype).1 (tensorCreate h shape dtype).2 f) shape dtype w ↔
      (extents shape).prod * dtype.size.toNat < 2 ^ 64 ∧
        ∃ data, f ((extents shape).prod * dtype.size.toNat) (fun _ => 0) = some data ∧
          ∀ k < (extents shape).prod, w k = some (item dtype.size.toNat data k) := by
  have hfill : fillMemory (tensorCreate h shape dtype).1 (tensorCreate h shape dtype).2 f =
      Outcome.ofOption ((f (numel shape * dtype.size).toNat fun _ => 0).map fun data =>
        (setMemory (tensorCreate h shape dtype).1 (tensorCreate h shape dtype).2 data,
          (tensorCreate h shape dtype).2)) := by
    rw [fillMemory, memory_tensorCreate hzero, Option.map_eq_bind]
    rfl
  rw [Fills, hfill]
  constructor
  · rintro ⟨r, hr, -, -, helems⟩
    cases hf : f (numel shape * dtype.size).toNat fun _ => 0 with
    | none =>
      rw [hf] at hr
      cases hr
    | some data =>
      rw [hf] at hr
      obtain rfl := Outcome.ok.inj hr
      have hin : ∀ k < (extents shape).prod, k * dtype.size.toNat + dtype.size.toNat ≤ (numel shape * dtype.size).toNat ∧
          w k = some (item dtype.size.toNat data k) := by
        intro k hk
        obtain ⟨bytes, hw, hbytes⟩ := helems k hk
        rw [elementBytes_setMemory] at hbytes
        split_ifs at hbytes with hroom
        exact ⟨hroom, hw.trans hbytes.symm⟩
      have hfits : (extents shape).prod * dtype.size.toNat < 2 ^ 64 := by
        rcases Nat.eq_zero_or_pos (extents shape).prod with h0 | hpos
        · rw [h0, Nat.zero_mul]
          decide
        · have hlast := (hin _ (Nat.sub_lt hpos Nat.one_pos)).1
          rw [← Nat.succ_mul, Nat.succ_eq_add_one, Nat.sub_add_cancel hpos] at hlast
          exact hlast.trans_lt (UInt64.toNat_lt _)
      rw [numel_mul_size hfits] at hf
      exact ⟨hfits, data, hf, fun k hk => (hin k hk).2⟩
  · rintro ⟨hfits, data, hf, hdata⟩
    rw [numel_mul_size hfits, hf]
    refine ⟨_, rfl, rfl, rfl, fun k hk => ⟨_, hdata k hk, ?_⟩⟩
    rw [elementBytes_setMemory, numel_mul_size hfits, if_pos]
    rw [← Nat.succ_mul]
    exact Nat.mul_le_mul_right _ hk

end New

end SneppxAlg.TensorEngine
