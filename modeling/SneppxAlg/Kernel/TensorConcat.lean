import SneppxAlg.Kernel.TensorContiguous

/-!
# `tensor.c`: concatenating and splitting tensors

`SNEPPX_tensor_concat` copies the memory of each tensor, from its first element on, behind that of the one before.
`SNEPPX_tensor_split` takes slices, which are views.

The memory of the result is `sources`: the elements of the first tensor as they are stored, then those of the second,
and so on. It is the right one if each element is found where its index in the result says (`InOrder`).
-/

namespace SneppxAlg.TensorEngine

open Lib.Strided

/-! ## The functions -/

/-- The extents agree except in dimension `dim`. -/
def Agrees (first t : Tensor) (dim : ℕ) : Prop :=
  t.shape.length = first.shape.length ∧
    ∀ i < first.shape.length, i ≠ dim → t.shape.getD i 0 = first.shape.getD i 0

instance (first t : Tensor) (dim : ℕ) : Decidable (Agrees first t dim) := inferInstanceAs (Decidable (_ ∧ _))

/-- `total_dim`. -/
def totalDim (tensors : List Tensor) (dim : ℕ) : UInt64 := (tensors.map fun t => t.shape.getD dim 0).sum

/-- The loop that copies the tensors; `offset` counts elements of the result. -/
def concatLoop (result : Tensor) (itemSize sliceSize : UInt64) (dim : ℕ) :
    List Tensor → UInt64 → Heap → Option Heap
  | [], _, h => some h
  | t :: ts, offset, h =>
    let n := t.shape.getD dim 0 * sliceSize
    (copyData h { result with offset := offset } t (n * itemSize).toNat).bind
      (concatLoop result itemSize sliceSize dim ts (offset + n))

/-- `SNEPPX_tensor_concat`. -/
def tensorConcat (h : Heap) (tensors : List Tensor) (dim : ℕ) : Outcome (Heap × Tensor) :=
  match tensors with
  | [] => .null
  | first :: _ =>
    if dim ≥ first.shape.length then .null
    else if ∃ t ∈ tensors, ¬Agrees first t dim then .null
    else
      let (h, result) := tensorCreate h (first.shape.set dim (totalDim tensors dim)) first.dtype
      if first.shape.getD dim 0 = 0 then .fault
      else
        let sliceSize := first.size / first.shape.getD dim 0
        (Outcome.ofOption (concatLoop result first.itemSize sliceSize dim tensors 0 h)).bind fun h =>
          .ok (h, result)

/-- The loop of `split`, for the first `n` slices. -/
def splitLoop (src : Tensor) (dim : ℕ) (splitSize : UInt64) (h : Heap) : ℕ → Outcome (Heap × List Tensor)
  | 0 => .ok (h, [])
  | n + 1 =>
    (splitLoop src dim splitSize h n).bind fun r =>
      (tensorSlice r.1 src dim (UInt64.ofNat n * splitSize) ((UInt64.ofNat n + 1) * splitSize)).bind fun slice =>
        .ok (slice.1, r.2 ++ [slice.2])

/-- `SNEPPX_tensor_split`. -/
def tensorSplit (h : Heap) (src : Tensor) (numSplits : UInt64) (dim : ℕ) : Outcome (Heap × List Tensor) :=
  if numSplits = 0 ∨ dim ≥ src.shape.length ∨ src.shape.getD dim 0 % numSplits ≠ 0 then .null
  else splitLoop src dim (src.shape.getD dim 0 / numSplits) h numSplits.toNat

/-! ## What they are for -/

/-- Other contents of all storages. -/
def Heap.refill (h : Heap) (data : ℕ → ℕ → UInt8) : Heap :=
  { h with storages := fun s => (h.storages s).map fun st => { st with data := data s } }

/-- The tensors are of one type, and agree except in dimension `dim`; there is one. -/
structure Concatenable (ts : List Tensor) (dim : ℕ) (before after : List UInt64) (dtype : Dtype) : Prop where
  ne_nil : ts ≠ []
  length : before.length = dim
  dtype : ∀ t ∈ ts, t.dtype = dtype
  shape : ∀ t ∈ ts, t.shape = before ++ t.shape.getD dim 0 :: after

/-- The sum of the extents in dimension `dim`. -/
def extentSum (ts : List Tensor) (dim : ℕ) : ℕ := (ts.map fun t => (t.shape.getD dim 0).toNat).sum

/-- The result has a place for each element of each tensor, shifted by the extents of the tensors before it. -/
structure Placed (h : Heap) (ts : List Tensor) (dim : ℕ) (r : Heap × Tensor) : Prop where
  shape : ∀ t ∈ ts, extents r.2.shape = (extents t.shape).set dim (extentSum ts dim)
  dtype : ∀ t ∈ ts, r.2.dtype = t.dtype
  bytes : ∀ l t l', ts = l ++ t :: l' → ∀ i, Within i (extents t.shape) → ∀ b < t.itemSize.toNat,
    byteAt r.1 r.2 (i.modify dim (· + extentSum l dim)) b = byteAt h t i b

/-- Whatever the storages contain, `concat` puts the tensors next to each other. -/
def Concatenates (h : Heap) (ts : List Tensor) (dim : ℕ) : Prop :=
  ∀ data, ∃ r, tensorConcat (h.refill data) ts dim = .ok r ∧ Placed (h.refill data) ts dim r

/-- Whatever the storages contain, the slices put next to each other are the tensor. -/
def Rejoins (h : Heap) (t : Tensor) (numSplits : UInt64) (dim : ℕ) : Prop :=
  ∀ data, ∃ s r, tensorSplit (h.refill data) t numSplits dim = .ok s ∧ tensorConcat s.1 s.2 dim = .ok r ∧
    SameElements (h.refill data) t r

/-! ## When they do -/

/-- The elements of the tensors as they are stored, by storage and address. -/
def sources (ts : List Tensor) : List (ℕ × ℕ) :=
  ts.flatMap fun t => (List.range (extents t.shape).prod).map fun q => (t.storage, t.offset.toNat + q)

/-- Each element of each tensor is where its index in the result says. -/
def InOrder (ts : List Tensor) (dim : ℕ) (before after : List UInt64) : Prop :=
  ∀ l t l', ts = l ++ t :: l' → ∀ i, Within i (extents t.shape) →
    (sources ts)[dot (i.modify dim (· + extentSum l dim))
      (packedStrides (extents before ++ extentSum ts dim :: extents after))]? = some (t.storage, t.layout.address i)

/-- Slice number `k` of a tensor. -/
def sliceAt (t : Tensor) (dim : ℕ) (splitSize : UInt64) (k : ℕ) : Tensor :=
  { t with
    offset := t.offset + UInt64.ofNat k * splitSize * t.strides.getD dim 0
    shape := t.shape.set dim splitSize
    size := numel (t.shape.set dim splitSize) }

def slices (t : Tensor) (numSplits : UInt64) (dim : ℕ) : List Tensor :=
  (List.range numSplits.toNat).map (sliceAt t dim (t.shape.getD dim 0 / numSplits))

/-- The slices, as they are stored, have the elements of the tensor in order. -/
def SlicesInOrder (t : Tensor) (numSplits : UInt64) (dim : ℕ) : Prop :=
  ∀ i, Within i (extents t.shape) →
    (sources (slices t numSplits dim))[dot i (packedStrides (extents t.shape))]? = some (t.storage, t.layout.address i)

end SneppxAlg.TensorEngine
