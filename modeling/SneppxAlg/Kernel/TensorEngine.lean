import Mathlib

/-!
# `tensor.c`: storages, tensors and views

A tensor is a shape with strides and an offset into a storage, which the tensors that refer to it
count. `size_t` arithmetic wraps. Allocations succeed, and the contents of new memory are arbitrary
(`Heap.fresh`). The `int` reference count is an integer without bounds. An operation ends in
`Outcome.fault` where the source accesses memory that it does not own, divides by zero, or writes past
the end of one of its arrays of 16 extents. Devices, layouts and backend handles are left out.
-/

namespace SneppxAlg.TensorEngine

/-! ## Data -/

/-- `SNEPPXDtype`. -/
inductive Dtype where
  | float8 | float16 | bfloat16 | float32 | float64 | int8 | int16 | int32 | int64 | uint8 | bool
  | complex64 | complex128
deriving DecidableEq

/-- `SNEPPX_tensor_dtype_size`. -/
def Dtype.size : Dtype → UInt64
  | .float8 | .int8 | .uint8 | .bool => 1
  | .float16 | .bfloat16 | .int16 => 2
  | .float32 | .int32 => 4
  | .float64 | .int64 | .complex64 => 8
  | .complex128 => 16

/-- `SNEPPXStorage`. -/
structure Storage where
  data : ℕ → UInt8
  numBytes : UInt64
  refCount : ℤ

/-- `SNEPPXTensor`; `ndim` is the length of the shape. -/
structure Tensor where
  storage : ℕ
  offset : UInt64
  shape : List UInt64
  strides : List UInt64
  size : UInt64
  dtype : Dtype
deriving DecidableEq

/-- `item_size`. -/
def Tensor.itemSize (t : Tensor) : UInt64 := t.dtype.size

/-- The storages by their addresses, the next address, and the contents of new memory. -/
structure Heap where
  storages : ℕ → Option Storage
  next : ℕ
  fresh : ℕ → ℕ → UInt8

/-- The end of an operation: no defined behaviour, a null pointer, or a result. -/
inductive Outcome (α : Type) where
  | fault
  | null
  | ok (a : α)

namespace Outcome

/-- An operation on the result. -/
def bind {α β : Type} : Outcome α → (α → Outcome β) → Outcome β
  | fault, _ => fault
  | null, _ => null
  | ok a, f => f a

/-- An operation with a defined result. -/
def ofOption {α : Type} : Option α → Outcome α
  | none => fault
  | some a => ok a

end Outcome

/-! ## Storages -/

/-- `SNEPPX_storage_create`. -/
def storageCreate (h : Heap) (numBytes : UInt64) : ℕ × Heap :=
  let st : Storage := { data := h.fresh h.next, numBytes := numBytes, refCount := 1 }
  (h.next, { h with storages := Function.update h.storages h.next (some st), next := h.next + 1 })

/-- `SNEPPX_storage_retain`. -/
def storageRetain (h : Heap) (s : ℕ) : Option Heap :=
  (h.storages s).map fun st =>
    { h with storages := Function.update h.storages s (some { st with refCount := st.refCount + 1 }) }

/-- `SNEPPX_storage_release`. -/
def storageRelease (h : Heap) (s : ℕ) : Option Heap :=
  (h.storages s).map fun st =>
    let rest := if st.refCount - 1 ≤ 0 then none else some { st with refCount := st.refCount - 1 }
    { h with storages := Function.update h.storages s rest }

/-! ## Shapes -/

/-- The product of the extents, as `size`. -/
def numel (shape : List UInt64) : UInt64 := shape.foldl (· * ·) 1

def stridesLoop : List UInt64 → UInt64 → List UInt64
  | [], _ => []
  | s :: shape, stride => stride :: stridesLoop shape (stride * s)

/-- The strides that `SNEPPX_tensor_create` computes. -/
def rowMajor (shape : List UInt64) : List UInt64 := (stridesLoop shape.reverse 1).reverse

/-- The loop of `is_contiguous`, from the last stride on. -/
def contiguousLoop : List UInt64 → List UInt64 → UInt64 → Bool
  | s :: shape, st :: strides, expected => st = expected && contiguousLoop shape strides (expected * s)
  | _, _, _ => true

/-- `SNEPPX_tensor_is_contiguous`. -/
def isContiguous (t : Tensor) : Bool := contiguousLoop t.shape.reverse t.strides.reverse 1

/-! ## Creation and views -/

/-- `SNEPPX_tensor_create`. -/
def tensorCreate (h : Heap) (shape : List UInt64) (dtype : Dtype) : Heap × Tensor :=
  let total := numel shape
  let (s, h) := storageCreate h (total * dtype.size)
  (h, { storage := s, offset := 0, shape := shape, strides := rowMajor shape, size := total
        dtype := dtype })

/-- The arguments of `as_strided`. -/
structure View where
  offset : UInt64
  shape : List UInt64
  strides : List UInt64
deriving DecidableEq

/-- `SNEPPX_tensor_as_strided`. -/
def asStrided (h : Heap) (src : Tensor) (v : View) : Outcome (Heap × Tensor) :=
  (Outcome.ofOption (storageRetain h src.storage)).bind fun h =>
    .ok (h, { src with offset := v.offset, shape := v.shape, strides := v.strides, size := numel v.shape })

/-- The length of the arrays `new_shape` and `new_strides`. -/
def maxDims : ℕ := 16

/-- The view that `SNEPPX_tensor_narrow` computes. -/
def narrowView (src : Tensor) (dim : ℕ) (start size : UInt64) : Outcome View :=
  if dim ≥ src.shape.length then .null
  else if start + size > src.shape.getD dim 0 then .null
  else if src.shape.length > maxDims then .fault
  else .ok
    { offset := src.offset + start * src.strides.getD dim 0
      shape := src.shape.set dim size
      strides := src.strides }

/-- The view that `SNEPPX_tensor_slice` computes. -/
def sliceView (src : Tensor) (dim : ℕ) (start finish : UInt64) : Outcome View :=
  if dim ≥ src.shape.length then .null
  else if start ≥ finish then .null
  else if finish > src.shape.getD dim 0 then .null
  else narrowView src dim start (finish - start)

/-- The view that `SNEPPX_tensor_permute` computes; the first `ndim` axes are read. -/
def permuteView (src : Tensor) (axes : List ℕ) : Outcome View :=
  if src.shape.length > maxDims then .fault
  else if axes.length < src.shape.length then .fault
  else if ∃ a ∈ axes.take src.shape.length, a ≥ src.shape.length then .fault
  else .ok
    { offset := src.offset
      shape := (axes.take src.shape.length).map fun a => src.shape.getD a 0
      strides := (axes.take src.shape.length).map fun a => src.strides.getD a 0 }

/-- The view that `SNEPPX_tensor_transpose` computes. -/
def transposeView (src : Tensor) (dim1 dim2 : ℕ) : Outcome View :=
  if dim1 ≥ src.shape.length ∨ dim2 ≥ src.shape.length then .null
  else permuteView src (((List.range src.shape.length).set dim1 dim2).set dim2 dim1)

/-- The view that `SNEPPX_tensor_unsqueeze` computes. -/
def unsqueezeView (src : Tensor) (dim : ℕ) : Outcome View :=
  if dim > src.shape.length then .null
  else if src.shape.length + 1 > maxDims then .fault
  else .ok
    { offset := src.offset
      shape := src.shape.insertIdx dim 1
      strides := src.strides.insertIdx dim 0 }

/-- The view of a tensor whose extent `dim` is 1 that `SNEPPX_tensor_squeeze` computes. -/
def squeezeView (src : Tensor) (dim : ℕ) : Outcome View :=
  if src.shape.length > maxDims + 1 then .fault
  else .ok
    { offset := src.offset
      shape := src.shape.eraseIdx dim
      strides := src.strides.eraseIdx dim }

/-! ## Copies -/

/-- `memcpy` of `n` bytes between the data of two tensors; no bytes may be copied from and to
anywhere. -/
def copyData (h : Heap) (dst src : Tensor) (n : ℕ) : Option Heap :=
  (h.storages dst.storage).bind fun sd => (h.storages src.storage).bind fun ss =>
    let dstAt := (dst.offset * dst.itemSize).toNat
    let srcAt := (src.offset * src.itemSize).toNat
    if n = 0 ∨ dstAt + n ≤ sd.numBytes.toNat ∧ srcAt + n ≤ ss.numBytes.toNat then
      some { h with storages := Function.update h.storages dst.storage (some { sd with
        data := fun i => if dstAt ≤ i ∧ i < dstAt + n then ss.data (i - dstAt + srcAt) else sd.data i }) }
    else none

/-- `SNEPPX_tensor_copy`, and `SNEPPX_tensor_clone`. -/
def tensorCopy (h : Heap) (src : Tensor) : Outcome (Heap × Tensor) :=
  let (h, dst) := tensorCreate h src.shape src.dtype
  (Outcome.ofOption (copyData h dst src (src.size * src.itemSize).toNat)).bind fun h => .ok (h, dst)

/-- The new extents of `reshape`: `(size_t)-1` stands for the extent that is left, and the last of them
counts. -/
def resolveShape (size : UInt64) (newShape : List UInt64) : Option (List UInt64) :=
  let newSize := (newShape.filter (· != -1)).foldl (· * ·) 1
  let autoIdx := newShape.length - 1 - newShape.reverse.findIdx (· == -1)
  if (-1 : UInt64) ∈ newShape then
    if newSize = 0 then none else some (newShape.set autoIdx (size / newSize))
  else some newShape

/-- `SNEPPX_tensor_reshape`. -/
def tensorReshape (h : Heap) (src : Tensor) (newShape : List UInt64) : Outcome (Heap × Tensor) :=
  if newShape.length > maxDims then .fault
  else
    (Outcome.ofOption (resolveShape src.size newShape)).bind fun shape =>
      if isContiguous src ∧ src.shape ≠ [] then
        asStrided h src { offset := src.offset, shape := shape, strides := rowMajor shape }
      else
        let (h, result) := tensorCreate h shape src.dtype
        (Outcome.ofOption (copyData h result src (src.size * src.itemSize).toNat)).bind fun h =>
          .ok (h, result)

/-- `SNEPPX_tensor_narrow`. -/
def tensorNarrow (h : Heap) (src : Tensor) (dim : ℕ) (start size : UInt64) : Outcome (Heap × Tensor) :=
  (narrowView src dim start size).bind (asStrided h src)

/-- `SNEPPX_tensor_slice`. -/
def tensorSlice (h : Heap) (src : Tensor) (dim : ℕ) (start finish : UInt64) :
    Outcome (Heap × Tensor) :=
  (sliceView src dim start finish).bind (asStrided h src)

/-- `SNEPPX_tensor_permute`. -/
def tensorPermute (h : Heap) (src : Tensor) (axes : List ℕ) : Outcome (Heap × Tensor) :=
  (permuteView src axes).bind (asStrided h src)

/-- `SNEPPX_tensor_transpose`. -/
def tensorTranspose (h : Heap) (src : Tensor) (dim1 dim2 : ℕ) : Outcome (Heap × Tensor) :=
  (transposeView src dim1 dim2).bind (asStrided h src)

/-- `SNEPPX_tensor_squeeze`. -/
def tensorSqueeze (h : Heap) (src : Tensor) (dim : ℕ) : Outcome (Heap × Tensor) :=
  if dim ≥ src.shape.length ∨ src.shape.getD dim 0 ≠ 1 then tensorCopy h src
  else (squeezeView src dim).bind (asStrided h src)

/-- `SNEPPX_tensor_unsqueeze`. -/
def tensorUnsqueeze (h : Heap) (src : Tensor) (dim : ℕ) : Outcome (Heap × Tensor) :=
  (unsqueezeView src dim).bind (asStrided h src)

/-- The operations that make a tensor from another one. -/
inductive ViewOp where
  | narrow (dim : ℕ) (start size : UInt64)
  | slice (dim : ℕ) (start finish : UInt64)
  | permute (axes : List ℕ)
  | transpose (dim1 dim2 : ℕ)
  | squeeze (dim : ℕ)
  | unsqueeze (dim : ℕ)
  | reshape (newShape : List UInt64)
deriving DecidableEq

/-- One such operation. -/
def ViewOp.apply (h : Heap) (src : Tensor) : ViewOp → Outcome (Heap × Tensor)
  | narrow dim start size => tensorNarrow h src dim start size
  | slice dim start finish => tensorSlice h src dim start finish
  | permute axes => tensorPermute h src axes
  | transpose dim1 dim2 => tensorTranspose h src dim1 dim2
  | squeeze dim => tensorSqueeze h src dim
  | unsqueeze dim => tensorUnsqueeze h src dim
  | reshape newShape => tensorReshape h src newShape

/-! ## Contiguous copies -/

/-- The loop of `contiguous` that takes a flat index apart, from the last extent on; the strides are
those of the source. -/
def indexLoop : List UInt64 → List UInt64 → UInt64 → List UInt64
  | s :: shape, st :: strides, tmp =>
    if st > 0 then (tmp / st % s) :: indexLoop shape strides (tmp % st)
    else 0 :: indexLoop shape strides tmp
  | _, _, _ => []

/-- The offset that `contiguous` computes for a flat index. -/
def flatOffset (src : Tensor) (flat : UInt64) : UInt64 :=
  let indices := (indexLoop src.shape.reverse src.strides.reverse flat).reverse
  (List.zipWith (· * ·) indices src.strides).sum

/-- One round of the loop of `contiguous`. -/
def copyElement (dst src : Tensor) (h : Heap) (flat : ℕ) : Option Heap :=
  copyData h { dst with offset := dst.offset + UInt64.ofNat flat }
    { src with offset := src.offset + flatOffset src (UInt64.ofNat flat) } src.itemSize.toNat

/-- `SNEPPX_tensor_contiguous`. -/
def tensorContiguous (h : Heap) (src : Tensor) : Outcome (Heap × Tensor) :=
  if isContiguous src then
    (Outcome.ofOption (storageRetain h src.storage)).bind fun h =>
      asStrided h src { offset := src.offset, shape := src.shape, strides := src.strides }
  else
    let (h, result) := tensorCreate h src.shape src.dtype
    (Outcome.ofOption ((List.range src.size.toNat).foldlM (copyElement result src) h)).bind fun h =>
      .ok (h, result)

/-- `SNEPPX_tensor_destroy`. -/
def tensorDestroy (h : Heap) (t : Tensor) : Option Heap := storageRelease h t.storage

end SneppxAlg.TensorEngine
