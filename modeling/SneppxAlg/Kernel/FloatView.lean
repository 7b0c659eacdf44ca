import SneppxAlg.Kernel.TensorContiguous

/-!
# Tensors of floats with any strides

The functions of `tensor.c` that compute with floats read the elements of an operand one after another, as they lie
in memory; their results are new tensors, stored row after row. `tensor_prep_contiguous` makes a copy of an operand that is not contiguous, by `SNEPPX_tensor_contiguous`; this has the
right elements at their places for some layouts only, but it never leaves the storage (`View.Valid.exists_source`).
-/

namespace SneppxAlg.FloatView

open Lib.Strided
open TensorEngine (Outcome numel extents rowMajor isContiguous flatOffset offsetFrom)

/-- A tensor with its strides; `cells` is the number of elements from `data` to the end of the storage. -/
structure View (R : Type) where
  shape : List UInt64
  strides : List UInt64
  cells : ℕ
  data : ℕ → R

variable {R : Type}

namespace View

/-- What the engine sees of the view. -/
def desc (v : View R) : TensorEngine.Tensor where
  storage := 0
  offset := 0
  shape := v.shape
  strides := v.strides
  size := numel v.shape
  dtype := .float32

/-- The index is computed in `size_t`. -/
def read (v : View R) (i : ℕ) : Option R :=
  if i % 2 ^ 64 < v.cells then some (v.data (i % 2 ^ 64)) else none

end View

/-- A new tensor, stored row after row; `cells` is the number of elements that its memory has room for. -/
structure FloatTensor (R : Type) where
  shape : List UInt64
  cells : ℕ
  data : ℕ → R

/-- The new tensor as an operand. -/
def asView (t : FloatTensor R) : View R := ⟨t.shape, rowMajor t.shape, t.cells, t.data⟩

/-- `SNEPPX_tensor_zeros` for floats. -/
def tensorZeros [Zero R] (alloc : ℕ → Bool) (shape : List UInt64) : Outcome (FloatTensor R) :=
  let bytes := (numel shape * 4).toNat
  if alloc bytes then .ok ⟨shape, bytes / 4, fun _ => 0⟩ else .null

/-- `SNEPPX_tensor_contiguous` for a tensor that is not: element number `flat` of the copy is read at
`flatOffset`. -/
def contiguousCopy (v : View R) : Option (View R) :=
  if ∀ flat < (numel v.shape).toNat, (flatOffset v.desc (UInt64.ofNat flat)).toNat < v.cells then
    some
      { shape := v.shape
        strides := rowMajor v.shape
        cells := (numel v.shape * 4).toNat / 4
        data := fun flat => v.data (flatOffset v.desc (UInt64.ofNat flat)).toNat }
  else none

/-- `tensor_prep_contiguous`; a copy that gets no memory is done without. -/
def prepContiguous (alloc : ℕ → Bool) (v : View R) : Option (View R) :=
  if isContiguous v.desc then some v
  else if alloc (numel v.shape * 4).toNat then contiguousCopy v
  else some v

namespace View

variable (v : View R)

def withData (x : ℕ → R) : View R := { v with data := x }

def place (index : List ℕ) : ℕ := dot index (extents v.strides)

/-- Element number `q` in index order. -/
def elem (q : ℕ) : R := v.data (v.place (unflatten (extents v.shape) q))

/-- The place that element number `q` of the prepared operand comes from. -/
def source (q : ℕ) : ℕ :=
  if isContiguous v.desc then q else offsetFrom (extents v.shape).reverse (extents v.strides).reverse q

/-- A tensor inside its storage. -/
structure Valid : Prop where
  lengths : v.shape.length = v.strides.length
  fits : 4 * (extents v.shape).prod < 2 ^ 64
  below : (Layout.mk 0 (extents v.shape) (extents v.strides)).Below v.cells

end View

/-! ## Prepared operands -/

section Prepared

/-- The offset that `contiguous` computes is that of an element. -/
theorem exists_index_offsetFrom {shape strides : List ℕ} (hlen : shape.length = strides.length)
    (hpos : 0 < shape.prod) (tmp : ℕ) : ∃ i, Within i shape ∧ offsetFrom shape strides tmp = dot i strides := by
  induction shape generalizing strides tmp with
  | nil =>
    obtain rfl := List.length_eq_zero_iff.mp hlen.symm
    exact ⟨[], .nil, rfl⟩
  | cons s shape ih =>
    obtain _ | ⟨st, strides⟩ := strides
    · cases hlen
    · rw [List.prod_cons] at hpos
      have hs : 0 < s := Nat.pos_of_mul_pos_right hpos
      have hrest := ih (Nat.succ.inj hlen) (Nat.pos_of_mul_pos_left hpos)
      rw [offsetFrom]
      split_ifs with hst
      · obtain ⟨i, hi, heq⟩ := hrest (tmp % st)
        exact ⟨tmp / st % s :: i, within_cons.mpr ⟨Nat.mod_lt _ hs, hi⟩, by rw [dot_cons, heq]⟩
      · obtain ⟨i, hi, heq⟩ := hrest tmp
        exact ⟨0 :: i, within_cons.mpr ⟨hs, hi⟩, by rw [dot_cons, heq, Nat.zero_mul, Nat.zero_add]⟩

namespace View

variable {v : View R} {alloc : ℕ → Bool} {q : ℕ} (hv : v.Valid)
include hv

theorem Valid.packed (hpos : 0 < (extents v.shape).prod) (hc : isContiguous v.desc = true) :
    extents v.strides = packedStrides (extents v.shape) := by
  have hfits := hv.fits
  have hrow : v.desc.strides = rowMajor v.shape := (TensorEngine.isContiguous_iff hv.lengths).mp hc
  rw [← TensorEngine.rowMajor_toNat hpos (by omega), ← hrow]
  rfl

theorem Valid.place_lt (hq : q < (extents v.shape).prod) : v.place (unflatten (extents v.shape) q) < v.cells := by
  have hlt := hv.below _ (within_unflatten (Nat.lt_of_le_of_lt (Nat.zero_le q) hq) q)
  rwa [Layout.address, Nat.zero_add] at hlt

/-- Every element of the prepared operand is one of the operand. -/
theorem Valid.exists_source (hq : q < (extents v.shape).prod) :
    ∃ i, Within i (extents v.shape) ∧ v.place i = v.source q := by
  have hpos : 0 < (extents v.shape).prod := Nat.lt_of_le_of_lt (Nat.zero_le q) hq
  rw [source]
  split_ifs with hc
  · exact ⟨unflatten (extents v.shape) q, within_unflatten hpos q, by rw [place, hv.packed hpos hc, dot_unflatten hq]⟩
  · have hlen : (extents v.shape).reverse.length = (extents v.strides).reverse.length := by simpa using hv.lengths
    obtain ⟨i, hi, heq⟩ := exists_index_offsetFrom hlen (by rwa [List.prod_reverse]) q
    have hin : Within i.reverse (extents v.shape) := by
      rw [← within_reverse, List.reverse_reverse]
      exact hi
    refine ⟨i.reverse, hin, ?_⟩
    rw [place, heq, ← dot_reverse (by simpa [hv.lengths] using hin.length_eq), List.reverse_reverse]

theorem Valid.source_lt (hq : q < (extents v.shape).prod) : v.source q < v.cells := by
  obtain ⟨i, hi, heq⟩ := hv.exists_source hq
  have hlt := hv.below i hi
  rwa [Layout.address, Nat.zero_add, ← place, heq] at hlt

theorem Valid.bytes : (numel v.shape * 4).toNat = 4 * (extents v.shape).prod := by
  have hfits := hv.fits
  rw [UInt64.toNat_mul, TensorEngine.numel_toNat (by omega), show (4 : UInt64).toNat = 4 from rfl,
    Nat.mod_eq_of_lt (by omega), Nat.mul_comm]

/-- Preparing an operand succeeds, and its elements can be read one after another. -/
theorem Valid.prepContiguous (halloc : alloc (4 * (extents v.shape).prod) = true) (x : ℕ → R) :
    ∃ w, prepContiguous alloc (v.withData x) = some w ∧ w.shape = v.shape ∧
      ∀ q < (extents v.shape).prod, w.read q = some (x (v.source q)) := by
  have hfits := hv.fits
  have hdesc : (v.withData x).desc = v.desc := rfl
  have hnumel : (numel v.shape).toNat = (extents v.shape).prod := TensorEngine.numel_toNat (by omega)
  cases hc : isContiguous v.desc with
  | true =>
    refine ⟨v.withData x, by rw [FloatView.prepContiguous, hdesc, if_pos hc], rfl, fun q hq => ?_⟩
    have hlt := hv.source_lt hq
    rw [source, if_pos hc] at hlt ⊢
    rw [read, Nat.mod_eq_of_lt (by omega)]
    exact if_pos hlt
  | false =>
    have hoffset : ∀ q < (extents v.shape).prod, (flatOffset v.desc (UInt64.ofNat q)).toNat = v.source q := by
      intro q hq
      have hlen : v.desc.shape.length = v.desc.strides.length := hv.lengths
      rw [TensorEngine.flatOffset_toNat hlen, UInt64.toNat_ofNat_of_lt' (show q < 2 ^ 64 by omega), source,
        if_neg (by simp [hc])]
      rfl
    have hcopy : ∀ q < (numel v.shape).toNat, (flatOffset v.desc (UInt64.ofNat q)).toNat < v.cells := by
      intro q hq
      rw [hnumel] at hq
      rw [hoffset q hq]
      exact hv.source_lt hq
    have hnew : contiguousCopy (v.withData x) = some _ := if_pos hcopy
    have hgrant : alloc (numel (v.withData x).shape * 4).toNat = true := hv.bytes.symm ▸ halloc
    have hprep : FloatView.prepContiguous alloc (v.withData x) = contiguousCopy (v.withData x) := by
      rw [FloatView.prepContiguous, hdesc, hc, if_neg Bool.false_ne_true, if_pos hgrant]
    refine ⟨_, hprep.trans hnew, rfl, fun q hq => ?_⟩
    have hcells : q < (numel v.shape * 4).toNat / 4 := by
      rw [hv.bytes]
      omega
    rw [read, Nat.mod_eq_of_lt (by omega), ← hoffset q hq]
    exact if_pos hcells

end View

end Prepared

/-! ## Packed tensors -/

namespace View

theorem place_of_rowMajor {v : View R} {q : ℕ} (hrow : v.strides = rowMajor v.shape)
    (hfits : (extents v.shape).prod < 2 ^ 64) (hq : q < (extents v.shape).prod) :
    v.place (unflatten (extents v.shape) q) = q := by
  rw [place, hrow, TensorEngine.rowMajor_toNat (Nat.lt_of_le_of_lt (Nat.zero_le q) hq) hfits, dot_unflatten hq]

/-- A tensor stored row after row. -/
def packed (shape : List UInt64) (x : ℕ → R) : View R := ⟨shape, rowMajor shape, (extents shape).prod, x⟩

theorem packed_valid {shape : List UInt64} (h : 4 * (extents shape).prod < 2 ^ 64) (x : ℕ → R) :
    (packed shape x).Valid where
  lengths := (TensorEngine.length_rowMajor shape).symm
  fits := h
  below := by
    intro i hi
    have hpos : 0 < (extents shape).prod := hi.prod_pos
    change 0 + dot i (extents (rowMajor shape)) < (extents shape).prod
    rw [TensorEngine.rowMajor_toNat hpos (by omega), Nat.zero_add]
    exact dot_packed_lt hi

theorem packed_isContiguous (shape : List UInt64) (x : ℕ → R) : isContiguous (packed shape x).desc = true := by
  have hlen : (packed shape x).desc.shape.length = (packed shape x).desc.strides.length :=
    (TensorEngine.length_rowMajor shape).symm
  exact (TensorEngine.isContiguous_iff hlen).mpr rfl

end View

end SneppxAlg.FloatView
