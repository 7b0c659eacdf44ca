import SneppxAlg.Kernel.GradTensor
import SneppxAlg.Lib.Slices

/-!
# `ops.c`: the gradients of `sum`, `mean`, `cumsum` and `cumprod`

The operations work on the slices of a tensor along a dimension. Every element of a result is a
polynomial in the elements of the input that is linear in each of them, so that the entry of the
Jacobian is the difference that one added to the element makes (`jacobian`, `forwardElem_slope`). The
backward function should add the transposed Jacobian applied to the incoming gradient (`vjp`).

* `backward_sum` and `backward_cumsum` do so for incoming gradients in index order; they read the data as it lies in
  memory, whatever the strides are.
* `backward_mean` expands the gradient to a shape that has the extent 1 in all other dimensions.
* `backward_cumprod` has no sum over the later positions: it multiplies the elements from the place on,
  divides by the element plus a small constant, and takes the gradient of the place alone.

Arithmetic is that of a field of characteristic zero. The input is contiguous; the incoming gradient has any strides.

Main result: `reduction_exact_iff`.
-/

namespace SneppxAlg.ReduceGrad

open GradTensor Lib.Slices Lib.Strided

/-! ## The dimensions -/

/-- The extents before the dimension. -/
def outer (shape : List ℕ) (dim : ℕ) : ℕ := (shape.take dim).prod

/-- The extent of the dimension. -/
def dimSize (shape : List ℕ) (dim : ℕ) : ℕ := shape.getD dim 0

/-- The extents after the dimension. -/
def inner (shape : List ℕ) (dim : ℕ) : ℕ := (shape.drop (dim + 1)).prod

/-- The operations. -/
inductive ReduceOp where
  | sum | mean | cumsum | cumprod
deriving DecidableEq

def ReduceOp.outShape (op : ReduceOp) (shape : List ℕ) (dim : ℕ) : List ℕ :=
  match op with
  | sum | mean => shape.set dim 1
  | cumsum | cumprod => shape

variable {R : Type} [Field R]

/-- Position `r` of slice `q`. -/
def row (x : Dense R) (dim q r : ℕ) : R :=
  x.elem (expanded (dimSize x.shape dim) (inner x.shape dim) q r)

def sliceOf (shape : List ℕ) (dim p : ℕ) : ℕ := reduced (dimSize shape dim) (inner shape dim) p

/-- The position of a place in its slice. -/
def posOf (shape : List ℕ) (dim p : ℕ) : ℕ := pos (dimSize shape dim) (inner shape dim) p

/-! ## The forward operations -/

/-- The loop over `r` in a copy of the row: each element takes in the one before. -/
def scan (f : R → R → R) (row : ℕ → R) : ℕ → R
  | 0 => row 0
  | r + 1 => f (row (r + 1)) (scan f row r)

/-- One element of a result. -/
def forwardElem (op : ReduceOp) (x : Dense R) (dim q : ℕ) : R :=
  match op with
  | .sum => ∑ r ∈ Finset.range (dimSize x.shape dim), row x dim q r
  | .mean => (∑ r ∈ Finset.range (dimSize x.shape dim), row x dim q r) * (1 / dimSize x.shape dim)
  | .cumsum => scan (· + ·) (row x dim (sliceOf x.shape dim q)) (posOf x.shape dim q)
  | .cumprod => scan (· * ·) (row x dim (sliceOf x.shape dim q)) (posOf x.shape dim q)

/-! ## `SNEPPX_tensor_expand` -/

/-- The loop from the last extent on that takes `tmp` apart. -/
def dstIndices : List ℕ → List ℕ → ℕ → List ℕ
  | s :: shape, st :: strides, tmp =>
    if 0 < st then tmp / st % s :: dstIndices shape strides (tmp % st)
    else 0 :: dstIndices shape strides tmp
  | _, _, _ => []

/-- `compute_offset` of the indices in the source, which are aligned at the last extent. -/
def expandOffset (srcShape newShape : List ℕ) (flat : ℕ) : ℕ :=
  dot (List.zipWith (fun sdim s => if s ≤ sdim then 0 else sdim)
      (dstIndices newShape.reverse (packedStrides newShape).reverse flat) srcShape.reverse)
    (packedStrides srcShape).reverse

/-- `SNEPPX_tensor_expand`; the inner `none` is the null pointer. -/
def tensorExpand (src : Dense R) (newShape : List ℕ) : Option (Option (Dense R)) :=
  if newShape.length < src.shape.length then some none
  else if ∀ i < newShape.prod, expandOffset src.shape newShape i < src.size then
    some (some (.ofFn newShape fun i => src.elem (expandOffset src.shape newShape i)))
  else none

/-! ## The backward functions -/

local instance atLeastTwo_ten : Nat.AtLeastTwo 10 := ⟨by decide⟩

/-- The constant that the divisor is kept away from zero with. -/
def eps : R := 1 / 10 ^ 12

/-- The loop over `d` from the end of a row, after `k` turns. -/
def fromEnd (f : R → R → R) (z : R) (row : ℕ → R) (n : ℕ) : ℕ → R
  | 0 => z
  | k + 1 => f (fromEnd f z row n k) (row (n - (k + 1)))

/-- The tensor that `backward_sum` adds. -/
def gradSum (shape : List ℕ) (dim : ℕ) (g : View R) : Dense R :=
  .ofFn shape fun p => g.cell (sliceOf shape dim p)

/-- The tensor that `backward_cumsum` adds: each place is written in the turn for its position. -/
def gradCumsum (shape : List ℕ) (dim : ℕ) (g : View R) : Dense R :=
  let n := dimSize shape dim
  .ofFn shape fun p =>
    fromEnd (· + ·) 0 (fun d => g.cell (expanded n (inner shape dim) (sliceOf shape dim p) d)) n
      (n - posOf shape dim p)

/-- The tensor that `backward_cumprod` adds. -/
def gradCumprod (x : Dense R) (dim : ℕ) (g : View R) : Dense R :=
  let n := dimSize x.shape dim
  .ofFn x.shape fun p =>
    g.cell p * (fromEnd (· * ·) 1 (row x dim (sliceOf x.shape dim p)) n (n - posOf x.shape dim p)
      / (x.elem p + eps))

/-- The tensor that `backward_mean` adds: the scaled gradient, expanded. -/
def gradMean (shape : List ℕ) (dim : ℕ) (g : View R) : Option (Option (Dense R)) :=
  g.copy.bind fun go =>
    tensorExpand (.ofFn go.shape fun i => go.elem i * (1 / dimSize shape dim))
      ((List.replicate shape.length 1).set dim (dimSize shape dim))

/-- The tensor that is handed to `grad_accum`; the inner `none` is the null pointer. -/
def contribution (op : ReduceOp) (x : Dense R) (dim : ℕ) (g : View R) : Option (Option (Dense R)) :=
  match op with
  | .sum => if ∀ p < x.size, sliceOf x.shape dim p < g.data.length then some (some (gradSum x.shape dim g)) else none
  | .mean => gradMean x.shape dim g
  | .cumsum => if x.size ≤ g.data.length then some (some (gradCumsum x.shape dim g)) else none
  | .cumprod => if x.size ≤ g.data.length then some (some (gradCumprod x dim g)) else none

/-- `backward_sum`, `backward_mean`, `backward_cumsum` and `backward_cumprod`: the gradient of the input
afterwards. -/
def backward (op : ReduceOp) (requiresGrad : Bool) (x : Dense R) (dim : ℕ) (g : View R)
    (grad : Option (View R)) : Option (Option (View R)) :=
  if requiresGrad then
    (contribution op x dim g).bind fun
      | none => some grad
      | some y => gradAccum grad y.view
  else some grad

/-! ## The exact gradient -/

/-- The derivative of element `q` of the result in element `j` of the input. -/
def jacobian (op : ReduceOp) (x : Dense R) (dim q j : ℕ) : R :=
  forwardElem op (x.bump j 1) dim q - forwardElem op x dim q

/-- The transposed Jacobian applied to the incoming gradient. -/
def vjp (op : ReduceOp) (x : Dense R) (dim : ℕ) (g : View R) (j : ℕ) : R :=
  ∑ q ∈ Finset.range (op.outShape x.shape dim).prod, g.elem q * jacobian op x dim q j

/-- For all values of the incoming gradient, which has the strides, and all gradients before, the backward function
adds the exact gradient. -/
def Exact (op : ReduceOp) (requiresGrad : Bool) (x : Dense R) (dim : ℕ) (strides : List ℕ) : Prop :=
  ∀ (g : View R) (grad : Option (View R)), Lies g (op.outShape x.shape dim) strides → Ordered x.shape grad →
    ∃ grad', backward op requiresGrad x dim g grad = some grad' ∧
      Gets requiresGrad grad grad' x.shape (vjp op x dim g)

/-! ## Places, slices and positions -/

theorem prod_eq {shape : List ℕ} {dim : ℕ} (hdim : dim < shape.length) :
    shape.prod = outer shape dim * (dimSize shape dim * inner shape dim) := by
  have hget : dimSize shape dim = shape[dim] := by simp [dimSize, hdim]
  rw [hget, outer, inner, ← List.prod_cons, ← List.drop_eq_getElem_cons hdim,
    List.prod_take_mul_prod_drop]

theorem prod_set_one {shape : List ℕ} {dim : ℕ} (hdim : dim < shape.length) :
    (shape.set dim 1).prod = outer shape dim * inner shape dim := by
  rw [List.prod_set, if_pos hdim, Nat.mul_one, outer, inner]

theorem sliceOf_lt {shape : List ℕ} {dim p : ℕ} (hdim : dim < shape.length) (hp : p < shape.prod) :
    sliceOf shape dim p < outer shape dim * inner shape dim := by
  rw [prod_eq hdim] at hp
  exact reduced_lt hp

theorem dimSize_pos {shape : List ℕ} {dim p : ℕ} (hdim : dim < shape.length) (hp : p < shape.prod) :
    0 < dimSize shape dim := by
  rw [prod_eq hdim] at hp
  exact Nat.pos_of_ne_zero fun h => by simp [h] at hp

theorem posOf_lt {shape : List ℕ} {dim p : ℕ} (hdim : dim < shape.length) (hp : p < shape.prod) :
    posOf shape dim p < dimSize shape dim :=
  pos_lt (dimSize_pos hdim hp) p

theorem sliceOf_expanded {shape : List ℕ} {dim d : ℕ} (q : ℕ) (hw : 0 < inner shape dim)
    (hd : d < dimSize shape dim) :
    sliceOf shape dim (expanded (dimSize shape dim) (inner shape dim) q d) = q :=
  reduced_expanded hw q hd

theorem posOf_expanded {shape : List ℕ} {dim d : ℕ} (q : ℕ) (hw : 0 < inner shape dim)
    (hd : d < dimSize shape dim) :
    posOf shape dim (expanded (dimSize shape dim) (inner shape dim) q d) = d :=
  pos_expanded hw q hd

theorem inner_pos {shape : List ℕ} {dim p : ℕ} (hdim : dim < shape.length) (hp : p < shape.prod) :
    0 < inner shape dim := by
  rw [prod_eq hdim] at hp
  exact Nat.pos_of_ne_zero fun h => by simp [h] at hp

/-! ## The derivatives -/

section Derivatives

variable {x : Dense R} {dim q j : ℕ}

/-- An element is in one row only, at one position. -/
theorem row_bump {r : ℕ} (h : R) (hdim : dim < x.shape.length)
    (hq : q < outer x.shape dim * inner x.shape dim) (hr : r < dimSize x.shape dim) :
    row (x.bump j h) dim q r
      = row x dim q r + if sliceOf x.shape dim j = q ∧ posOf x.shape dim j = r then h else 0 := by
  have hw : 0 < inner x.shape dim := Nat.pos_of_ne_zero fun h => by simp [h] at hq
  have hlt : expanded (dimSize x.shape dim) (inner x.shape dim) q r < x.size := by
    rw [Dense.size, prod_eq hdim]
    exact expanded_lt hq hr
  have hplace : expanded (dimSize x.shape dim) (inner x.shape dim) q r = j ↔
      sliceOf x.shape dim j = q ∧ posOf x.shape dim j = r := expanded_eq_iff hw hr
  rw [row, row, show (x.bump j h).shape = x.shape from rfl, Dense.bump, Dense.elem_ofFn _ hlt]
  by_cases hj : sliceOf x.shape dim j = q ∧ posOf x.shape dim j = r
  · rw [if_pos (hplace.mpr hj), if_pos hj]
  · rw [if_neg (mt hplace.mp hj), if_neg hj, add_zero]

theorem scan_add_eq (row : ℕ → R) (r : ℕ) : scan (· + ·) row r = ∑ k ∈ Finset.range (r + 1), row k := by
  induction r with
  | zero => simp [scan]
  | succ r ih => rw [scan, ih, Finset.sum_range_succ _ (r + 1), add_comm]

theorem scan_mul_eq (row : ℕ → R) (r : ℕ) : scan (· * ·) row r = ∏ k ∈ Finset.range (r + 1), row k := by
  induction r with
  | zero => simp [scan]
  | succ r ih => rw [scan, ih, Finset.prod_range_succ _ (r + 1), mul_comm]

/-- The derivatives in closed form. -/
def slope (op : ReduceOp) (x : Dense R) (dim q j : ℕ) : R :=
  let n := dimSize x.shape dim
  let slice := sliceOf x.shape dim
  let pos := posOf x.shape dim
  match op with
  | .sum => if slice j = q then 1 else 0
  | .mean => if slice j = q then 1 / n else 0
  | .cumsum => if slice j = slice q ∧ pos j ≤ pos q then 1 else 0
  | .cumprod =>
    if slice j = slice q ∧ pos j ≤ pos q then
      ∏ r ∈ (Finset.range (pos q + 1)).erase (pos j), row x dim (slice q) r
    else 0

/-- A row with `h` added at one of its first `m` positions. -/
theorem sum_row_bump {m : ℕ} (h : R) (hdim : dim < x.shape.length)
    (hq : q < outer x.shape dim * inner x.shape dim) (hm : m ≤ dimSize x.shape dim) :
    ∑ r ∈ Finset.range m, row (x.bump j h) dim q r
      = (∑ r ∈ Finset.range m, row x dim q r)
        + if sliceOf x.shape dim j = q ∧ posOf x.shape dim j < m then h else 0 := by
  have hrow : ∀ r ∈ Finset.range m, row (x.bump j h) dim q r
      = row x dim q r + if sliceOf x.shape dim j = q ∧ posOf x.shape dim j = r then h else 0 :=
    fun r hr => row_bump h hdim hq (Nat.lt_of_lt_of_le (Finset.mem_range.mp hr) hm)
  rw [Finset.sum_congr rfl hrow, Finset.sum_add_distrib]
  by_cases hs : sliceOf x.shape dim j = q
  · simp [hs, Finset.sum_ite_eq]
  · simp [hs]

theorem prod_row_bump {m : ℕ} (h : R) (hdim : dim < x.shape.length)
    (hq : q < outer x.shape dim * inner x.shape dim) (hm : m ≤ dimSize x.shape dim) :
    ∏ r ∈ Finset.range m, row (x.bump j h) dim q r
      = (∏ r ∈ Finset.range m, row x dim q r)
        + h * if sliceOf x.shape dim j = q ∧ posOf x.shape dim j < m then
            ∏ r ∈ (Finset.range m).erase (posOf x.shape dim j), row x dim q r
          else 0 := by
  have hrow : ∀ r ∈ Finset.range m, row (x.bump j h) dim q r
      = row x dim q r + if sliceOf x.shape dim j = q ∧ posOf x.shape dim j = r then h else 0 :=
    fun r hr => row_bump h hdim hq (Nat.lt_of_lt_of_le (Finset.mem_range.mp hr) hm)
  rw [Finset.prod_congr rfl hrow]
  by_cases hs : sliceOf x.shape dim j = q ∧ posOf x.shape dim j < m
  · obtain ⟨hslice, hlt⟩ := hs
    have hmem : posOf x.shape dim j ∈ Finset.range m := Finset.mem_range.mpr hlt
    have hrest : ∀ r ∈ (Finset.range m).erase (posOf x.shape dim j),
        (row x dim q r + if sliceOf x.shape dim j = q ∧ posOf x.shape dim j = r then h else 0)
          = row x dim q r := fun r hr => by
      rw [if_neg fun hc => Finset.ne_of_mem_erase hr hc.2.symm, add_zero]
    rw [if_pos ⟨hslice, hlt⟩, ← Finset.mul_prod_erase _ _ hmem, Finset.prod_congr rfl hrest,
      if_pos ⟨hslice, rfl⟩, add_mul, Finset.mul_prod_erase _ _ hmem]
  · rw [if_neg hs, mul_zero, add_zero]
    refine Finset.prod_congr rfl fun r hr => ?_
    have hne : ¬(sliceOf x.shape dim j = q ∧ posOf x.shape dim j = r) := fun hc =>
      hs ⟨hc.1, hc.2 ▸ Finset.mem_range.mp hr⟩
    rw [if_neg hne, add_zero]

/-- Every element of a result is linear in every element of the input. -/
theorem forwardElem_slope (op : ReduceOp) (h : R) (hdim : dim < x.shape.length) (hj : j < x.size)
    (hq : q < (op.outShape x.shape dim).prod) :
    forwardElem op (x.bump j h) dim q = forwardElem op x dim q + h * slope op x dim q j := by
  have hshape : (x.bump j h).shape = x.shape := rfl
  have hjn : posOf x.shape dim j < dimSize x.shape dim := posOf_lt hdim hj
  cases op with
  | sum =>
    simp only [ReduceOp.outShape, prod_set_one hdim] at hq
    simp only [forwardElem, hshape, slope, sum_row_bump h hdim hq le_rfl, hjn, and_true, mul_ite, mul_one,
      mul_zero]
  | mean =>
    simp only [ReduceOp.outShape, prod_set_one hdim] at hq
    simp only [forwardElem, hshape, slope, sum_row_bump h hdim hq le_rfl, hjn, and_true, add_mul, mul_ite,
      ite_mul, mul_zero, zero_mul]
  | cumsum =>
    have hslice := sliceOf_lt hdim hq
    have hpos : posOf x.shape dim q + 1 ≤ dimSize x.shape dim := posOf_lt hdim hq
    simp only [forwardElem, hshape, slope, scan_add_eq, sum_row_bump h hdim hslice hpos, mul_ite, mul_one,
      mul_zero, Nat.lt_succ_iff]
  | cumprod =>
    have hslice := sliceOf_lt hdim hq
    have hpos : posOf x.shape dim q + 1 ≤ dimSize x.shape dim := posOf_lt hdim hq
    simp only [forwardElem, hshape, slope, scan_mul_eq, prod_row_bump h hdim hslice hpos, mul_ite, mul_zero,
      Nat.lt_succ_iff]

theorem jacobian_eq (op : ReduceOp) (hdim : dim < x.shape.length) (hj : j < x.size)
    (hq : q < (op.outShape x.shape dim).prod) : jacobian op x dim q j = slope op x dim q j := by
  rw [jacobian, forwardElem_slope op 1 hdim hj hq, one_mul, add_sub_cancel_left]

/-! ## The exact gradients in closed form -/

theorem vjp_eq_slope (op : ReduceOp) (g : View R) (hdim : dim < x.shape.length) (hj : j < x.size) :
    vjp op x dim g j
      = ∑ q ∈ Finset.range (op.outShape x.shape dim).prod, g.elem q * slope op x dim q j :=
  Finset.sum_congr rfl fun q hq => by rw [jacobian_eq op hdim hj (Finset.mem_range.mp hq)]

omit [Field R] in
theorem sliceOf_mem (hdim : dim < x.shape.length) (hj : j < x.size) :
    sliceOf x.shape dim j ∈ Finset.range (x.shape.set dim 1).prod := by
  rw [prod_set_one hdim]
  exact Finset.mem_range.mpr (sliceOf_lt hdim hj)

theorem vjp_sum (g : View R) (hdim : dim < x.shape.length) (hj : j < x.size) :
    vjp .sum x dim g j = g.elem (sliceOf x.shape dim j) := by
  simp only [vjp_eq_slope .sum g hdim hj, slope, ReduceOp.outShape, mul_ite, mul_one, mul_zero,
    Finset.sum_ite_eq, if_pos (sliceOf_mem hdim hj)]

theorem vjp_mean (g : View R) (hdim : dim < x.shape.length) (hj : j < x.size) :
    vjp .mean x dim g j = g.elem (sliceOf x.shape dim j) * (1 / dimSize x.shape dim) := by
  simp only [vjp_eq_slope .mean g hdim hj, slope, ReduceOp.outShape, mul_ite, mul_zero,
    Finset.sum_ite_eq, if_pos (sliceOf_mem hdim hj)]

/-- A sum over the places from `j` on in the slice of `j`. -/
theorem sum_later (hdim : dim < x.shape.length) (hj : j < x.size) (F : ℕ → R) :
    (∑ q ∈ Finset.range x.shape.prod,
        if sliceOf x.shape dim j = sliceOf x.shape dim q ∧ posOf x.shape dim j ≤ posOf x.shape dim q then F q
        else 0)
      = ∑ d ∈ Finset.Ico (posOf x.shape dim j) (dimSize x.shape dim),
          F (expanded (dimSize x.shape dim) (inner x.shape dim) (sliceOf x.shape dim j) d) := by
  have hsplit : ∀ q ∈ Finset.range x.shape.prod,
      (if sliceOf x.shape dim j = sliceOf x.shape dim q ∧ posOf x.shape dim j ≤ posOf x.shape dim q then F q
        else 0)
        = if reduced (dimSize x.shape dim) (inner x.shape dim) q = sliceOf x.shape dim j then
            if posOf x.shape dim j ≤ posOf x.shape dim q then F q else 0
          else 0 := fun q _ => by
    rw [ite_and, sliceOf, sliceOf]
    exact if_congr eq_comm rfl rfl
  have hpos : ∀ d ∈ Finset.range (dimSize x.shape dim), posOf x.shape dim
      (expanded (dimSize x.shape dim) (inner x.shape dim) (sliceOf x.shape dim j) d) = d := fun d hd =>
    posOf_expanded _ (inner_pos hdim hj) (Finset.mem_range.mp hd)
  have hfilter : {d ∈ Finset.range (dimSize x.shape dim) | posOf x.shape dim j ≤ d}
      = Finset.Ico (posOf x.shape dim j) (dimSize x.shape dim) := by
    ext d
    simp only [Finset.mem_filter, Finset.mem_range, Finset.mem_Ico]
    exact and_comm
  rw [Finset.sum_congr rfl hsplit, prod_eq hdim, sum_slice (sliceOf_lt hdim hj), ← hfilter,
    Finset.sum_filter]
  exact Finset.sum_congr rfl fun d hd => by rw [hpos d hd]

theorem vjp_cumsum (g : View R) (hdim : dim < x.shape.length) (hj : j < x.size) :
    vjp .cumsum x dim g j = ∑ d ∈ Finset.Ico (posOf x.shape dim j) (dimSize x.shape dim),
      g.elem (expanded (dimSize x.shape dim) (inner x.shape dim) (sliceOf x.shape dim j) d) := by
  simp only [vjp_eq_slope .cumsum g hdim hj, slope, ReduceOp.outShape, mul_ite, mul_one, mul_zero]
  exact sum_later hdim hj g.elem

/-- The gradient at the later positions, times the product of the other elements up to each. -/
theorem vjp_cumprod (g : View R) (hdim : dim < x.shape.length) (hj : j < x.size) :
    vjp .cumprod x dim g j = ∑ d ∈ Finset.Ico (posOf x.shape dim j) (dimSize x.shape dim),
      g.elem (expanded (dimSize x.shape dim) (inner x.shape dim) (sliceOf x.shape dim j) d)
        * ∏ r ∈ (Finset.range (d + 1)).erase (posOf x.shape dim j),
            row x dim (sliceOf x.shape dim j) r := by
  simp only [vjp_eq_slope .cumprod g hdim hj, slope, ReduceOp.outShape, mul_ite, mul_zero]
  rw [sum_later hdim hj]
  refine Finset.sum_congr rfl fun d hd => ?_
  have hd' : d < dimSize x.shape dim := (Finset.mem_Ico.mp hd).2
  rw [sliceOf_expanded _ (inner_pos hdim hj) hd', posOf_expanded _ (inner_pos hdim hj) hd']

end Derivatives

/-! ## What is handed to `grad_accum` -/

section Exactness

variable {x : Dense R} {dim : ℕ} {strides : List ℕ}

/-- A contiguous tensor is added, which has the exact gradient as its elements. -/
theorem exact_iff_contribution (op : ReduceOp) :
    Exact op true x dim strides ↔ ∀ g : View R, Lies g (op.outShape x.shape dim) strides →
      contribution op x dim g = some (some (.ofFn x.shape (vjp op x dim g))) := by
  have hback : ∀ (g : View R) (grad : Option (View R)) (y : Dense R), contribution op x dim g = some (some y) →
      backward op true x dim g grad = gradAccum grad y.view := by
    intro g grad y hy
    rw [backward, if_pos rfl, hy, Option.bind_some]
  constructor
  · intro h g hg
    cases hc : contribution op x dim g with
    | none =>
      obtain ⟨grad', hgrad, -⟩ := h g none hg (ordered_none _)
      rw [backward, if_pos rfl, hc] at hgrad
      cases hgrad
    | some c =>
      cases c with
      | none =>
        obtain ⟨grad', hgrad, hadded⟩ := h g none hg (ordered_none _)
        rw [backward, if_pos rfl, hc, Option.bind_some] at hgrad
        obtain rfl := Option.some.inj hgrad
        obtain ⟨y, hy, -⟩ : Added none none x.shape (vjp op x dim g) := hadded
        cases hy
      | some y =>
        refine congrArg (fun y => some (some y)) (view_holds_iff.mp (holds_of_added fun grad hgrad => ?_))
        obtain ⟨grad', heq, hadded⟩ := h g grad hg hgrad
        exact ⟨grad', (hback g grad y hc).symm.trans heq, hadded⟩
  · intro h g grad hg hgrad
    obtain ⟨grad', heq, hadded⟩ := added_of_holds (view_holds_iff.mpr rfl) hgrad
    exact ⟨grad', (hback g grad _ (h g hg)).trans heq, hadded⟩

/-! ## `backward_sum` and `backward_cumsum` -/

omit [Field R] in
/-- The incoming gradient is read inside of its array. -/
theorem sliceOf_lt_prod (hdim : dim < x.shape.length) : ∀ p < x.size, sliceOf x.shape dim p < (x.shape.set dim 1).prod := by
  intro p hp
  rw [prod_set_one hdim]
  exact sliceOf_lt hdim hp

theorem exact_sum_iff (hdim : dim < x.shape.length) (hlen : strides.length = x.shape.length) :
    Exact .sum true x dim strides ↔ x.shape.prod = 0 ∨ InOrder (x.shape.set dim 1) strides := by
  rw [exact_iff_contribution]
  constructor
  · intro h
    rcases Nat.eq_zero_or_pos x.shape.prod with h0 | hpos
    · exact .inl h0
    have hlen' : strides.length = (x.shape.set dim 1).length := by rw [hlen, List.length_set]
    refine .inr (inOrder_of_cells (R := R) hlen' fun f q hq => ?_)
    -- the first position of the slice
    have hw := inner_pos hdim hpos
    have hn := dimSize_pos hdim hpos
    have hq' : q < outer x.shape dim * inner x.shape dim := prod_set_one hdim ▸ hq
    have hp : expanded (dimSize x.shape dim) (inner x.shape dim) q 0 < x.shape.prod := by
      rw [prod_eq hdim]
      exact expanded_lt hq' hn
    have hsum := h _ (withCells_lies hlen' f)
    simp only [contribution] at hsum
    split_ifs at hsum with hread
    have hin := hread _ hp
    rw [sliceOf_expanded q hw hn, withCells, List.length_map, List.length_range] at hin
    have hle := Nat.le_of_lt_succ hin
    refine ⟨hle, ?_⟩
    have hcell := congrArg (fun y => y.elem (expanded (dimSize x.shape dim) (inner x.shape dim) q 0))
      (Option.some.inj (Option.some.inj hsum))
    simp only [gradSum, Dense.elem_ofFn _ hp] at hcell
    rwa [vjp_sum _ hdim hp, sliceOf_expanded q hw hn, cell_withCells f hle] at hcell
  · intro hcond g hg
    have hcells : ∀ p < x.size, sliceOf x.shape dim p < g.data.length ∧
        g.cell (sliceOf x.shape dim p) = vjp .sum x dim g p := by
      intro p hp
      have horder := hcond.resolve_left (Nat.pos_of_ne_zero fun h0 => by simp [Dense.size, h0] at hp).ne'
      have hlt := sliceOf_lt_prod hdim p hp
      rw [vjp_sum g hdim hp]
      exact ⟨hlt.trans_le (hg.room horder), (hg.elem_of_inOrder horder hlt).symm⟩
    rw [contribution, if_pos fun p hp => (hcells p hp).1]
    exact congrArg (fun y => some (some y)) (Dense.ofFn_congr fun p hp => (hcells p hp).2)

theorem fromEnd_add (row : ℕ → R) {n k : ℕ} (hk : k ≤ n) :
    fromEnd (· + ·) 0 row n k = ∑ d ∈ Finset.Ico (n - k) n, row d := by
  induction k with
  | zero => simp [fromEnd]
  | succ k ih =>
    have hnext : n - (k + 1) + 1 = n - k := by omega
    rw [fromEnd, ih (by omega), Finset.sum_eq_sum_Ico_succ_bot (a := n - (k + 1)) (by omega), hnext,
      add_comm]

theorem fromEnd_mul (row : ℕ → R) {n k : ℕ} (hk : k ≤ n) :
    fromEnd (· * ·) 1 row n k = ∏ d ∈ Finset.Ico (n - k) n, row d := by
  induction k with
  | zero => simp [fromEnd]
  | succ k ih =>
    have hnext : n - (k + 1) + 1 = n - k := by omega
    rw [fromEnd, ih (by omega), Finset.prod_eq_prod_Ico_succ_bot (a := n - (k + 1)) (by omega), hnext,
      mul_comm]

theorem exact_cumsum_iff (hdim : dim < x.shape.length) (hlen : strides.length = x.shape.length) :
    Exact .cumsum true x dim strides ↔ InOrder x.shape strides := by
  rw [exact_iff_contribution]
  constructor
  · intro h
    refine inOrder_of_cells (R := R) hlen fun f p hp => ?_
    have hw := inner_pos hdim hp
    have hn := dimSize_pos hdim hp
    have hsum := h _ (withCells_lies hlen f)
    simp only [contribution] at hsum
    split_ifs at hsum with hread
    rw [withCells, List.length_map, List.length_range, Dense.size] at hread
    refine ⟨by omega, ?_⟩
    -- the sums from a position on, of the cells and of the elements
    have hsums : ∀ d ≤ dimSize x.shape dim,
        ∑ k ∈ Finset.Ico d (dimSize x.shape dim), (withCells x.shape strides f).cell
            (expanded (dimSize x.shape dim) (inner x.shape dim) (sliceOf x.shape dim p) k) =
          ∑ k ∈ Finset.Ico d (dimSize x.shape dim), (withCells x.shape strides f).elem
            (expanded (dimSize x.shape dim) (inner x.shape dim) (sliceOf x.shape dim p) k) := by
      intro d hd
      rcases Nat.lt_or_eq_of_le hd with hlt | rfl
      · have hplace : expanded (dimSize x.shape dim) (inner x.shape dim) (sliceOf x.shape dim p) d < x.shape.prod := by
          rw [prod_eq hdim]
          exact expanded_lt (sliceOf_lt hdim hp) hlt
        have hcell := congrArg
          (fun y => y.elem (expanded (dimSize x.shape dim) (inner x.shape dim) (sliceOf x.shape dim p) d))
          (Option.some.inj (Option.some.inj hsum))
        simp only [gradCumsum, Dense.elem_ofFn _ hplace] at hcell
        rwa [fromEnd_add _ (Nat.sub_le _ _), vjp_cumsum _ hdim hplace, sliceOf_expanded _ hw hlt,
          posOf_expanded _ hw hlt, Nat.sub_sub_self hd] at hcell
      · rw [Finset.Ico_self, Finset.sum_empty, Finset.sum_empty]
    have hpos := posOf_lt hdim hp
    have hthis := hsums _ hpos.le
    rw [Finset.sum_eq_sum_Ico_succ_bot hpos, Finset.sum_eq_sum_Ico_succ_bot hpos, hsums _ hpos] at hthis
    have hcell := add_right_cancel hthis
    have hplace : expanded (dimSize x.shape dim) (inner x.shape dim) (sliceOf x.shape dim p) (posOf x.shape dim p) = p :=
      expanded_reduced hw p
    rwa [hplace, cell_withCells f (by omega)] at hcell
  · intro horder g hg
    have hroom : x.size ≤ g.data.length := hg.room horder
    rw [contribution, if_pos hroom]
    refine congrArg (fun y => some (some y)) (Dense.ofFn_congr fun p hp => ?_)
    rw [fromEnd_add _ (Nat.sub_le _ _), Nat.sub_sub_self (posOf_lt hdim hp).le, vjp_cumsum g hdim hp]
    refine Finset.sum_congr rfl fun d hd => (hg.elem_of_inOrder horder ?_).symm
    change _ < x.shape.prod
    rw [prod_eq hdim]
    exact expanded_lt (sliceOf_lt hdim hp) (Finset.mem_Ico.mp hd).2

/-! ## `backward_mean` -/

/-- A source with the extents 1 is read at its only place. -/
theorem expandOffset_ones (k : ℕ) (newShape : List ℕ) (flat : ℕ) :
    expandOffset (List.replicate k 1) newShape flat = 0 := by
  have hzero : ∀ (k : ℕ) (l strides : List ℕ),
      dot (List.zipWith (fun sdim s => if s ≤ sdim then 0 else sdim) l (List.replicate k 1)) strides = 0 := by
    intro k l
    induction l generalizing k with
    | nil => simp
    | cons a l ih =>
      intro strides
      cases k with
      | zero => simp
      | succ k =>
        cases strides with
        | nil => simp [dot]
        | cons st strides =>
          have ha : (if 1 ≤ a then 0 else a) = 0 := by split_ifs <;> omega
          rw [List.replicate_succ, List.zipWith_cons_cons, dot_cons, ih, ha, Nat.zero_mul]
  rw [expandOffset, List.reverse_replicate]
  exact hzero k _ _

theorem tensorExpand_shape {src e : Dense R} {newShape : List ℕ}
    (h : tensorExpand src newShape = some (some e)) : e.shape = newShape := by
  rw [tensorExpand] at h
  split_ifs at h
  · cases h
  · cases h
    rfl

theorem tensorExpand_ones {src : Dense R} {newShape : List ℕ}
    (hsrc : src.shape = List.replicate newShape.length 1) :
    tensorExpand src newShape = some (some (Dense.ofFn newShape fun _ => src.elem 0)) := by
  have hoff : expandOffset src.shape newShape = fun _ => 0 := by
    funext i
    rw [hsrc, expandOffset_ones]
  have hsize : src.size = 1 := by rw [Dense.size, hsrc, List.prod_replicate, one_pow]
  have hlen : ¬newShape.length < src.shape.length := by rw [hsrc, List.length_replicate]; omega
  rw [tensorExpand, if_neg hlen, hoff, hsize]
  exact if_pos fun _ _ => Nat.one_pos

theorem exact_mean_iff (hdim : dim < x.shape.length) (hlen : strides.length = x.shape.length) :
    Exact .mean true x dim strides ↔
      x.shape = (List.replicate x.shape.length 1).set dim (dimSize x.shape dim) := by
  rw [exact_iff_contribution]
  constructor
  · intro h
    have hlen' : strides.length = (x.shape.set dim 1).length := by rw [hlen, List.length_set]
    have hmean := h _ (withCells_lies hlen' fun _ => 0)
    obtain ⟨go, -, hexpand⟩ := Option.bind_eq_some_iff.mp hmean
    have hexpanded := tensorExpand_shape hexpand
    exact hexpanded
  · intro hshape g hg
    have hones : x.shape.set dim 1 = List.replicate x.shape.length 1 := by
      rw [hshape, List.set_set, List.length_set, List.length_replicate]
      exact List.set_replicate_self
    have hone : (List.replicate x.shape.length 1).prod = 1 := by rw [List.prod_replicate, one_pow]
    have hg' : Lies g (List.replicate x.shape.length 1) strides := hones ▸ hg
    have horder : InOrder (List.replicate x.shape.length 1) strides := fun i hi => by
      rw [dot_of_prod_eq_one hone hi, dot_of_prod_eq_one hone hi]
    have hgrad : (Dense.ofFn x.shape fun _ => g.elem 0 * (1 / dimSize x.shape dim : R)) =
        .ofFn x.shape (vjp .mean x dim g) :=
      Dense.ofFn_congr fun p hp => by
        have hslice := sliceOf_lt_prod hdim p hp
        rw [hones, hone] at hslice
        rw [vjp_mean g hdim hp, Nat.lt_one_iff.mp hslice]
    simp only [contribution, gradMean, hg'.copy_eq horder, Option.bind_some, ← hshape]
    rw [tensorExpand_ones (by rw [Dense.shape_ofFn, Dense.shape_ofFn]), ← hgrad]
    refine congrArg (fun y => some (some y)) (Dense.ofFn_congr fun _ _ => ?_)
    have hpos : 0 < (List.replicate x.shape.length 1).prod := by omega
    exact (Dense.elem_ofFn _ hpos).trans (congrArg (· * (1 / dimSize x.shape dim : R)) (Dense.elem_ofFn _ hpos))

/-! ## `backward_cumprod` -/

theorem eps_ne_zero [CharZero R] : (eps : R) ≠ 0 := by
  rw [eps, one_div]
  exact inv_ne_zero (pow_ne_zero _ (by norm_num))

/-- The elements of a row are in cells of their own. -/
def Apart (shape strides : List ℕ) : Prop := (Layout.mk 0 shape strides).IsInjective

def rowCell (shape : List ℕ) (dim : ℕ) (strides : List ℕ) (d : ℕ) : ℕ :=
  dot (unflatten shape (expanded (dimSize shape dim) (inner shape dim) 0 d)) strides

omit [Field R] in
theorem expanded_zero_lt (hdim : dim < x.shape.length) (hx : 0 < x.size) {d : ℕ} (hd : d < dimSize x.shape dim) :
    expanded (dimSize x.shape dim) (inner x.shape dim) 0 d < x.shape.prod := by
  have hrow : 0 < outer x.shape dim * inner x.shape dim := (Nat.zero_le _).trans_lt (sliceOf_lt hdim hx)
  rw [prod_eq hdim]
  exact expanded_lt hrow hd

omit [Field R] in
theorem rowCell_inj (hdim : dim < x.shape.length) (hx : 0 < x.size) (hapart : Apart x.shape strides) {d k : ℕ}
    (hd : d < dimSize x.shape dim) (hk : k < dimSize x.shape dim)
    (h : rowCell x.shape dim strides d = rowCell x.shape dim strides k) : d = k := by
  have hw := inner_pos hdim hx
  have hindex := hapart _ _ (within_unflatten hx _) (within_unflatten hx _) (congrArg (0 + ·) h)
  have hplace := congrArg (dot · (packedStrides x.shape)) hindex
  simp only [dot_unflatten (expanded_zero_lt hdim hx hd), dot_unflatten (expanded_zero_lt hdim hx hk)] at hplace
  rw [← posOf_expanded 0 hw hd, hplace, posOf_expanded 0 hw hk]

/-- The gradient at the first place, for an incoming gradient of one in a single cell of the first row. -/
theorem vjp_cumprod_single (hdim : dim < x.shape.length) (hx : 0 < x.size) (hlen : strides.length = x.shape.length)
    (hapart : Apart x.shape strides) {k : ℕ} (hk : k < dimSize x.shape dim) :
    vjp .cumprod x dim (withCells x.shape strides fun p => if p = rowCell x.shape dim strides k then 1 else 0) 0
      = ∏ r ∈ (Finset.range (k + 1)).erase 0, row x dim 0 r := by
  have hslice : sliceOf x.shape dim 0 = 0 := by simp [sliceOf, reduced]
  have hpos : posOf x.shape dim 0 = 0 := by simp [posOf, pos]
  have hterm : ∀ d ∈ Finset.Ico 0 (dimSize x.shape dim),
      (withCells x.shape strides fun p => if p = rowCell x.shape dim strides k then (1 : R) else 0).elem
          (expanded (dimSize x.shape dim) (inner x.shape dim) 0 d)
        * ∏ r ∈ (Finset.range (d + 1)).erase 0, row x dim 0 r
      = if d = k then ∏ r ∈ (Finset.range (k + 1)).erase 0, row x dim 0 r else 0 := fun d hd => by
    have hd' := (Finset.mem_Ico.mp hd).2
    rw [elem_withCells hlen _ (expanded_zero_lt hdim hx hd'), ← rowCell]
    by_cases hdk : d = k
    · rw [hdk, if_pos rfl, if_pos rfl, one_mul]
    · rw [if_neg fun h => hdk (rowCell_inj hdim hx hapart hd' hk h), if_neg hdk, zero_mul]
  rw [vjp_cumprod _ hdim hx, hslice, hpos, Finset.sum_congr rfl hterm, Finset.sum_ite_eq',
    if_pos (Finset.mem_Ico.mpr ⟨Nat.zero_le k, hk⟩)]

/-- What the code computes at the first place. -/
theorem elem_gradCumprod_zero (g : View R) (hx : 0 < x.size) :
    (gradCumprod x dim g).elem 0 = g.cell 0 *
      ((∏ r ∈ Finset.range (dimSize x.shape dim), row x dim 0 r) / (x.elem 0 + eps)) := by
  have hslice : sliceOf x.shape dim 0 = 0 := by simp [sliceOf, reduced]
  have hpos : posOf x.shape dim 0 = 0 := by simp [posOf, pos]
  rw [gradCumprod, Dense.elem_ofFn _ hx, fromEnd_mul _ (Nat.sub_le _ _), hpos, hslice, Nat.sub_zero,
    Nat.sub_self, Finset.range_eq_Ico]

theorem not_exact_cumprod [CharZero R] (hdim : dim < x.shape.length) (hx : 0 < x.size)
    (hlen : strides.length = x.shape.length) (hapart : Apart x.shape strides) : ¬Exact .cumprod true x dim strides := by
  rw [exact_iff_contribution]
  intro h
  have hn : 0 < dimSize x.shape dim := dimSize_pos hdim hx
  -- the first place, when the gradient is one in the cell of position `k` of the first row
  have hzero : ∀ k < dimSize x.shape dim, (if 0 = rowCell x.shape dim strides k then (1 : R) else 0)
      * ((∏ r ∈ Finset.range (dimSize x.shape dim), row x dim 0 r) / (x.elem 0 + eps))
      = ∏ r ∈ (Finset.range (k + 1)).erase 0, row x dim 0 r := by
    intro k hk
    have hcum := h _ (withCells_lies hlen fun p => if p = rowCell x.shape dim strides k then 1 else 0)
    simp only [contribution] at hcum
    split_ifs at hcum with hread
    have hcell := congrArg (fun y => y.elem 0) (Option.some.inj (Option.some.inj hcum))
    simp only [Dense.elem_ofFn _ hx] at hcell
    rwa [elem_gradCumprod_zero _ hx, vjp_cumprod_single hdim hx hlen hapart hk, cell_withCells _ (Nat.zero_le _)]
      at hcell
  have hfirst := hzero 0 hn
  rw [Nat.zero_add, Finset.range_one, Finset.erase_singleton, Finset.prod_empty] at hfirst
  have hcell : 0 = rowCell x.shape dim strides 0 := by
    by_contra hne
    rw [if_neg hne, zero_mul] at hfirst
    exact zero_ne_one hfirst
  rw [if_pos hcell, one_mul] at hfirst
  by_cases hlong : 1 < dimSize x.shape dim
  · have hsecond := hzero 1 hlong
    have hne : ¬0 = rowCell x.shape dim strides 1 := fun heq =>
      zero_ne_one (rowCell_inj hdim hx hapart hn hlong (hcell.symm.trans heq))
    have hrow : row x dim 0 1 = 0 := by
      rw [if_neg hne, zero_mul] at hsecond
      rw [hsecond]
      simp [Finset.range_add_one, Finset.erase_insert_of_ne]
    rw [Finset.prod_eq_zero (Finset.mem_range.mpr hlong) hrow, zero_div] at hfirst
    exact zero_ne_one hfirst
  · have hlen1 : dimSize x.shape dim = 1 := by omega
    have hrow : row x dim 0 0 = x.elem 0 := by simp [row, expanded]
    have hdiv : x.elem 0 + eps ≠ 0 := fun hd => by
      rw [hd, div_zero] at hfirst
      exact zero_ne_one hfirst
    rw [hlen1, Finset.prod_range_one, hrow, div_eq_one_iff_eq hdiv, left_eq_add] at hfirst
    exact eps_ne_zero hfirst

end Exactness

/-! ## When the gradients are exact -/

/-- `sum` and `cumsum` for incoming gradients in index order, `mean` of a tensor with the extent 1 in all other
dimensions, `cumprod` of a tensor without elements. -/
def Meets (op : ReduceOp) (shape : List ℕ) (dim : ℕ) (strides : List ℕ) : Prop :=
  match op with
  | .sum => shape.prod = 0 ∨ InOrder (shape.set dim 1) strides
  | .mean => shape = (List.replicate shape.length 1).set dim (dimSize shape dim)
  | .cumsum => InOrder shape strides
  | .cumprod => shape.prod = 0

/-- The exact gradient is added for every incoming gradient with the strides in these cases, and in no others; of
`cumprod`, this is said for gradients whose elements are in cells of their own. -/
theorem reduction_exact_iff [CharZero R] (op : ReduceOp) (requiresGrad : Bool) (x : Dense R) (dim : ℕ)
    (strides : List ℕ) (hdim : dim < x.shape.length) (hlen : strides.length = x.shape.length)
    (hapart : op = .cumprod → Apart x.shape strides) :
    Exact op requiresGrad x dim strides ↔ requiresGrad = false ∨ Meets op x.shape dim strides := by
  cases requiresGrad with
  | false => exact iff_of_true (fun _ grad _ _ => ⟨grad, rfl, rfl⟩) (Or.inl rfl)
  | true =>
    rw [or_iff_right Bool.noConfusion]
    cases op with
    | sum => exact exact_sum_iff hdim hlen
    | mean => exact exact_mean_iff hdim hlen
    | cumsum => exact exact_cumsum_iff hdim hlen
    | cumprod =>
      constructor
      · intro h
        by_contra hx
        exact not_exact_cumprod hdim (Nat.pos_of_ne_zero hx) hlen (hapart rfl) h
      · intro hx
        have hsize : x.shape.prod = 0 := hx
        rw [exact_iff_contribution]
        intro g hg
        have hread : x.size ≤ g.data.length := hsize.le.trans (Nat.zero_le _)
        rw [contribution, if_pos hread]
        exact congrArg (fun y => some (some y)) (Dense.ofFn_congr fun p hp => absurd hp (by omega))

/-- The sums over the columns of a matrix, from any stride of the extent 1; its products are always wrong. -/
theorem reduction_exact_columns :
    Exact .sum true (Dense.ofFn [2, 2] fun i => (i : ℚ)) 0 [7, 1] ∧
      ¬Exact .cumprod true (Dense.ofFn [2, 2] fun i => (i : ℚ)) 0 [2, 1] := by
  constructor
  · refine (reduction_exact_iff .sum true _ 0 [7, 1] (by decide) rfl (by simp)).mpr (.inr (.inr ?_))
    intro i hi
    cases hi with
    | cons ha hi =>
      cases hi with
      | cons hb hi =>
        cases hi
        simp [packedStrides, stridesFrom, Nat.lt_one_iff.mp ha]
  · intro h
    have hapart : Apart [2, 2] [2, 1] := packed_isInjective 0 [2, 2]
    have hmeets := (reduction_exact_iff .cumprod true _ 0 [2, 1] (by decide) rfl fun _ => hapart).mp h
    simp [Meets] at hmeets

/-- The mean over the rows of a matrix: the gradient gets the shape of one row. -/
theorem not_exact_mean_rows :
    ¬∀ (op : ReduceOp) (requiresGrad : Bool) (x : Dense ℚ) (dim : ℕ), dim < x.shape.length →
      Exact op requiresGrad x dim (packedStrides (op.outShape x.shape dim)) := by
  intro h
  have hdim : 1 < (Dense.ofFn [2, 2] fun i => (i : ℚ)).shape.length := by decide
  have hmean := h .mean true _ 1 hdim
  refine absurd ((exact_mean_iff hdim ?_).mp hmean) (by decide)
  rw [length_packedStrides]
  rfl

end SneppxAlg.ReduceGrad
