import SneppxAlg.Kernel.TensorEngine
import SneppxAlg.Lib.Strided

/-!
# The elements of a tensor are inside its storage

A tensor is created, and each operation of a chain is applied to the result of the one before.

**The invariant** (`Tensor.Valid`). The layout of the tensor stays inside its storage and no two
indices share an element. The second part is what the copies of `reshape` and `squeeze` rest on: they
read `size` elements in a row from the offset, and a layout with two indices on one element may have
fewer behind it.

**Where it breaks.** Nothing checks that the bytes of a new tensor can be counted; `start + size` of
`narrow` can wrap around to a small number; `permute` takes any list of axes; `reshape` does not compare
the numbers of elements; and the arrays of the new extents have 16 places. `Fits` says that a call
avoids all of these.

Main result: `chain_inBounds`.
-/

namespace SneppxAlg.TensorEngine

open Lib.Strided

/-! ## The property -/

def extents (shape : List UInt64) : List ℕ := shape.map UInt64.toNat

@[simp]
theorem extents_nil : extents [] = [] := rfl

@[simp]
theorem extents_cons (s : UInt64) (shape : List UInt64) :
    extents (s :: shape) = s.toNat :: extents shape := rfl

@[simp]
theorem length_extents (shape : List UInt64) : (extents shape).length = shape.length :=
  List.length_map _

theorem extents_reverse (shape : List UInt64) : extents shape.reverse = (extents shape).reverse :=
  List.map_reverse

theorem getD_extents (shape : List UInt64) (dim : ℕ) :
    (extents shape).getD dim 0 = (shape.getD dim 0).toNat := by
  simp only [extents, List.getD_eq_getElem?_getD, List.getElem?_map]
  cases shape[dim]? with
  | none => rfl
  | some s => rfl

def Tensor.layout (t : Tensor) : Layout :=
  { offset := t.offset.toNat, shape := extents t.shape, strides := extents t.strides }

/-- Every index within the shape is an element inside the storage. -/
def Tensor.InBounds (t : Tensor) (h : Heap) : Prop :=
  ∃ st, h.storages t.storage = some st ∧
    ∀ i, Within i (extents t.shape) → (t.layout.address i + 1) * t.itemSize.toNat ≤ st.numBytes.toNat

/-- A chain of operations, each on the result of the one before. -/
def chain (r : Heap × Tensor) : List ViewOp → Outcome (Heap × Tensor)
  | [] => .ok r
  | op :: ops => (op.apply r.1 r.2).bind fun r => chain r ops

/-- No undefined behaviour, and the result has a property. -/
def Outcome.Holds {α : Type} (P : α → Prop) : Outcome α → Prop
  | fault => False
  | null => True
  | ok a => P a

/-- A call that passes the checks of the source is one that it handles. -/
def Tensor.Fits (t : Tensor) : ViewOp → Prop
  | .narrow dim start size => dim < t.shape.length → start + size ≤ t.shape.getD dim 0 →
      start.toNat + size.toNat < 2 ^ 64 ∧ t.shape.length ≤ maxDims
  | .slice dim start finish => dim < t.shape.length → start < finish →
      finish ≤ t.shape.getD dim 0 → t.shape.length ≤ maxDims
  | .permute axes => (axes.take t.shape.length).Perm (List.range t.shape.length) ∧
      t.shape.length ≤ maxDims
  | .transpose dim1 dim2 => dim1 < t.shape.length → dim2 < t.shape.length → t.shape.length ≤ maxDims
  | .squeeze dim => dim < t.shape.length → t.shape.getD dim 0 = 1 → t.shape.length ≤ maxDims + 1
  | .unsqueeze dim => dim ≤ t.shape.length → t.shape.length + 1 ≤ maxDims
  | .reshape newShape => newShape.length ≤ maxDims ∧
      ∃ shape, resolveShape t.size newShape = some shape ∧
        if isContiguous t ∧ t.shape ≠ [] then (extents shape).prod ≤ t.size.toNat
        else t.size.toNat ≤ (extents shape).prod ∧
          (extents shape).prod * t.itemSize.toNat < 2 ^ 64

/-- Every call of a chain fits the tensor it is made on. -/
def AllFit (r : Heap × Tensor) : List ViewOp → Prop
  | [] => True
  | op :: ops => r.2.Fits op ∧ ∀ r', op.apply r.1 r.2 = .ok r' → AllFit r' ops

/-! ## Exact arithmetic -/

theorem size_pos (d : Dtype) : 0 < d.size.toNat := by
  cases d <;> decide

theorem itemSize_pos (t : Tensor) : 0 < t.itemSize.toNat := size_pos t.dtype

theorem foldl_mul_toNat (l : List UInt64) (a : UInt64) :
    (l.foldl (· * ·) a).toNat = a.toNat * (extents l).prod % 2 ^ 64 := by
  induction l generalizing a with
  | nil => simp [Nat.mod_eq_of_lt a.toNat_lt]
  | cons x l ih =>
    rw [List.foldl_cons, ih, UInt64.toNat_mul, Nat.mod_mul_mod, extents_cons, List.prod_cons, mul_assoc]

/-- The size is the product of the extents where that is a `size_t`. -/
theorem numel_toNat {shape : List UInt64} (h : (extents shape).prod < 2 ^ 64) :
    (numel shape).toNat = (extents shape).prod := by
  rw [numel, foldl_mul_toNat]
  simpa using h

theorem stridesLoop_toNat {shape : List UInt64} {stride : UInt64}
    (hpos : 0 < (extents shape).prod) (h : stride.toNat * (extents shape).prod < 2 ^ 64) :
    extents (stridesLoop shape stride) = stridesFrom (extents shape) stride.toNat := by
  induction shape generalizing stride with
  | nil => rfl
  | cons s shape ih =>
    simp only [extents_cons, List.prod_cons] at hpos h
    have hrest : 0 < (extents shape).prod := Nat.pos_of_mul_pos_left hpos
    have hmul : (stride * s).toNat = stride.toNat * s.toNat := by
      rw [UInt64.toNat_mul, Nat.mod_eq_of_lt]
      calc stride.toNat * s.toNat ≤ stride.toNat * s.toNat * (extents shape).prod :=
            Nat.le_mul_of_pos_right _ hrest
        _ < 2 ^ 64 := by rwa [mul_assoc]
    have hnext : (stride * s).toNat * (extents shape).prod < 2 ^ 64 := by
      rwa [hmul, mul_assoc]
    simp only [stridesLoop, extents_cons, stridesFrom]
    rw [← hmul, ← ih hrest hnext]

/-- The strides of `create` are those of a packed array. -/
theorem rowMajor_toNat {shape : List UInt64} (hpos : 0 < (extents shape).prod)
    (h : (extents shape).prod < 2 ^ 64) : extents (rowMajor shape) = packedStrides (extents shape) := by
  have hrev := extents_reverse shape
  have hloop : extents (stridesLoop shape.reverse 1) = stridesFrom (extents shape.reverse) 1 := by
    apply stridesLoop_toNat
    · rwa [hrev, List.prod_reverse]
    · rw [hrev, List.prod_reverse]
      simpa using h
  rw [rowMajor, packedStrides, ← hrev, ← hloop, extents_reverse]

theorem length_stridesLoop (shape : List UInt64) (stride : UInt64) :
    (stridesLoop shape stride).length = shape.length := by
  induction shape generalizing stride with
  | nil => rfl
  | cons s shape ih => simp [stridesLoop, ih]

@[simp]
theorem length_rowMajor (shape : List UInt64) : (rowMajor shape).length = shape.length := by
  simp [rowMajor, length_stridesLoop]

/-! ## The invariant -/

/-- The layout is inside the storage, and no two indices share an element. -/
structure Tensor.Valid (t : Tensor) (h : Heap) : Prop where
  known : t.storage < h.next
  lengths : t.shape.length = t.strides.length
  size_eq : t.size.toNat = (extents t.shape).prod
  injective : t.layout.IsInjective
  room : ∃ st, h.storages t.storage = some st ∧
    t.layout.Below (st.numBytes.toNat / t.itemSize.toNat)

theorem Tensor.Valid.inBounds {t : Tensor} {h : Heap} (hv : t.Valid h) : t.InBounds h := by
  obtain ⟨st, hst, hb⟩ := hv.room
  refine ⟨st, hst, fun i hi => ?_⟩
  exact (Nat.le_div_iff_mul_le (itemSize_pos t)).1 (hb i hi)

/-- The elements of an injective layout inside a storage can be counted in bytes. -/
theorem prod_mul_le {L : Layout} (hinj : L.IsInjective) {n item : ℕ} (hitem : 0 < item)
    (hb : L.Below (n / item)) (hpos : 0 < L.shape.prod) : (L.offset + L.shape.prod) * item ≤ n :=
  (Nat.le_div_iff_mul_le hitem).1 (L.prod_le hinj hb hpos)

theorem isInjective_of_empty {L : Layout} (h : L.shape.prod = 0) : L.IsInjective :=
  fun _ _ hi _ _ => absurd h hi.prod_pos.ne'

theorem below_of_empty {L : Layout} (h : L.shape.prod = 0) (n : ℕ) : L.Below n :=
  fun _ hi => absurd h hi.prod_pos.ne'

/-- The offset in bytes and the number of bytes do not wrap. -/
theorem Tensor.Valid.bytes_lt {t : Tensor} {h : Heap} (hv : t.Valid h) :
    (extents t.shape).prod * t.itemSize.toNat < 2 ^ 64 := by
  obtain ⟨st, -, hb⟩ := hv.room
  rcases Nat.eq_zero_or_pos (extents t.shape).prod with h0 | hpos
  · simp [h0]
  · calc (extents t.shape).prod * t.itemSize.toNat
          ≤ (t.offset.toNat + (extents t.shape).prod) * t.itemSize.toNat :=
          Nat.mul_le_mul_right _ (Nat.le_add_left _ _)
      _ ≤ st.numBytes.toNat := prod_mul_le hv.injective (itemSize_pos t) hb hpos
      _ < 2 ^ 64 := st.numBytes.toNat_lt

/-! ## Views -/

theorem Outcome.Holds.bind {α β : Type} {P : α → Prop} {Q : β → Prop} {o : Outcome α}
    {f : α → Outcome β} (ho : o.Holds P) (hf : ∀ a, P a → (f a).Holds Q) : (o.bind f).Holds Q := by
  cases o with
  | fault => exact ho
  | null => trivial
  | ok a => exact hf a ho

def View.layout (v : View) : Layout :=
  { offset := v.offset.toNat, shape := extents v.shape, strides := extents v.strides }

/-- A view is fit for a tensor if its layout is injective and stays inside everything that the layout
of the tensor stays inside. -/
def View.FitFor (v : View) (t : Tensor) : Prop :=
  v.shape.length = v.strides.length ∧ v.layout.IsInjective ∧
    ∀ n, n < 2 ^ 64 → t.layout.Below n → v.layout.Below n

theorem asStrided_valid {h : Heap} {src : Tensor} (hv : src.Valid h) {v : View} (hfit : v.FitFor src) :
    (asStrided h src v).Holds fun r => r.2.Valid r.1 := by
  obtain ⟨st, hst, hb⟩ := hv.room
  obtain ⟨hlen, hinj, hbelow⟩ := hfit
  have hn : st.numBytes.toNat / src.itemSize.toNat < 2 ^ 64 :=
    Nat.lt_of_le_of_lt (Nat.div_le_self _ _) st.numBytes.toNat_lt
  have hbv := hbelow _ hn hb
  have hprod : (extents v.shape).prod < 2 ^ 64 := by
    rcases Nat.eq_zero_or_pos (extents v.shape).prod with h0 | hpos
    · simp [h0]
    · have hle := Layout.prod_le hinj hbv hpos
      simp only [View.layout] at hle
      omega
  simp only [asStrided, storageRetain, hst, Option.map_some, Outcome.ofOption, Outcome.bind]
  exact
    { known := hv.known
      lengths := hlen
      size_eq := numel_toNat hprod
      injective := hinj
      room := ⟨_, Function.update_self _ _ _, hbv⟩ }

theorem fitFor_of_isView {v : View} {t : Tensor} (hlen : v.shape.length = v.strides.length)
    (hinj : t.layout.IsInjective) (hview : IsView v.layout t.layout) : v.FitFor t :=
  ⟨hlen, hview.injective hinj, fun _ _ hb => hview.below hb⟩

theorem narrowView_fits {t : Tensor} (hlen : t.shape.length = t.strides.length)
    (hinj : t.layout.IsInjective) {dim : ℕ} {start size : UInt64} (hfits : t.Fits (.narrow dim start size)) :
    (narrowView t dim start size).Holds fun v => v.FitFor t := by
  unfold narrowView
  split
  · trivial
  · rename_i hdim
    split
    · trivial
    · rename_i hcheck
      have hdim' : dim < t.shape.length := Nat.lt_of_not_le hdim
      have hle : start + size ≤ t.shape.getD dim 0 := UInt64.not_lt.1 hcheck
      obtain ⟨hwrap, hmax⟩ := hfits hdim' hle
      rw [if_neg (Nat.not_lt.2 hmax)]
      have hsum : start.toNat + size.toNat ≤ (extents t.shape).getD dim 0 := by
        rw [getD_extents]
        have hle' := UInt64.le_iff_toNat_le.1 hle
        rwa [UInt64.toNat_add, Nat.mod_eq_of_lt hwrap] at hle'
      have hview := isView_narrow t.layout (by simpa [Tensor.layout] using hlen)
        (by simpa [Tensor.layout] using hdim') hsum
      refine ⟨by simpa using hlen, ?_, fun n hn hb i hi => ?_⟩
      · have hsub := hview.injective hinj
        simp only [View.layout, extents, List.map_set] at hsub ⊢
        exact hsub.offset
      · -- an index of the view has an address below `n`, so that the offset does not wrap
        have hi' : Within i ((extents t.shape).set dim size.toNat) := by
          simpa [View.layout, extents, List.map_set] using hi
        have hlt := hview.below hb i hi'
        simp only [Layout.address, Tensor.layout, getD_extents] at hlt
        have hmul : (start * t.strides.getD dim 0).toNat
            = start.toNat * (t.strides.getD dim 0).toNat := by
          rw [UInt64.toNat_mul, Nat.mod_eq_of_lt (by omega)]
        have hoff : (t.offset + start * t.strides.getD dim 0).toNat
            = t.offset.toNat + start.toNat * (t.strides.getD dim 0).toNat := by
          rw [UInt64.toNat_add, hmul, Nat.mod_eq_of_lt (by omega)]
        simpa only [Layout.address, View.layout, hoff] using hlt

theorem sliceView_fits {t : Tensor} (hlen : t.shape.length = t.strides.length)
    (hinj : t.layout.IsInjective) {dim : ℕ} {start finish : UInt64}
    (hfits : t.Fits (.slice dim start finish)) :
    (sliceView t dim start finish).Holds fun v => v.FitFor t := by
  unfold sliceView
  split
  · trivial
  · rename_i hdim
    split
    · trivial
    · rename_i horder
      split
      · trivial
      · rename_i hend
        have hlt : start < finish := UInt64.not_le.1 horder
        have hmax := hfits (Nat.lt_of_not_le hdim) hlt (UInt64.not_lt.1 hend)
        apply narrowView_fits hlen hinj
        intro _ _
        refine ⟨?_, hmax⟩
        have hlt' := UInt64.lt_iff_toNat_lt.1 hlt
        rw [UInt64.toNat_sub_of_le _ _ (UInt64.le_of_lt hlt)]
        have := finish.toNat_lt
        omega

theorem permuteView_fits {t : Tensor} (hlen : t.shape.length = t.strides.length)
    (hinj : t.layout.IsInjective) {axes : List ℕ}
    (hp : (axes.take t.shape.length).Perm (List.range t.shape.length))
    (hmax : t.shape.length ≤ maxDims) : (permuteView t axes).Holds fun v => v.FitFor t := by
  have hlen' : ¬axes.length < t.shape.length := by
    have := hp.length_eq
    simp only [List.length_take, List.length_range] at this
    omega
  have hrange : ¬∃ a ∈ axes.take t.shape.length, a ≥ t.shape.length := by
    rintro ⟨a, ha, hge⟩
    exact absurd (List.mem_range.1 (hp.mem_iff.1 ha)) (Nat.not_lt.2 hge)
  rw [permuteView, if_neg (Nat.not_lt.2 hmax), if_neg hlen', if_neg hrange]
  apply fitFor_of_isView (by simp) hinj
  have hview := isView_permute t.layout (by simpa [Tensor.layout] using hlen)
    (axes.take t.shape.length) (by simpa [Tensor.layout] using hp)
  simpa only [View.layout, Tensor.layout, extents, List.map_map, Function.comp_def, ← getD_extents]
    using hview

/-- The axes of `transpose` are the axes with two of them exchanged. -/
theorem transposeAxes_eq (n dim1 dim2 : ℕ) :
    ((List.range n).set dim1 dim2).set dim2 dim1 = (List.range n).map (Equiv.swap dim1 dim2) := by
  apply List.ext_getElem
  · simp
  · intro k hk hk'
    simp only [List.getElem_set, List.getElem_range, List.getElem_map]
    by_cases hk2 : dim2 = k
    · simp [hk2]
    · by_cases hk1 : dim1 = k
      · simp [hk1, hk2]
      · simp [hk1, hk2, Equiv.swap_apply_of_ne_of_ne (Ne.symm hk1) (Ne.symm hk2)]

theorem swap_lt {n dim1 dim2 : ℕ} (h1 : dim1 < n) (h2 : dim2 < n) {b : ℕ} (hb : b < n) :
    Equiv.swap dim1 dim2 b < n := by
  by_cases hb1 : b = dim1
  · simpa [hb1] using h2
  · by_cases hb2 : b = dim2
    · simpa [hb2] using h1
    · rwa [Equiv.swap_apply_of_ne_of_ne hb1 hb2]

theorem transposeAxes_perm {n dim1 dim2 : ℕ} (h1 : dim1 < n) (h2 : dim2 < n) :
    (((List.range n).set dim1 dim2).set dim2 dim1).Perm (List.range n) := by
  rw [transposeAxes_eq, List.perm_ext_iff_of_nodup (List.nodup_range.map (Equiv.injective _)) List.nodup_range]
  intro a
  simp only [List.mem_map, List.mem_range]
  constructor
  · rintro ⟨b, hb, rfl⟩
    exact swap_lt h1 h2 hb
  · exact fun ha => ⟨Equiv.swap dim1 dim2 a, swap_lt h1 h2 ha, by simp⟩

theorem transposeView_fits {t : Tensor} (hlen : t.shape.length = t.strides.length)
    (hinj : t.layout.IsInjective) {dim1 dim2 : ℕ} (hfits : t.Fits (.transpose dim1 dim2)) :
    (transposeView t dim1 dim2).Holds fun v => v.FitFor t := by
  unfold transposeView
  split
  · trivial
  · rename_i hdims
    simp only [not_or, not_le, ge_iff_le] at hdims
    have hp := transposeAxes_perm hdims.1 hdims.2
    apply permuteView_fits hlen hinj
    · rwa [List.take_of_length_le (by simp)]
    · exact hfits hdims.1 hdims.2

theorem unsqueezeView_fits {t : Tensor} (hlen : t.shape.length = t.strides.length)
    (hinj : t.layout.IsInjective) {dim : ℕ} (hfits : t.Fits (.unsqueeze dim)) :
    (unsqueezeView t dim).Holds fun v => v.FitFor t := by
  unfold unsqueezeView
  split
  · trivial
  · rename_i hdim
    have hdim' : dim ≤ t.shape.length := Nat.le_of_not_lt hdim
    rw [if_neg (Nat.not_lt.2 (hfits hdim'))]
    apply fitFor_of_isView (by simp [List.length_insertIdx, hlen]) hinj
    have hview := isView_insertIdx t.layout (by simpa [Tensor.layout] using hlen) dim 0
      (by simpa [Tensor.layout] using hdim')
    simpa only [View.layout, Tensor.layout, extents, List.map_insertIdx, UInt64.toNat_one,
      UInt64.toNat_zero] using hview

theorem squeezeView_fits {t : Tensor} (hlen : t.shape.length = t.strides.length)
    (hinj : t.layout.IsInjective) {dim : ℕ} (hdim : dim < t.shape.length)
    (hone : t.shape.getD dim 0 = 1) (hmax : t.shape.length ≤ maxDims + 1) :
    (squeezeView t dim).Holds fun v => v.FitFor t := by
  rw [squeezeView, if_neg (Nat.not_lt.2 hmax)]
  have hlen' : (t.shape.eraseIdx dim).length = (t.strides.eraseIdx dim).length := by
    rw [List.length_eraseIdx, List.length_eraseIdx, hlen]
  apply fitFor_of_isView hlen' hinj
  have hview := isView_of_insertIdx ⟨t.offset.toNat, extents (t.shape.eraseIdx dim),
    extents (t.strides.eraseIdx dim)⟩ (by simpa using hlen') dim (t.strides.getD dim 0).toNat
  have hshape : (extents (t.shape.eraseIdx dim)).insertIdx dim 1 = extents t.shape := by
    rw [← UInt64.toNat_one, ← hone, List.getD_eq_getElem _ _ hdim]
    rw [extents, ← List.map_insertIdx, List.insertIdx_eraseIdx_getElem, extents]
  have hstrides : (extents (t.strides.eraseIdx dim)).insertIdx dim (t.strides.getD dim 0).toNat
      = extents t.strides := by
    rw [List.getD_eq_getElem _ _ (hlen ▸ hdim), extents, ← List.map_insertIdx,
      List.insertIdx_eraseIdx_getElem, extents]
  dsimp only at hview
  rwa [hshape, hstrides] at hview

/-! ## New tensors and copies -/

/-- The bytes of a new tensor. -/
theorem numel_mul_size {shape : List UInt64} {dtype : Dtype}
    (hfit : (extents shape).prod * dtype.size.toNat < 2 ^ 64) :
    (numel shape * dtype.size).toNat = (extents shape).prod * dtype.size.toNat := by
  have hprod : (extents shape).prod < 2 ^ 64 :=
    Nat.lt_of_le_of_lt (Nat.le_mul_of_pos_right _ (size_pos dtype)) hfit
  rw [UInt64.toNat_mul, numel_toNat hprod]
  exact Nat.mod_eq_of_lt hfit

theorem layout_tensorCreate (h : Heap) {shape : List UInt64} (dtype : Dtype)
    (hpos : 0 < (extents shape).prod) (hprod : (extents shape).prod < 2 ^ 64) :
    (tensorCreate h shape dtype).2.layout = ⟨0, extents shape, packedStrides (extents shape)⟩ := by
  simp [tensorCreate, Tensor.layout, rowMajor_toNat hpos hprod]

/-- A new tensor whose bytes can be counted. -/
theorem tensorCreate_valid (h : Heap) {shape : List UInt64} {dtype : Dtype}
    (hfit : (extents shape).prod * dtype.size.toNat < 2 ^ 64) :
    (tensorCreate h shape dtype).2.Valid (tensorCreate h shape dtype).1 := by
  have hprod : (extents shape).prod < 2 ^ 64 :=
    Nat.lt_of_le_of_lt (Nat.le_mul_of_pos_right _ (size_pos dtype)) hfit
  have hsize := numel_toNat hprod
  refine ⟨Nat.lt_succ_self _, (length_rowMajor shape).symm, hsize, ?_, _, Function.update_self _ _ _, ?_⟩
  · rcases Nat.eq_zero_or_pos (extents shape).prod with h0 | hpos
    · exact isInjective_of_empty h0
    · rw [layout_tensorCreate h dtype hpos hprod]
      exact packed_isInjective _ _
  · rcases Nat.eq_zero_or_pos (extents shape).prod with h0 | hpos
    · exact below_of_empty h0 _
    · rw [layout_tensorCreate h dtype hpos hprod]
      apply packed_below
      intro _
      simp only [Tensor.itemSize, tensorCreate]
      rw [numel_mul_size hfit, Nat.mul_div_cancel _ (size_pos dtype), Nat.zero_add]

theorem Tensor.Valid.size_bytes {t : Tensor} {h : Heap} (hv : t.Valid h) :
    (t.size * t.itemSize).toNat = (extents t.shape).prod * t.itemSize.toNat := by
  rw [UInt64.toNat_mul, hv.size_eq, Nat.mod_eq_of_lt hv.bytes_lt]

/-- The elements in the order of the memory, from the first one on, are inside the storage. -/
theorem Tensor.Valid.row_le {t : Tensor} {h : Heap} (hv : t.Valid h) {st : Storage}
    (hst : h.storages t.storage = some st) (hpos : 0 < (extents t.shape).prod) :
    (t.offset.toNat + (extents t.shape).prod) * t.itemSize.toNat ≤ st.numBytes.toNat := by
  obtain ⟨st', hst', hb⟩ := hv.room
  obtain rfl := Option.some.inj (hst.symm.trans hst')
  exact prod_mul_le hv.injective (itemSize_pos t) hb hpos

/-- A copy of the elements of a tensor, in the order of the memory, into a new tensor with room for
them. -/
theorem create_copy_valid {h : Heap} {src : Tensor} (hv : src.Valid h) {shape : List UInt64}
    (hfit : (extents shape).prod * src.itemSize.toNat < 2 ^ 64)
    (hroom : src.size.toNat ≤ (extents shape).prod) :
    ((Outcome.ofOption (copyData (tensorCreate h shape src.dtype).1
        (tensorCreate h shape src.dtype).2 src (src.size * src.itemSize).toNat)).bind
        (fun h₁ => .ok (h₁, (tensorCreate h shape src.dtype).2))).Holds fun r => r.2.Valid r.1 := by
  obtain ⟨st, hst, -⟩ := hv.room
  have hdst := tensorCreate_valid h hfit
  have hbytes : (numel shape * src.dtype.size).toNat = (extents shape).prod * src.itemSize.toNat :=
    numel_mul_size hfit
  have hn := hv.size_bytes
  have hsrc : (tensorCreate h shape src.dtype).1.storages src.storage = some st := by
    simp only [tensorCreate, storageCreate]
    rw [Function.update_of_ne hv.known.ne, hst]
  have hdata : (tensorCreate h shape src.dtype).1.storages (tensorCreate h shape src.dtype).2.storage
      = some ⟨h.fresh h.next, numel shape * src.dtype.size, 1⟩ := Function.update_self _ _ _
  have hcond : (src.size * src.itemSize).toNat = 0 ∨
      ((tensorCreate h shape src.dtype).2.offset * (tensorCreate h shape src.dtype).2.itemSize).toNat
          + (src.size * src.itemSize).toNat ≤ (numel shape * src.dtype.size).toNat ∧
        (src.offset * src.itemSize).toNat + (src.size * src.itemSize).toNat ≤ st.numBytes.toNat := by
    rcases Nat.eq_zero_or_pos (extents src.shape).prod with h0 | hpos
    · exact .inl (by rw [hn, h0, Nat.zero_mul])
    · have hle := hv.row_le hst hpos
      rw [Nat.add_mul] at hle
      have hlt := st.numBytes.toNat_lt
      have hoff : (src.offset * src.itemSize).toNat = src.offset.toNat * src.itemSize.toNat := by
        rw [UInt64.toNat_mul, Nat.mod_eq_of_lt (by omega)]
      refine .inr ⟨?_, by rwa [hoff, hn]⟩
      rw [hn, hbytes, ← hv.size_eq]
      simpa [tensorCreate] using Nat.mul_le_mul_right src.itemSize.toNat hroom
  simp only [copyData, hsrc, hdata, Option.bind_some]
  rw [if_pos hcond]
  exact
    { known := hdst.known
      lengths := hdst.lengths
      size_eq := hdst.size_eq
      injective := hdst.injective
      room := by
        obtain ⟨st', hst', hb'⟩ := hdst.room
        obtain rfl := Option.some.inj (hdata.symm.trans hst')
        exact ⟨_, Function.update_self _ _ _, hb'⟩ }

/-! ## The operations -/

theorem tensorSqueeze_valid {h : Heap} {t : Tensor} (hv : t.Valid h) {dim : ℕ}
    (hfits : t.Fits (.squeeze dim)) : (tensorSqueeze h t dim).Holds fun r => r.2.Valid r.1 := by
  unfold tensorSqueeze
  split
  · exact create_copy_valid hv hv.bytes_lt hv.size_eq.le
  · rename_i hdim
    simp only [ge_iff_le, not_or, not_le, ne_eq, not_not] at hdim
    have hview := squeezeView_fits hv.lengths hv.injective hdim.1 hdim.2 (hfits hdim.1 hdim.2)
    exact hview.bind fun v hfit => asStrided_valid hv hfit

theorem packedView_fits {h : Heap} {t : Tensor} (hv : t.Valid h) {shape : List UInt64}
    (hle : (extents shape).prod ≤ t.size.toNat) : View.FitFor ⟨t.offset, shape, rowMajor shape⟩ t := by
  have hlt : (extents shape).prod < 2 ^ 64 := Nat.lt_of_le_of_lt hle t.size.toNat_lt
  refine ⟨(length_rowMajor shape).symm, ?_, fun n _ hb => ?_⟩
  · rcases Nat.eq_zero_or_pos (extents shape).prod with h0 | hpos
    · exact isInjective_of_empty h0
    · rw [View.layout, rowMajor_toNat hpos hlt]
      exact packed_isInjective _ _
  · rcases Nat.eq_zero_or_pos (extents shape).prod with h0 | hpos
    · exact below_of_empty h0 _
    · rw [View.layout, rowMajor_toNat hpos hlt]
      apply packed_below
      intro _
      rw [hv.size_eq] at hle
      calc t.offset.toNat + (extents shape).prod ≤ t.offset.toNat + (extents t.shape).prod :=
            Nat.add_le_add_left hle _
        _ ≤ n := Layout.prod_le hv.injective hb (Nat.lt_of_lt_of_le hpos hle)

theorem tensorReshape_valid {h : Heap} {t : Tensor} (hv : t.Valid h) {newShape : List UInt64}
    (hfits : t.Fits (.reshape newShape)) :
    (tensorReshape h t newShape).Holds fun r => r.2.Valid r.1 := by
  obtain ⟨hmax, shape, hshape, hfit⟩ := hfits
  rw [tensorReshape, if_neg (Nat.not_lt.2 hmax), hshape]
  simp only [Outcome.ofOption, Outcome.bind]
  by_cases hc : isContiguous t ∧ t.shape ≠ []
  · rw [if_pos hc] at hfit ⊢
    exact asStrided_valid hv (packedView_fits hv hfit)
  · rw [if_neg hc] at hfit ⊢
    exact create_copy_valid hv hfit.2 hfit.1

theorem apply_valid {h : Heap} {t : Tensor} (hv : t.Valid h) {op : ViewOp} (hfits : t.Fits op) :
    (op.apply h t).Holds fun r => r.2.Valid r.1 := by
  cases op with
  | narrow dim start size =>
    exact (narrowView_fits hv.lengths hv.injective hfits).bind fun v => asStrided_valid hv
  | slice dim start finish =>
    exact (sliceView_fits hv.lengths hv.injective hfits).bind fun v => asStrided_valid hv
  | permute axes =>
    exact (permuteView_fits hv.lengths hv.injective hfits.1 hfits.2).bind fun v => asStrided_valid hv
  | transpose dim1 dim2 =>
    exact (transposeView_fits hv.lengths hv.injective hfits).bind fun v => asStrided_valid hv
  | unsqueeze dim =>
    exact (unsqueezeView_fits hv.lengths hv.injective hfits).bind fun v => asStrided_valid hv
  | squeeze dim => exact tensorSqueeze_valid hv hfits
  | reshape newShape => exact tensorReshape_valid hv hfits

/-! ## Chains -/

theorem chain_valid {r : Heap × Tensor} (ops : List ViewOp) (hv : r.2.Valid r.1) (hfit : AllFit r ops) :
    (chain r ops).Holds fun r => r.2.Valid r.1 := by
  induction ops generalizing r with
  | nil => exact hv
  | cons op ops ih =>
    have hop := apply_valid hv hfit.1
    have hrest := hfit.2
    rw [chain]
    cases ha : op.apply r.1 r.2 with
    | fault => rwa [ha] at hop
    | null => trivial
    | ok r' =>
      rw [ha] at hop
      exact ih hop (hrest r' ha)

theorem Outcome.Holds.mono {α : Type} {P Q : α → Prop} {o : Outcome α} (ho : o.Holds P)
    (h : ∀ a, P a → Q a) : o.Holds Q := by
  cases o with
  | fault => exact ho
  | null => trivial
  | ok a => exact h a ho

/-- A chain of calls that fit, on a new tensor whose bytes can be counted, has no undefined behaviour,
and its result, if any, has all its elements inside its storage. -/
theorem chain_inBounds (h : Heap) (shape : List UInt64) (dtype : Dtype) (ops : List ViewOp)
    (hcreate : (extents shape).prod * dtype.size.toNat < 2 ^ 64)
    (hfit : AllFit (tensorCreate h shape dtype) ops) :
    (chain (tensorCreate h shape dtype) ops).Holds fun r => r.2.InBounds r.1 :=
  (chain_valid ops (tensorCreate_valid h hcreate) hfit).mono fun _ => Tensor.Valid.inBounds

theorem allFit_cons {r r' : Heap × Tensor} {op : ViewOp} {ops : List ViewOp} (hop : r.2.Fits op)
    (ha : op.apply r.1 r.2 = .ok r') (hrest : AllFit r' ops) : AllFit r (op :: ops) := by
  refine ⟨hop, fun r₁ h1 => ?_⟩
  obtain rfl := Outcome.ok.inj (ha.symm.trans h1)
  exact hrest

/-- Columns of a matrix, transposed and flattened by a copy. -/
theorem chain_inBounds_columns :
    (chain (tensorCreate ⟨fun _ => none, 0, fun _ _ => 0⟩ [2, 3] .float32)
      [.narrow 1 1 2, .transpose 0 1, .reshape [-1]]).Holds fun r => r.2.InBounds r.1 := by
  apply chain_inBounds
  · decide
  · refine allFit_cons ?_ rfl (allFit_cons ?_ rfl (allFit_cons ?_ rfl trivial))
    · exact fun _ _ => by decide
    · exact fun _ _ => by decide
    · exact ⟨by decide, [4], by decide, by decide⟩

/-- A view of eight elements on a storage of four. -/
theorem not_inBounds_reshape :
    ¬∀ (h : Heap) (shape : List UInt64) (dtype : Dtype) (ops : List ViewOp),
      (chain (tensorCreate h shape dtype) ops).Holds fun r => r.2.InBounds r.1 := by
  intro hall
  obtain ⟨st, hst, hin⟩ := hall ⟨fun _ => none, 0, fun _ _ => 0⟩ [4] .float32 [.reshape [8]]
  obtain rfl := Option.some.inj hst
  have hlast := hin [7] (List.forall₂_cons.2 ⟨by decide, .nil⟩)
  exact absurd hlast (by decide)

end SneppxAlg.TensorEngine
