import SneppxAlg.Kernel.TensorBounds

/-!
# `tensor.c`: copies of views

`SNEPPX_tensor_copy` copies as many bytes as the source has, from its first element on, whatever its
strides. `SNEPPX_tensor_contiguous` goes through the elements of the copy and takes the number of each
apart to find the element of the source, but with the strides of the source in place of those of the
copy. Both are right for a tensor that is contiguous. For another one they are right only if it has at
most one element or is a single row of neighbouring elements (`materialises_iff`).
-/

namespace SneppxAlg.TensorEngine

open Lib.Strided

/-! ## The elements of a tensor -/

/-- Byte `b` of the element at an index. -/
def byteAt (h : Heap) (t : Tensor) (i : List ℕ) (b : ℕ) : Option UInt8 :=
  (h.storages t.storage).map fun st => st.data (t.layout.address i * t.itemSize.toNat + b)

/-- The shape and the elements are those of `src`. -/
structure SameElements (h : Heap) (src : Tensor) (r : Heap × Tensor) : Prop where
  shape : r.2.shape = src.shape
  dtype : r.2.dtype = src.dtype
  bytes : ∀ i, Within i (extents src.shape) → ∀ b < src.itemSize.toNat,
    byteAt r.1 r.2 i b = byteAt h src i b

/-- Other contents of a storage. -/
def Heap.fill (h : Heap) (s : ℕ) (data : ℕ → UInt8) : Heap :=
  let filled := (h.storages s).map fun st => { st with data := data }
  { h with storages := Function.update h.storages s filled }

/-- Whatever the storage of a tensor contains, `copy` and `contiguous` return its elements. -/
def Materialises (h : Heap) (t : Tensor) : Prop :=
  ∀ data, (∃ r, tensorCopy (h.fill t.storage data) t = .ok r ∧
      SameElements (h.fill t.storage data) t r) ∧
    ∃ r, tensorContiguous (h.fill t.storage data) t = .ok r ∧
      SameElements (h.fill t.storage data) t r

/-- All extents but one are 1; that one has stride 1, and the strides behind it are zero or not below
the extent. -/
def IsRow (t : Tensor) : Prop :=
  ∃ before n after, t.shape = List.replicate before.length 1 ++ n :: List.replicate after.length 1 ∧
    t.strides = before ++ 1 :: after ∧ ∀ st ∈ after, st = 0 ∨ n ≤ st

/-! ## The number of an element, taken apart -/

/-- The offset that `contiguous` computes, from the last extent on. -/
def offsetFrom : List ℕ → List ℕ → ℕ → ℕ
  | s :: shape, st :: strides, tmp =>
    if 0 < st then tmp / st % s * st + offsetFrom shape strides (tmp % st)
    else offsetFrom shape strides tmp
  | _, _, _ => 0

theorem offsetFrom_le (shape strides : List ℕ) (tmp : ℕ) : offsetFrom shape strides tmp ≤ tmp := by
  induction shape generalizing strides tmp with
  | nil => exact Nat.zero_le _
  | cons s shape ih =>
    cases strides with
    | nil => exact Nat.zero_le _
    | cons st strides =>
      rw [offsetFrom]
      split_ifs
      · calc tmp / st % s * st + offsetFrom shape strides (tmp % st)
            ≤ tmp / st * st + tmp % st :=
              Nat.add_le_add (Nat.mul_le_mul_right _ (Nat.mod_le _ _)) (ih strides _)
          _ = tmp := Nat.div_add_mod' tmp st
      · exact ih strides tmp

theorem sum_indexLoop (shape strides : List UInt64) (tmp : UInt64) :
    (List.zipWith (· * ·) (indexLoop shape strides tmp) strides).sum.toNat =
      offsetFrom (extents shape) (extents strides) tmp.toNat := by
  induction shape generalizing strides tmp with
  | nil => rfl
  | cons s shape ih =>
    cases strides with
    | nil => rfl
    | cons st strides =>
      have hle := offsetFrom_le (extents (s :: shape)) (extents (st :: strides)) tmp.toNat
      have hlt := tmp.toNat_lt
      rw [indexLoop]
      simp only [extents_cons, offsetFrom, gt_iff_lt, UInt64.lt_iff_toNat_lt, UInt64.toNat_zero] at hle ⊢
      split_ifs at hle ⊢ with hst
      · have hhead : (tmp / st % s * st).toNat = tmp.toNat / st.toNat % s.toNat * st.toNat := by
          rw [UInt64.toNat_mul, UInt64.toNat_mod, UInt64.toNat_div]
          exact Nat.mod_eq_of_lt (by omega)
        rw [List.zipWith_cons_cons, List.sum_cons, UInt64.toNat_add, hhead, ih, UInt64.toNat_mod]
        exact Nat.mod_eq_of_lt (by omega)
      · rw [List.zipWith_cons_cons, List.sum_cons, zero_mul, zero_add, ih]

theorem length_indexLoop (shape strides : List UInt64) (tmp : UInt64)
    (hlen : shape.length = strides.length) : (indexLoop shape strides tmp).length = strides.length := by
  induction shape generalizing strides tmp with
  | nil =>
    rw [indexLoop, ← hlen]
    · intro s shape st strides h
      cases h
  | cons s shape ih =>
    cases strides with
    | nil => cases hlen
    | cons st strides =>
      have hrest : shape.length = strides.length := Nat.succ.inj hlen
      rw [indexLoop]
      split_ifs
      · rw [List.length_cons, ih _ _ hrest, List.length_cons]
      · rw [List.length_cons, ih _ _ hrest, List.length_cons]

theorem flatOffset_toNat {t : Tensor} (hlen : t.shape.length = t.strides.length) (flat : UInt64) :
    (flatOffset t flat).toNat =
      offsetFrom (extents t.shape).reverse (extents t.strides).reverse flat.toNat := by
  have hloop : (indexLoop t.shape.reverse t.strides.reverse flat).length = t.strides.reverse.length :=
    length_indexLoop _ _ _ (by rw [List.length_reverse, List.length_reverse, hlen])
  rw [← extents_reverse, ← extents_reverse, ← sum_indexLoop, flatOffset]
  conv_rhs => rw [← List.sum_reverse, List.reverse_zipWith hloop, List.reverse_reverse]

/-! ## Layouts for which the numbers come out right -/

/-- A row, from the last extent on. -/
def RowFrom : List ℕ → List ℕ → Prop
  | s :: shape, st :: strides =>
    s = 1 ∧ (st = 0 ∨ shape.prod ≤ st) ∧ RowFrom shape strides ∨ st = 1 ∧ shape.prod = 1
  | _, _ => False

/-- The elements are where the packed ones are. -/
def PackedFrom (shape strides : List ℕ) : Prop :=
  ∀ i, Within i shape → dot i (stridesFrom shape 1) = dot i strides

section

variable {s st : ℕ} {shape strides : List ℕ}

theorem within_one_iff {i : ℕ} {index : List ℕ} :
    Within (i :: index) (1 :: shape) ↔ i = 0 ∧ Within index shape := by
  rw [within_cons, Nat.lt_one_iff]

theorem packedFrom_one_iff : PackedFrom (1 :: shape) (st :: strides) ↔ PackedFrom shape strides := by
  constructor
  · intro h i hi
    have := h (0 :: i) (within_one_iff.mpr ⟨rfl, hi⟩)
    simpa [stridesFrom] using this
  · intro h i hi
    cases hi with
    | @cons a _ index _ ha hindex =>
      obtain rfl := Nat.lt_one_iff.mp ha
      simpa [stridesFrom] using h index hindex

/-- The only index of an array with one element. -/
theorem dot_eq_zero_of_prod_eq_one {i : List ℕ} (hi : Within i shape) (h : shape.prod = 1)
    (strides : List ℕ) : dot i strides = 0 := by
  induction hi generalizing strides with
  | nil => rfl
  | @cons a s index shape ha hi ih =>
    rw [List.prod_cons] at h
    obtain rfl : s = 1 := Nat.eq_one_of_mul_eq_one_right h
    have hrest : shape.prod = 1 := Nat.eq_one_of_mul_eq_one_left h
    obtain rfl := Nat.lt_one_iff.mp ha
    cases strides with
    | nil => simp [dot]
    | cons st strides => rw [dot_cons, ih hrest, Nat.zero_mul]

theorem dot_digits_zero (shape strides : List ℕ) : dot (digits shape 0) strides = 0 := by
  induction shape generalizing strides with
  | nil => rfl
  | cons s shape ih =>
    cases strides with
    | nil => simp [dot]
    | cons st strides => rw [digits, dot_cons, Nat.zero_mod, Nat.zero_div, ih, Nat.zero_mul]

theorem offsetFrom_zero (shape strides : List ℕ) : offsetFrom shape strides 0 = 0 :=
  Nat.le_zero.mp (offsetFrom_le _ _ _)

theorem RowFrom.packed (h : RowFrom shape strides) : PackedFrom shape strides := by
  induction shape generalizing strides with
  | nil => exact h.elim
  | cons s shape ih =>
    cases strides with
    | nil => exact h.elim
    | cons st strides =>
      rcases h with ⟨rfl, -, hrest⟩ | ⟨rfl, hprod⟩
      · exact packedFrom_one_iff.mpr (ih hrest)
      · intro i hi
        cases hi with
        | cons ha hindex =>
          rw [stridesFrom, dot_cons, dot_cons, dot_eq_zero_of_prod_eq_one hindex hprod,
            dot_eq_zero_of_prod_eq_one hindex hprod]

theorem RowFrom.offset (h : RowFrom shape strides) {a : ℕ} (ha : a < shape.prod) :
    offsetFrom shape strides a = a := by
  induction shape generalizing strides with
  | nil => exact h.elim
  | cons s shape ih =>
    cases strides with
    | nil => exact h.elim
    | cons st strides =>
      rw [List.prod_cons] at ha
      rw [offsetFrom]
      rcases h with ⟨rfl, hst, hrest⟩ | ⟨rfl, hprod⟩
      · rw [Nat.one_mul] at ha
        split_ifs with hpos
        · have hlt : a < st := by omega
          rw [Nat.mod_one, Nat.zero_mul, Nat.zero_add, Nat.mod_eq_of_lt hlt, ih hrest ha]
        · exact ih hrest ha
      · rw [hprod, Nat.mul_one] at ha
        rw [if_pos Nat.one_pos, Nat.div_one, Nat.mul_one, Nat.mod_one, offsetFrom_zero, Nat.add_zero,
          Nat.mod_eq_of_lt ha]

/-- Conversely, an array of two elements or more is a row. -/
theorem rowFrom_of_offset (hlen : shape.length = strides.length) (htwo : 2 ≤ shape.prod)
    (hpacked : PackedFrom shape strides)
    (hoffset : ∀ a < shape.prod, offsetFrom shape strides a = a) : RowFrom shape strides := by
  induction shape generalizing strides with
  | nil => exact absurd htwo (by decide)
  | cons s shape ih =>
    cases strides with
    | nil => cases hlen
    | cons st strides =>
      have hpos : 0 < s * shape.prod := by
        rw [List.prod_cons] at htwo
        omega
      rcases Nat.lt_or_ge 1 s with hs | hs
      · -- the first index counts single elements
        have hzeros := within_digits (Nat.pos_of_mul_pos_left hpos) 0
        have hunit := hpacked (1 :: digits shape 0) (within_cons.mpr ⟨hs, hzeros⟩)
        rw [stridesFrom, dot_cons, dot_cons, dot_digits_zero, dot_digits_zero, Nat.one_mul] at hunit
        obtain rfl : st = 1 := by omega
        refine Or.inr ⟨rfl, ?_⟩
        by_contra hne
        have hrest : 2 ≤ shape.prod := by
          have := Nat.pos_of_mul_pos_left hpos
          omega
        have heq := hoffset s (by rw [List.prod_cons]; exact (Nat.lt_mul_iff_one_lt_right (by omega)).mpr hrest)
        rw [offsetFrom, if_pos Nat.one_pos, Nat.div_one, Nat.mod_self, Nat.mod_one, offsetFrom_zero] at heq
        omega
      · obtain rfl : s = 1 := by
          have := Nat.pos_of_mul_pos_right hpos
          omega
        rw [List.prod_cons, Nat.one_mul] at htwo hoffset
        have hst : st = 0 ∨ shape.prod ≤ st := by
          by_contra hbad
          rw [not_or, not_le] at hbad
          have hle := offsetFrom_le shape strides (st % st)
          have heq := hoffset st hbad.2
          rw [offsetFrom, if_pos (by omega), Nat.mod_one, Nat.zero_mul, Nat.zero_add, Nat.mod_self] at heq
          rw [Nat.mod_self] at hle
          omega
        refine Or.inl ⟨rfl, hst, ih (Nat.succ.inj hlen) htwo (packedFrom_one_iff.mp hpacked) ?_⟩
        intro a ha
        have heq := hoffset a ha
        rw [offsetFrom] at heq
        split_ifs at heq with hpos
        · have hlt : a < st := by omega
          rwa [Nat.mod_one, Nat.zero_mul, Nat.zero_add, Nat.mod_eq_of_lt hlt] at heq
        · exact heq

end

/-! ## What the copies contain -/

section

variable {h : Heap} {t : Tensor}

theorem storages_fill {st : Storage} (hst : h.storages t.storage = some st) (data : ℕ → UInt8) :
    (h.fill t.storage data).storages t.storage = some { st with data := data } := by
  simp [Heap.fill, hst]

theorem Tensor.Valid.fill (hv : t.Valid h) (data : ℕ → UInt8) : t.Valid (h.fill t.storage data) := by
  obtain ⟨st, hst, hb⟩ := hv.room
  exact
    { known := hv.known
      lengths := hv.lengths
      size_eq := hv.size_eq
      injective := hv.injective
      room := ⟨_, storages_fill hst data, hb⟩ }

/-- A packed tensor whose element number `a` is what the source has at offset `f a`. -/
structure Copied (h : Heap) (src : Tensor) (f : ℕ → ℕ) (r : Heap × Tensor) : Prop where
  shape : r.2.shape = src.shape
  dtype : r.2.dtype = src.dtype
  layout : r.2.layout = ⟨0, extents src.shape, packedStrides (extents src.shape)⟩
  data : ∃ sd st, r.1.storages r.2.storage = some sd ∧ h.storages src.storage = some st ∧
    ∀ a < (extents src.shape).prod, ∀ b < src.itemSize.toNat,
      sd.data (a * src.itemSize.toNat + b) =
        st.data ((src.offset.toNat + f a) * src.itemSize.toNat + b)

theorem Copied.sameElements {f : ℕ → ℕ} {r : Heap × Tensor} (hc : Copied h t f r)
    (hf : ∀ i, Within i (extents t.shape) →
      f (dot i (packedStrides (extents t.shape))) = dot i (extents t.strides)) : SameElements h t r := by
  obtain ⟨sd, st, hsd, hst, hdata⟩ := hc.data
  refine ⟨hc.shape, hc.dtype, fun i hi b hb => ?_⟩
  have hitem : r.2.itemSize = t.itemSize := congrArg Dtype.size hc.dtype
  rw [byteAt, byteAt, hsd, hst, Option.map_some, Option.map_some, hc.layout, hitem, Layout.address,
    Nat.zero_add, hdata _ (dot_packed_lt hi) b hb, hf i hi]
  rfl

/-- With a mark on one element of the source, the copy shows where it has come from. -/
theorem Copied.offset_eq {f : ℕ → ℕ} {i : List ℕ} (hi : Within i (extents t.shape))
    (hc : ∀ data, ∃ r, Copied (h.fill t.storage data) t f r ∧ SameElements (h.fill t.storage data) t r) :
    f (dot i (packedStrides (extents t.shape))) = dot i (extents t.strides) := by
  have hpos := itemSize_pos t
  obtain ⟨r, hr, hsame⟩ := hc fun j => if j = t.layout.address i * t.itemSize.toNat then 1 else 0
  obtain ⟨sd, st, hsd, hst, hdata⟩ := hr.data
  have hfill : st.data = fun j => if j = t.layout.address i * t.itemSize.toNat then 1 else 0 := by
    simp only [Heap.fill, Function.update_self, Option.map_eq_some_iff] at hst
    obtain ⟨st', -, rfl⟩ := hst
    rfl
  have hitem : r.2.itemSize = t.itemSize := congrArg Dtype.size hr.dtype
  have hbyte := hsame.bytes i hi 0 hpos
  rw [byteAt, byteAt, hsd, hst, Option.map_some, Option.map_some, hr.layout, hitem, Layout.address,
    Nat.zero_add, hdata _ (dot_packed_lt hi) 0 hpos, hfill] at hbyte
  have hmark := Option.some.inj hbyte
  simp only [Nat.add_zero, if_true, ite_eq_left_iff] at hmark
  have haddr : (t.offset.toNat + f (dot i (packedStrides (extents t.shape)))) * t.itemSize.toNat =
      t.layout.address i * t.itemSize.toNat := by
    by_contra hne
    exact absurd (hmark hne) (by decide)
  exact Nat.add_left_cancel (Nat.eq_of_mul_eq_mul_right hpos haddr)

theorem Tensor.Valid.prod_lt (hv : t.Valid h) : (extents t.shape).prod < 2 ^ 64 :=
  hv.size_eq ▸ t.size.toNat_lt

/-- The storages of the source and of a new tensor of its shape. -/
theorem storages_create (hv : t.Valid h) {st : Storage} (hst : h.storages t.storage = some st) :
    (tensorCreate h t.shape t.dtype).1.storages t.storage = some st ∧
      (tensorCreate h t.shape t.dtype).1.storages (tensorCreate h t.shape t.dtype).2.storage =
        some ⟨h.fresh h.next, numel t.shape * t.dtype.size, 1⟩ := by
  constructor
  · simp only [tensorCreate, storageCreate]
    rw [Function.update_of_ne hv.known.ne, hst]
  · exact Function.update_self _ _ _

theorem Tensor.Valid.offset_bytes (hv : t.Valid h) {a : UInt64}
    (ha : a.toNat < (extents t.shape).prod) :
    ((t.offset + a) * t.itemSize).toNat = (t.offset.toNat + a.toNat) * t.itemSize.toNat := by
  obtain ⟨st, hst, -⟩ := hv.room
  have hpos := itemSize_pos t
  have hle := hv.row_le hst (Nat.zero_lt_of_lt ha)
  have hlt := st.numBytes.toNat_lt
  have hbytes : (t.offset.toNat + a.toNat) * t.itemSize.toNat < 2 ^ 64 := by
    refine lt_of_le_of_lt (Nat.mul_le_mul_right _ ?_) (lt_of_le_of_lt hle hlt)
    omega
  have hsum : t.offset.toNat + a.toNat < 2 ^ 64 :=
    lt_of_le_of_lt (Nat.le_mul_of_pos_right _ hpos) hbytes
  rw [UInt64.toNat_mul, UInt64.toNat_add, Nat.mod_eq_of_lt hsum, Nat.mod_eq_of_lt hbytes]

theorem copied_tensorCopy (hv : t.Valid h) (hpos : 0 < (extents t.shape).prod) :
    ∃ r, tensorCopy h t = .ok r ∧ Copied h t id r := by
  obtain ⟨st, hst, -⟩ := hv.room
  obtain ⟨hsrc, hdst⟩ := storages_create hv hst
  have hle := hv.row_le hst hpos
  have hoff : (t.offset * t.itemSize).toNat = t.offset.toNat * t.itemSize.toNat := by
    have := hv.offset_bytes (a := 0) hpos
    simpa using this
  have hzero : ((tensorCreate h t.shape t.dtype).2.offset *
      (tensorCreate h t.shape t.dtype).2.itemSize).toNat = 0 := by
    simp [tensorCreate]
  rw [Nat.add_mul] at hle
  simp only [tensorCopy, copyData, hsrc, hdst, Option.bind_some, hzero, hoff, hv.size_bytes]
  rw [if_pos (Or.inr ⟨by rw [Nat.zero_add]; exact (numel_mul_size hv.bytes_lt).ge, hle⟩)]
  refine ⟨_, rfl, rfl, rfl, layout_tensorCreate h _ hpos hv.prod_lt, _, st,
    Function.update_self _ _ _, hst, fun a ha b hb => ?_⟩
  have hlt : a * t.itemSize.toNat + b < (extents t.shape).prod * t.itemSize.toNat := by
    calc a * t.itemSize.toNat + b < (a + 1) * t.itemSize.toNat := by rw [Nat.succ_mul]; omega
      _ ≤ (extents t.shape).prod * t.itemSize.toNat := Nat.mul_le_mul_right _ ha
  dsimp only
  rw [if_pos ⟨Nat.zero_le _, by omega⟩, Nat.add_mul]
  congr 1
  simp only [id_eq]
  omega

/-- The offset of the element that `contiguous` takes for the element number `a` of the copy. -/
def Tensor.taken (t : Tensor) (a : ℕ) : ℕ :=
  offsetFrom (extents t.shape).reverse (extents t.strides).reverse a

theorem Tensor.taken_le (t : Tensor) (a : ℕ) : t.taken a ≤ a := offsetFrom_le _ _ _

/-- The heap after `m` rounds of the loop of `contiguous`: the source is as before, and `m` elements of
the copy are there. -/
structure LoopInv (t dst : Tensor) (st : Storage) (m : ℕ) (h : Heap) : Prop where
  src : h.storages t.storage = some st
  dst : ∃ sd, h.storages dst.storage = some sd ∧
    sd.numBytes.toNat = (extents t.shape).prod * t.itemSize.toNat ∧
    ∀ a < m, ∀ b < t.itemSize.toNat, sd.data (a * t.itemSize.toNat + b) =
      st.data ((t.offset.toNat + t.taken a) * t.itemSize.toNat + b)

theorem copyElement_spec (hv : t.Valid h) {st : Storage} (hst : h.storages t.storage = some st)
    {dst : Tensor} (hdst : dst.storage ≠ t.storage) (hoff : dst.offset = 0)
    (hdtype : dst.dtype = t.dtype) {m : ℕ} (hm : m < (extents t.shape).prod) {h₁ : Heap}
    (hinv : LoopInv t dst st m h₁) : ∃ h₂, copyElement dst t h₁ m = some h₂ ∧ LoopInv t dst st (m + 1) h₂ := by
  obtain ⟨sd, hsd, hbytes, hdata⟩ := hinv.dst
  have hlt : m < 2 ^ 64 := hm.trans hv.prod_lt
  have hflat : (UInt64.ofNat m).toNat = m := UInt64.toNat_ofNat_of_lt' hlt
  have htaken : (flatOffset t (UInt64.ofNat m)).toNat = t.taken m := by
    rw [flatOffset_toNat hv.lengths, hflat, Tensor.taken]
  have htaken_lt : t.taken m < (extents t.shape).prod := (t.taken_le m).trans_lt hm
  have hsrcAt : ((t.offset + flatOffset t (UInt64.ofNat m)) * t.itemSize).toNat =
      (t.offset.toNat + t.taken m) * t.itemSize.toNat := by
    rw [hv.offset_bytes (by rw [htaken]; exact htaken_lt), htaken]
  have hdstAt : ((dst.offset + UInt64.ofNat m) * dst.itemSize).toNat = m * t.itemSize.toNat := by
    have hmul : m * t.itemSize.toNat < 2 ^ 64 :=
      lt_of_le_of_lt (Nat.mul_le_mul_right _ hm.le) hv.bytes_lt
    rw [Tensor.itemSize, hdtype, hoff, zero_add, UInt64.toNat_mul, hflat]
    exact Nat.mod_eq_of_lt hmul
  have hroom : m * t.itemSize.toNat + t.itemSize.toNat ≤ sd.numBytes.toNat := by
    rw [hbytes, ← Nat.succ_mul]
    exact Nat.mul_le_mul_right _ hm
  have hroom' : (t.offset.toNat + t.taken m) * t.itemSize.toNat + t.itemSize.toNat ≤
      st.numBytes.toNat := by
    rw [← Nat.succ_mul]
    refine le_trans (Nat.mul_le_mul_right _ ?_) (hv.row_le hst (Nat.zero_lt_of_lt hm))
    omega
  have hitem : ∀ o, ({ dst with offset := o } : Tensor).itemSize = dst.itemSize := fun _ => rfl
  have hitem' : ∀ o, ({ t with offset := o } : Tensor).itemSize = t.itemSize := fun _ => rfl
  simp only [copyElement, copyData, hsd, hinv.src, Option.bind_some, hitem, hitem', hdstAt, hsrcAt]
  rw [if_pos (Or.inr ⟨hroom, hroom'⟩)]
  refine ⟨_, rfl, ?_, _, Function.update_self _ _ _, hbytes, fun a ha b hb => ?_⟩
  · dsimp only
    rw [Function.update_of_ne hdst.symm]
    exact hinv.src
  · dsimp only
    rcases Nat.lt_succ_iff_lt_or_eq.mp ha with ha | rfl
    · have hbefore : a * t.itemSize.toNat + b < m * t.itemSize.toNat := by
        calc a * t.itemSize.toNat + b < (a + 1) * t.itemSize.toNat := by rw [Nat.succ_mul]; omega
          _ ≤ m * t.itemSize.toNat := Nat.mul_le_mul_right _ ha
      rw [if_neg (by omega)]
      exact hdata a ha b hb
    · rw [if_pos ⟨Nat.le_add_right _ _, by omega⟩, Nat.add_sub_cancel_left, Nat.add_comm b]

theorem copyLoop_spec (hv : t.Valid h) {st : Storage} (hst : h.storages t.storage = some st)
    {dst : Tensor} (hdst : dst.storage ≠ t.storage) (hoff : dst.offset = 0)
    (hdtype : dst.dtype = t.dtype) {h₀ : Heap} (hinv : LoopInv t dst st 0 h₀) {m : ℕ}
    (hm : m ≤ (extents t.shape).prod) :
    ∃ h₁, (List.range m).foldlM (copyElement dst t) h₀ = some h₁ ∧ LoopInv t dst st m h₁ := by
  induction m with
  | zero => exact ⟨h₀, rfl, hinv⟩
  | succ m ih =>
    obtain ⟨h₁, hloop, hinv₁⟩ := ih (Nat.le_of_succ_le hm)
    obtain ⟨h₂, hstep, hinv₂⟩ := copyElement_spec hv hst hdst hoff hdtype hm hinv₁
    refine ⟨h₂, ?_, hinv₂⟩
    rw [List.range_succ, List.foldlM_append, hloop]
    simpa using hstep

theorem copied_tensorContiguous (hv : t.Valid h) (hpos : 0 < (extents t.shape).prod)
    (hc : isContiguous t = false) : ∃ r, tensorContiguous h t = .ok r ∧ Copied h t t.taken r := by
  obtain ⟨st, hst, -⟩ := hv.room
  obtain ⟨hsrc, hdst⟩ := storages_create hv hst
  have hinv : LoopInv t (tensorCreate h t.shape t.dtype).2 st 0 (tensorCreate h t.shape t.dtype).1 :=
    ⟨hsrc, _, hdst, numel_mul_size hv.bytes_lt, fun a ha => absurd ha (Nat.not_lt_zero a)⟩
  have hne : (tensorCreate h t.shape t.dtype).2.storage ≠ t.storage := hv.known.ne'
  obtain ⟨h₁, hloop, hinv₁⟩ := copyLoop_spec hv hst hne rfl rfl hinv le_rfl
  rw [← hv.size_eq] at hloop
  obtain ⟨sd, hsd, -, hdata⟩ := hinv₁.dst
  refine ⟨(h₁, (tensorCreate h t.shape t.dtype).2), ?_, rfl, rfl,
    layout_tensorCreate h _ hpos hv.prod_lt, sd, st, hsd, hst, hdata⟩
  rw [tensorContiguous, if_neg (by rw [hc]; decide)]
  show (Outcome.ofOption ((List.range t.size.toNat).foldlM
    (copyElement (tensorCreate h t.shape t.dtype).2 t) (tensorCreate h t.shape t.dtype).1)).bind _ = _
  rw [hloop]
  rfl

theorem contiguousLoop_iff {shape strides : List UInt64} {expected : UInt64}
    (hlen : shape.length = strides.length) :
    contiguousLoop shape strides expected = true ↔ strides = stridesLoop shape expected := by
  induction shape generalizing strides expected with
  | nil =>
    obtain rfl := List.length_eq_zero_iff.mp hlen.symm
    exact iff_of_true rfl rfl
  | cons s shape ih =>
    cases strides with
    | nil => cases hlen
    | cons st strides =>
      rw [contiguousLoop, stridesLoop, Bool.and_eq_true, decide_eq_true_iff, ih (Nat.succ.inj hlen),
        List.cons.injEq]

theorem isContiguous_iff (hlen : t.shape.length = t.strides.length) :
    isContiguous t = true ↔ t.strides = rowMajor t.shape := by
  rw [isContiguous, contiguousLoop_iff (by rw [List.length_reverse, List.length_reverse, hlen]),
    rowMajor, List.reverse_eq_iff]

/-- The tensor itself, with two more references to its storage. -/
theorem sameElements_tensorContiguous (hv : t.Valid h) (hc : isContiguous t = true) :
    ∃ r, tensorContiguous h t = .ok r ∧ SameElements h t r := by
  obtain ⟨st, hst, -⟩ := hv.room
  simp only [tensorContiguous, if_pos hc, storageRetain, hst, Option.map_some, Outcome.ofOption,
    Outcome.bind, asStrided, Function.update_self]
  refine ⟨_, rfl, rfl, rfl, fun i _ b _ => ?_⟩
  simp only [byteAt, Function.update_self, hst, Option.map_some]
  rfl

end

/-! ## Rows -/

theorem extents_replicate_one (k : ℕ) : extents (List.replicate k 1) = List.replicate k 1 := by
  rw [extents, List.map_replicate]
  rfl

theorem prod_row (j k : ℕ) (n : UInt64) :
    (extents (List.replicate j 1 ++ n :: List.replicate k 1)).prod = n.toNat := by
  rw [extents, List.map_append, ← extents, extents_replicate_one, List.map_cons, ← extents,
    extents_replicate_one, List.prod_append, List.prod_cons, List.prod_replicate, List.prod_replicate,
    one_pow, one_pow, one_mul, mul_one]

theorem eq_replicate_of_prod {shape : List UInt64} (h : (extents shape).prod = 1) :
    shape = List.replicate shape.length 1 := by
  induction shape with
  | nil => rfl
  | cons s shape ih =>
    rw [extents_cons, List.prod_cons] at h
    have hs : s = 1 := UInt64.toNat_inj.mp (Nat.eq_one_of_mul_eq_one_right h)
    rw [List.length_cons, List.replicate_succ, ← ih (Nat.eq_one_of_mul_eq_one_left h), hs]

theorem rowFrom_iff {shape strides : List UInt64} (hlen : shape.length = strides.length) :
    RowFrom (extents shape) (extents strides) ↔ ∃ after n before,
      shape = List.replicate after.length 1 ++ n :: List.replicate before.length 1 ∧
        strides = after ++ 1 :: before ∧ ∀ st ∈ after, st = 0 ∨ n ≤ st := by
  induction shape generalizing strides with
  | nil =>
    obtain rfl := List.length_eq_zero_iff.mp hlen.symm
    refine iff_of_false id ?_
    rintro ⟨after, n, before, hshape, -⟩
    simp at hshape
  | cons s shape ih =>
    cases strides with
    | nil => cases hlen
    | cons st strides =>
      have hlen' : shape.length = strides.length := Nat.succ.inj hlen
      rw [extents_cons, extents_cons, RowFrom, ih hlen']
      constructor
      · rintro (⟨hs, hst, after, n, before, rfl, rfl, hafter⟩ | ⟨hst, hprod⟩)
        · obtain rfl : s = 1 := UInt64.toNat_inj.mp hs
          refine ⟨st :: after, n, before, rfl, rfl, List.forall_mem_cons.mpr ⟨?_, hafter⟩⟩
          rw [prod_row] at hst
          exact hst.imp UInt64.toNat_inj.mp UInt64.le_iff_toNat_le.mpr
        · obtain rfl : st = 1 := UInt64.toNat_inj.mp hst
          refine ⟨[], s, strides, ?_, rfl, List.forall_mem_nil _⟩
          rw [← hlen', ← eq_replicate_of_prod hprod]
          rfl
      · rintro ⟨after, n, before, hshape, hstrides, hafter⟩
        cases after with
        | nil =>
          obtain ⟨rfl, rfl⟩ := List.cons.inj hshape
          obtain ⟨rfl, rfl⟩ := List.cons.inj hstrides
          refine Or.inr ⟨rfl, ?_⟩
          rw [extents_replicate_one, List.prod_replicate, one_pow]
        | cons st' after =>
          rw [List.length_cons, List.replicate_succ, List.cons_append] at hshape
          rw [List.cons_append] at hstrides
          obtain ⟨rfl, rfl⟩ := List.cons.inj hshape
          obtain ⟨rfl, rfl⟩ := List.cons.inj hstrides
          obtain ⟨hst, hafter⟩ := List.forall_mem_cons.mp hafter
          refine Or.inl ⟨rfl, ?_, after, n, before, rfl, rfl, hafter⟩
          rw [prod_row]
          exact hst.imp UInt64.toNat_inj.mpr UInt64.le_iff_toNat_le.mp

theorem isRow_iff {t : Tensor} (hlen : t.shape.length = t.strides.length) :
    IsRow t ↔ RowFrom (extents t.shape).reverse (extents t.strides).reverse := by
  rw [← extents_reverse, ← extents_reverse,
    rowFrom_iff (by rw [List.length_reverse, List.length_reverse, hlen])]
  constructor
  · rintro ⟨before, n, after, hshape, hstrides, hafter⟩
    refine ⟨after.reverse, n, before.reverse, ?_, ?_, fun st hst => hafter st (List.mem_reverse.mp hst)⟩
    · rw [hshape]
      simp
    · rw [hstrides]
      simp
  · rintro ⟨after, n, before, hshape, hstrides, hafter⟩
    refine ⟨before.reverse, n, after.reverse, ?_, ?_, fun st hst => hafter st (List.mem_reverse.mp hst)⟩
    · rw [← List.reverse_reverse t.shape, hshape]
      simp
    · rw [← List.reverse_reverse t.strides, hstrides]
      simp

/-! ## The result -/

section

variable {h : Heap} {t : Tensor}

theorem packedFrom_iff (hlen : t.shape.length = t.strides.length) :
    PackedFrom (extents t.shape).reverse (extents t.strides).reverse ↔
      ∀ i, Within i (extents t.shape) →
        dot i (packedStrides (extents t.shape)) = dot i (extents t.strides) := by
  have hdot : ∀ i, Within i (extents t.shape) →
      dot i.reverse (stridesFrom (extents t.shape).reverse 1) = dot i (packedStrides (extents t.shape)) ∧
        dot i.reverse (extents t.strides).reverse = dot i (extents t.strides) := by
    intro i hi
    have hi_len := hi.length_eq
    constructor
    · have hlen' : i.length = (packedStrides (extents t.shape)).length := by
        rw [hi_len, length_packedStrides]
      rw [← dot_reverse hlen', packedStrides, List.reverse_reverse]
    · exact dot_reverse (by rw [hi_len, length_extents, length_extents, hlen])
  constructor
  · intro hp i hi
    have := hp i.reverse (within_reverse.mpr hi)
    rwa [(hdot i hi).1, (hdot i hi).2] at this
  · intro hp i hi
    have hi' : Within i.reverse (extents t.shape) := by
      rw [← within_reverse, List.reverse_reverse]
      exact hi
    have := hp i.reverse hi'
    rwa [← (hdot _ hi').1, ← (hdot _ hi').2, List.reverse_reverse] at this

/-- Both copies of a tensor with elements are right just when the elements are where packed ones would
be and `contiguous` finds them there. -/
theorem materialises_iff_offsets (hv : t.Valid h) (hpos : 0 < (extents t.shape).prod) :
    Materialises h t ↔
      (∀ i, Within i (extents t.shape) →
        dot i (packedStrides (extents t.shape)) = dot i (extents t.strides)) ∧
      (isContiguous t = true ∨ ∀ i, Within i (extents t.shape) →
        t.taken (dot i (packedStrides (extents t.shape))) = dot i (extents t.strides)) := by
  constructor
  · intro hm
    refine ⟨fun i hi => ?_, ?_⟩
    · refine Copied.offset_eq (h := h) (f := id) hi fun data => ?_
      obtain ⟨r, hr, hsame⟩ := (hm data).1
      obtain ⟨r', hr', hcopied⟩ := copied_tensorCopy (hv.fill data) hpos
      obtain rfl := Outcome.ok.inj (hr.symm.trans hr')
      exact ⟨r, hcopied, hsame⟩
    · cases hc : isContiguous t with
      | true => exact Or.inl rfl
      | false =>
        refine Or.inr fun i hi => Copied.offset_eq (h := h) hi fun data => ?_
        obtain ⟨r, hr, hsame⟩ := (hm data).2
        obtain ⟨r', hr', hcopied⟩ := copied_tensorContiguous (hv.fill data) hpos hc
        obtain rfl := Outcome.ok.inj (hr.symm.trans hr')
        exact ⟨r, hcopied, hsame⟩
  · rintro ⟨hpacked, htaken⟩ data
    constructor
    · obtain ⟨r, hr, hcopied⟩ := copied_tensorCopy (hv.fill data) hpos
      exact ⟨r, hr, hcopied.sameElements hpacked⟩
    · cases hc : isContiguous t with
      | true => exact sameElements_tensorContiguous (hv.fill data) hc
      | false =>
        obtain ⟨r, hr, hcopied⟩ := copied_tensorContiguous (hv.fill data) hpos hc
        rw [hc] at htaken
        exact ⟨r, hr, hcopied.sameElements (htaken.resolve_left Bool.false_ne_true)⟩

/-- A tensor without elements. -/
theorem materialises_of_empty (hv : t.Valid h) (h0 : (extents t.shape).prod = 0) : Materialises h t := by
  intro data
  obtain ⟨st, hst, -⟩ := (hv.fill data).room
  obtain ⟨hsrc, hdst⟩ := storages_create (hv.fill data) hst
  have hnone : ∀ i, ¬ Within i (extents t.shape) := fun i hi => hi.prod_pos.ne' h0
  constructor
  · have hn : (t.size * t.itemSize).toNat = 0 := by rw [hv.size_bytes, h0, Nat.zero_mul]
    simp only [tensorCopy, copyData, hsrc, hdst, Option.bind_some, hn]
    exact ⟨_, rfl, rfl, rfl, fun i hi => absurd hi (hnone i)⟩
  · cases hc : isContiguous t with
    | true => exact sameElements_tensorContiguous (hv.fill data) hc
    | false =>
      have hn : t.size.toNat = 0 := by rw [hv.size_eq, h0]
      simp only [tensorContiguous, hc, hn]
      exact ⟨_, rfl, rfl, rfl, fun i hi => absurd hi (hnone i)⟩

theorem packed_of_isContiguous (hv : t.Valid h) (hpos : 0 < (extents t.shape).prod)
    (hc : isContiguous t = true) : extents t.strides = packedStrides (extents t.shape) := by
  rw [(isContiguous_iff hv.lengths).mp hc, rowMajor_toNat hpos hv.prod_lt]

/-- Where the elements are packed, `contiguous` finds them if each number gives itself. -/
theorem taken_iff
    (hpacked : ∀ i, Within i (extents t.shape) →
      dot i (packedStrides (extents t.shape)) = dot i (extents t.strides)) :
    (∀ i, Within i (extents t.shape) →
      t.taken (dot i (packedStrides (extents t.shape))) = dot i (extents t.strides)) ↔
      ∀ a < (extents t.shape).prod, t.taken a = a := by
  constructor
  · intro htaken a ha
    have hi := within_unflatten (Nat.zero_lt_of_lt ha) a
    have := htaken _ hi
    rwa [← hpacked _ hi, dot_unflatten ha] at this
  · intro htaken i hi
    rw [← hpacked i hi]
    exact htaken _ (dot_packed_lt hi)

theorem Tensor.Valid.copies_iff (hv : t.Valid h) :
    Materialises h t ↔ t.size.toNat ≤ 1 ∨ isContiguous t = true ∨ IsRow t := by
  rw [hv.size_eq, isRow_iff hv.lengths]
  rcases Nat.eq_zero_or_pos (extents t.shape).prod with h0 | hpos
  · exact iff_of_true (materialises_of_empty hv h0) (Or.inl (by omega))
  rw [materialises_iff_offsets hv hpos]
  have hprod : (extents t.shape).reverse.prod = (extents t.shape).prod := List.prod_reverse _
  constructor
  · rintro ⟨hpacked, htaken⟩
    refine or_iff_not_imp_left.mpr fun hsize => htaken.imp_right fun htaken => ?_
    refine rowFrom_of_offset ?_ (by omega) ((packedFrom_iff hv.lengths).mpr hpacked) ?_
    · rw [List.length_reverse, List.length_reverse, length_extents, length_extents, hv.lengths]
    · rw [hprod]
      exact (taken_iff hpacked).mp htaken
  · rintro (hsize | hc | hrow)
    · have hone : (extents t.shape).prod = 1 := by omega
      refine ⟨fun i hi => ?_, Or.inr fun i hi => ?_⟩
      · rw [dot_eq_zero_of_prod_eq_one hi hone, dot_eq_zero_of_prod_eq_one hi hone]
      · rw [dot_eq_zero_of_prod_eq_one hi hone, dot_eq_zero_of_prod_eq_one hi hone]
        exact offsetFrom_zero _ _
    · refine ⟨fun i _ => ?_, Or.inl hc⟩
      rw [packed_of_isContiguous hv hpos hc]
    · have hpacked := (packedFrom_iff hv.lengths).mp hrow.packed
      refine ⟨hpacked, Or.inr ((taken_iff hpacked).mpr fun a ha => ?_)⟩
      exact hrow.offset (by rwa [hprod])

/-- Copies of the result of a chain of views are right just when the result has at most one element, is
contiguous, or is a row. -/
theorem materialises_iff (h : Heap) (shape : List UInt64) (dtype : Dtype) (ops : List ViewOp)
    (hcreate : (extents shape).prod * dtype.size.toNat < 2 ^ 64)
    (hfit : AllFit (tensorCreate h shape dtype) ops) {r : Heap × Tensor}
    (hchain : chain (tensorCreate h shape dtype) ops = .ok r) :
    Materialises r.1 r.2 ↔ r.2.size.toNat ≤ 1 ∨ isContiguous r.2 = true ∨ IsRow r.2 := by
  have hv := chain_valid ops (tensorCreate_valid h hcreate) hfit
  rw [hchain] at hv
  exact Tensor.Valid.copies_iff hv

end

/-- Two elements of the second row of a matrix. -/
theorem materialises_row :
    ∃ r, chain (tensorCreate ⟨fun _ => none, 0, fun _ _ => 0⟩ [2, 3] .float32)
        [.narrow 1 0 2, .narrow 0 1 1] = .ok r ∧ isContiguous r.2 = false ∧ Materialises r.1 r.2 := by
  have hfit : AllFit (tensorCreate ⟨fun _ => none, 0, fun _ _ => 0⟩ [2, 3] .float32)
      [.narrow 1 0 2, .narrow 0 1 1] := by
    refine allFit_cons ?_ rfl (allFit_cons ?_ rfl trivial)
    · exact fun _ _ => by decide
    · exact fun _ _ => by decide
  refine ⟨_, rfl, by decide, ?_⟩
  refine (materialises_iff _ [2, 3] .float32 [.narrow 1 0 2, .narrow 0 1 1] (by decide) hfit rfl).mpr ?_
  exact Or.inr (Or.inr ⟨[3], 2, [], rfl, rfl, nofun⟩)

/-- A matrix that is transposed. -/
theorem not_materialises_transpose :
    ∃ r, chain (tensorCreate ⟨fun _ => none, 0, fun _ _ => 0⟩ [2, 3] .float32) [.transpose 0 1] = .ok r ∧
      ¬ Materialises r.1 r.2 := by
  have hfit : AllFit (tensorCreate ⟨fun _ => none, 0, fun _ _ => 0⟩ [2, 3] .float32)
      [.transpose 0 1] := allFit_cons (fun _ _ => by decide) rfl trivial
  have hv := chain_valid _ (tensorCreate_valid ⟨fun _ => none, 0, fun _ _ => 0⟩ (by decide)) hfit
  refine ⟨_, rfl, ?_⟩
  rw [Tensor.Valid.copies_iff hv]
  rintro (hsize | hc | hrow)
  · exact absurd hsize (by decide)
  · exact absurd hc (by decide)
  · rw [isRow_iff (by rfl)] at hrow
    rcases hrow with ⟨h, -⟩ | ⟨h, -⟩ <;> exact absurd h (by decide)

end SneppxAlg.TensorEngine
