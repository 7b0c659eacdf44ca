import SneppxAlg.Kernel.TensorConcatCorrect

/-!
# Splitting a tensor and concatenating the slices

The slices are views on the storage of the tensor; only reference counts change. So `concat` gets the memory
of each slice from its first element on, and this is the tensor again only if the slices are rows of it.

Main result: `concat_split_iff`.
-/

namespace SneppxAlg.TensorEngine

open Lib.Strided

/-! ## Reference counts -/

/-- The storages have the same contents. -/
structure SameContents (h h₁ : Heap) : Prop where
  next : h₁.next = h.next
  storages : ∀ s, (h₁.storages s).map (fun st => (st.data, st.numBytes)) =
    (h.storages s).map (fun st => (st.data, st.numBytes))

section Contents

variable {h h₁ h₂ : Heap} {t : Tensor}

theorem SameContents.refl (h : Heap) : SameContents h h := ⟨rfl, fun _ => rfl⟩

theorem SameContents.trans (h₀ : SameContents h h₁) (h₀' : SameContents h₁ h₂) : SameContents h h₂ :=
  ⟨h₀'.next.trans h₀.next, fun s => (h₀'.storages s).trans (h₀.storages s)⟩

theorem SameContents.itemByte (h₀ : SameContents h h₁) (item : ℕ) (p : ℕ × ℕ) (b : ℕ) :
    TensorEngine.itemByte h₁ item p b = TensorEngine.itemByte h item p b := by
  have hp := congrArg (Option.map fun c : (ℕ → UInt8) × UInt64 => c.1 (p.2 * item + b)) (h₀.storages p.1)
  simpa only [TensorEngine.itemByte, Option.map_map, Function.comp_def] using hp

theorem SameContents.valid (h₀ : SameContents h h₁) (hv : t.Valid h) : t.Valid h₁ := by
  obtain ⟨st, hst, hb⟩ := hv.room
  have hs := h₀.storages t.storage
  rw [hst, Option.map_some, Option.map_eq_some_iff] at hs
  obtain ⟨st', hst', heq⟩ := hs
  exact
    { known := h₀.next ▸ hv.known
      lengths := hv.lengths
      size_eq := hv.size_eq
      injective := hv.injective
      room := ⟨st', hst', by rwa [show st'.numBytes = st.numBytes from congrArg Prod.snd heq]⟩ }

theorem SameContents.symm (h₀ : SameContents h h₁) : SameContents h₁ h := ⟨h₀.next.symm, fun s => (h₀.storages s).symm⟩

theorem asStrided_spec (hv : t.Valid h) (v : View) :
    ∃ h₁, asStrided h t v =
      .ok (h₁, { t with offset := v.offset, shape := v.shape, strides := v.strides, size := numel v.shape }) ∧
      SameContents h h₁ := by
  obtain ⟨st, hst, -⟩ := hv.room
  rw [asStrided, storageRetain, hst]
  refine ⟨_, rfl, rfl, fun s => ?_⟩
  by_cases hs : s = t.storage
  · subst hs
    simp [hst]
  · simp [Function.update_of_ne hs]

end Contents

/-! ## Slices -/

section Slices

variable {h : Heap} {t : Tensor} {dim : ℕ} {num : UInt64}

/-- The extent is divided into parts that are not empty, and the arrays of `narrow` have room. -/
structure Splits (t : Tensor) (num : UInt64) (dim : ℕ) : Prop where
  dim_lt : dim < t.shape.length
  num_pos : num ≠ 0
  divides : num.toNat ∣ (t.shape.getD dim 0).toNat

theorem Splits.mul_eq (hs : Splits t num dim) :
    num.toNat * (t.shape.getD dim 0 / num).toNat = (t.shape.getD dim 0).toNat := by
  rw [UInt64.toNat_div, Nat.mul_div_cancel' hs.divides]

theorem tensorSlice_spec (hv : t.Valid h) (hs : Splits t num dim) (hextent : t.shape.getD dim 0 ≠ 0)
    (hdims : t.shape.length ≤ maxDims) {k : ℕ} (hk : k < num.toNat) :
    ∃ h₁, tensorSlice h t dim (UInt64.ofNat k * (t.shape.getD dim 0 / num))
        ((UInt64.ofNat k + 1) * (t.shape.getD dim 0 / num)) = .ok (h₁, sliceAt t dim (t.shape.getD dim 0 / num) k) ∧
      SameContents h h₁ ∧ (sliceAt t dim (t.shape.getD dim 0 / num) k).Valid h := by
  have hmul := hs.mul_eq
  generalize hsplit : t.shape.getD dim 0 / num = split at hmul ⊢
  have hextent' : 0 < (t.shape.getD dim 0).toNat :=
    Nat.pos_of_ne_zero fun h0 => hextent (UInt64.toNat_inj.mp (h0.trans UInt64.toNat_zero.symm))
  have hpos : 0 < split.toNat := Nat.pos_of_ne_zero fun h0 => by
    rw [h0, Nat.mul_zero] at hmul
    omega
  have hle : (k + 1) * split.toNat ≤ (t.shape.getD dim 0).toNat := hmul ▸ Nat.mul_le_mul_right _ hk
  have hlt := (t.shape.getD dim 0).toNat_lt
  have hnum := num.toNat_lt
  have hkk : (UInt64.ofNat k).toNat = k := UInt64.toNat_ofNat_of_lt' (show k < 2 ^ 64 by omega)
  have hsucc : (UInt64.ofNat k + 1).toNat = k + 1 := by
    rw [UInt64.toNat_add, hkk, UInt64.toNat_one, Nat.mod_eq_of_lt (by omega)]
  rw [Nat.succ_mul] at hle
  have hstart : (UInt64.ofNat k * split).toNat = k * split.toNat := by
    rw [UInt64.toNat_mul, hkk, Nat.mod_eq_of_lt (by omega)]
  have hfinish : ((UInt64.ofNat k + 1) * split).toNat = k * split.toNat + split.toNat := by
    rw [UInt64.toNat_mul, hsucc, Nat.succ_mul, Nat.mod_eq_of_lt (by omega)]
  have hsize : (UInt64.ofNat k + 1) * split - UInt64.ofNat k * split = split := by
    rw [← UInt64.toNat_inj, UInt64.toNat_sub_of_le _ _ (UInt64.le_iff_toNat_le.mpr
      (by rw [hstart, hfinish]; omega)), hstart, hfinish]
    omega
  have hend : UInt64.ofNat k * split + split = (UInt64.ofNat k + 1) * split := by
    rw [UInt64.add_mul, UInt64.one_mul]
  have hlt' : UInt64.ofNat k * split < (UInt64.ofNat k + 1) * split := by
    rw [UInt64.lt_iff_toNat_lt, hstart, hfinish]
    omega
  have hle' : (UInt64.ofNat k + 1) * split ≤ t.shape.getD dim 0 := by
    rw [UInt64.le_iff_toNat_le, hfinish]
    exact hle
  obtain ⟨h₁, hrun, hsame⟩ := asStrided_spec hv
    { offset := t.offset + UInt64.ofNat k * split * t.strides.getD dim 0, shape := t.shape.set dim split
      strides := t.strides }
  have hslice : tensorSlice h t dim (UInt64.ofNat k * split) ((UInt64.ofNat k + 1) * split) =
      .ok (h₁, sliceAt t dim split k) := by
    rw [tensorSlice, sliceView, if_neg (not_le.mpr hs.dim_lt), if_neg (UInt64.not_le.mpr hlt'),
      if_neg (UInt64.not_lt.mpr hle'), narrowView, if_neg (not_le.mpr hs.dim_lt), hsize, hend,
      if_neg (UInt64.not_lt.mpr hle'), if_neg (not_lt.mpr hdims)]
    exact hrun
  refine ⟨h₁, hslice, hsame, ?_⟩
  have hvalid := @apply_valid _ _ hv (.slice dim (UInt64.ofNat k * split) ((UInt64.ofNat k + 1) * split))
    fun _ _ _ => hdims
  rw [ViewOp.apply, hslice] at hvalid
  exact hsame.symm.valid hvalid

/-- The slices are taken one after another. -/
theorem splitLoop_spec (hv : t.Valid h) (hs : Splits t num dim) (hextent : t.shape.getD dim 0 ≠ 0)
    (hdims : t.shape.length ≤ maxDims) {n : ℕ} (hn : n ≤ num.toNat) :
    ∃ h₁, splitLoop t dim (t.shape.getD dim 0 / num) h n =
        .ok (h₁, (List.range n).map (sliceAt t dim (t.shape.getD dim 0 / num))) ∧ SameContents h h₁ := by
  induction n with
  | zero => exact ⟨h, rfl, SameContents.refl h⟩
  | succ n ih =>
    obtain ⟨h₁, hrun, hsame⟩ := ih (by omega)
    obtain ⟨h₂, hslice, hsame', -⟩ := tensorSlice_spec (hsame.valid hv) hs hextent hdims hn
    refine ⟨h₂, ?_, hsame.trans hsame'⟩
    rw [splitLoop, hrun]
    simp only [Outcome.bind, hslice]
    rw [List.range_succ, List.map_append, List.map_singleton]

theorem Splits.shape_eq (hs : Splits t num dim) :
    t.shape = t.shape.take dim ++ t.shape.getD dim 0 :: t.shape.drop (dim + 1) := by
  rw [List.getD_eq_getElem _ _ hs.dim_lt, List.cons_getElem_drop_succ, List.take_append_drop]

theorem Splits.set_eq (hs : Splits t num dim) (e : UInt64) :
    t.shape.set dim e = t.shape.take dim ++ e :: t.shape.drop (dim + 1) := by
  rw [List.set_eq_take_append_cons_drop, if_pos hs.dim_lt]

theorem Splits.concatenable (hs : Splits t num dim) :
    Concatenable (slices t num dim) dim (t.shape.take dim) (t.shape.drop (dim + 1)) t.dtype where
  ne_nil := by
    rw [slices, ne_eq, List.map_eq_nil_iff, List.range_eq_nil]
    exact fun h0 => hs.num_pos (UInt64.toNat_inj.mp (h0.trans UInt64.toNat_zero.symm))
  length := List.length_take_of_le hs.dim_lt.le
  dtype := by
    intro u hu
    obtain ⟨k, -, rfl⟩ := List.mem_map.mp hu
    rfl
  shape := by
    intro u hu
    obtain ⟨k, -, rfl⟩ := List.mem_map.mp hu
    have hset := hs.set_eq (t.shape.getD dim 0 / num)
    have hget : (t.shape.set dim (t.shape.getD dim 0 / num)).getD dim 0 = t.shape.getD dim 0 / num := by
      rw [List.getD_eq_getElem _ _ (by rw [List.length_set]; exact hs.dim_lt), List.getElem_set_self]
    change t.shape.set dim _ = _ ++ (t.shape.set dim _).getD dim 0 :: _
    rw [hget, hset]

theorem Splits.extentSum_eq (hs : Splits t num dim) :
    extentSum (slices t num dim) dim = (t.shape.getD dim 0).toNat := by
  have hget : ∀ k, (sliceAt t dim (t.shape.getD dim 0 / num) k).shape.getD dim 0 = t.shape.getD dim 0 / num := by
    intro k
    change (t.shape.set dim _).getD dim 0 = _
    rw [List.getD_eq_getElem _ _ (by rw [List.length_set]; exact hs.dim_lt), List.getElem_set_self]
  rw [extentSum, slices, List.map_map]
  simp only [Function.comp_def, hget, List.map_const', List.sum_replicate, List.length_range, smul_eq_mul]
  exact hs.mul_eq

theorem Splits.concatShape_eq (hs : Splits t num dim) :
    concatShape (slices t num dim) dim (t.shape.take dim) (t.shape.drop (dim + 1)) = extents t.shape := by
  conv_rhs => rw [hs.shape_eq]
  rw [concatShape, hs.extentSum_eq, extents, extents, extents, List.map_append, List.map_cons]

theorem extents_injective {s s' : List UInt64} (h : extents s = extents s') : s = s' :=
  List.map_injective_iff.mpr (fun _ _ => UInt64.toNat_inj.mp) h

/-- What a slice that is taken says. -/
theorem of_tensorSlice {start finish : UInt64} {r : Heap × Tensor} (hr : tensorSlice h t dim start finish = .ok r) :
    start < finish ∧ t.shape.length ≤ maxDims := by
  rw [tensorSlice, sliceView, narrowView] at hr
  split_ifs at hr with h1 h2 h3 h4 h5
  all_goals first
    | exact ⟨UInt64.not_le.mp h2, not_lt.mp h5⟩
    | cases hr

theorem of_splitLoop {n : ℕ} {r : Heap × List Tensor}
    (hr : splitLoop t dim (t.shape.getD dim 0 / num) h (n + 1) = .ok r) :
    t.shape.getD dim 0 ≠ 0 ∧ t.shape.length ≤ maxDims := by
  induction n generalizing r with
  | zero =>
    rw [splitLoop, splitLoop] at hr
    cases hslice : tensorSlice h t dim (UInt64.ofNat 0 * (t.shape.getD dim 0 / num))
        ((UInt64.ofNat 0 + 1) * (t.shape.getD dim 0 / num)) with
    | ok s =>
      obtain ⟨hlt, hdims⟩ := of_tensorSlice hslice
      refine ⟨fun h0 => ?_, hdims⟩
      rw [h0, UInt64.zero_div, UInt64.mul_zero, UInt64.mul_zero] at hlt
      exact absurd hlt (by decide)
    | fault =>
      simp only [Outcome.bind, hslice] at hr
      cases hr
    | null =>
      simp only [Outcome.bind, hslice] at hr
      cases hr
  | succ n ih =>
    rw [splitLoop] at hr
    cases hrun : splitLoop t dim (t.shape.getD dim 0 / num) h (n + 1) with
    | ok s => exact ih hrun
    | fault =>
      rw [hrun] at hr
      cases hr
    | null =>
      rw [hrun] at hr
      cases hr

theorem Splits.tensorSplit_eq (hs : Splits t num dim) (h : Heap) :
    tensorSplit h t num dim = splitLoop t dim (t.shape.getD dim 0 / num) h num.toNat := by
  have hmod : t.shape.getD dim 0 % num = 0 := by
    rw [← UInt64.toNat_inj, UInt64.toNat_mod, UInt64.toNat_zero, Nat.mod_eq_zero_of_dvd hs.divides]
  have hdim := hs.dim_lt
  rw [tensorSplit, if_neg]
  rintro (h0 | hge | hne)
  · exact hs.num_pos h0
  · omega
  · exact hne hmod

/-- The result of concatenating the slices, if they can be taken. -/
theorem Splits.concat_spec (hs : Splits t num dim) (hv : t.Valid h) (hextent : t.shape.getD dim 0 ≠ 0)
    (hdims : t.shape.length ≤ maxDims) :
    ∃ s r sd, tensorSplit h t num dim = .ok s ∧ tensorConcat s.1 s.2 dim = .ok r ∧ r.2.shape = t.shape ∧
      r.2.dtype = t.dtype ∧
      (0 < (extents t.shape).prod → r.2.layout = ⟨0, extents t.shape, packedStrides (extents t.shape)⟩) ∧
      r.1.storages r.2.storage = some sd ∧
      ∀ k p, (sources (slices t num dim))[k]? = some p → ∀ b < t.itemSize.toNat,
        some (sd.data (k * t.itemSize.toNat + b)) = itemByte h t.itemSize.toNat p b := by
  obtain ⟨h₁, hrun, hsame⟩ := splitLoop_spec hv hs hextent hdims le_rfl
  have hvalid : ∀ u ∈ slices t num dim, u.Valid h₁ := by
    intro u hu
    obtain ⟨k, hk, rfl⟩ := List.mem_map.mp hu
    obtain ⟨-, -, -, hslice⟩ := tensorSlice_spec hv hs hextent hdims (List.mem_range.mp hk)
    exact hsame.valid hslice
  have hfits : CountsResult (slices t num dim) dim (t.shape.take dim) (t.shape.drop (dim + 1)) t.dtype :=
    ⟨hs.extentSum_eq ▸ (t.shape.getD dim 0).toNat_lt, hs.concatShape_eq ▸ hv.bytes_lt⟩
  obtain ⟨first, rest, hcons⟩ := List.exists_cons_of_ne_nil hs.concatenable.ne_nil
  have hfirst : first.shape.getD dim 0 ≠ 0 := by
    have hmem : first ∈ slices t num dim := hcons ▸ List.mem_cons_self
    obtain ⟨k, hk, rfl⟩ := List.mem_map.mp hmem
    change (t.shape.set dim _).getD dim 0 ≠ 0
    rw [List.getD_eq_getElem _ _ (by rw [List.length_set]; exact hs.dim_lt), List.getElem_set_self]
    intro h0
    have hmul := hs.mul_eq
    rw [h0, UInt64.toNat_zero, Nat.mul_zero] at hmul
    exact hextent (UInt64.toNat_inj.mp hmul.symm)
  obtain ⟨r, sd, hr, hshape, hdtype, hlayout, hsd, hdata⟩ :=
    hs.concatenable.concat_spec hvalid hfits hcons hfirst
  rw [hs.concatShape_eq] at hshape hlayout
  refine ⟨_, r, sd, (hs.tensorSplit_eq h).trans hrun, hr, extents_injective hshape, hdtype, hlayout, hsd, ?_⟩
  intro k p hp b hb
  exact (hdata k p hp b hb).trans (hsame.itemByte _ _ _)

/-- The slices are the tensor again if and only if they can be taken and are in order. -/
theorem rejoins_iff (hv : t.Valid h) (hs : Splits t num dim) :
    Rejoins h t num dim ↔ t.shape.getD dim 0 ≠ 0 ∧ t.shape.length ≤ maxDims ∧ SlicesInOrder t num dim := by
  constructor
  · intro h₀
    obtain ⟨n, hn⟩ : ∃ n, num.toNat = n + 1 := by
      refine Nat.exists_eq_succ_of_ne_zero fun h0 => hs.num_pos ?_
      exact UInt64.toNat_inj.mp (h0.trans UInt64.toNat_zero.symm)
    obtain ⟨s, r, hsplit, -⟩ := h₀ fun _ _ => 0
    rw [hs.tensorSplit_eq, hn] at hsplit
    obtain ⟨hextent, hdims⟩ := of_splitLoop hsplit
    refine ⟨hextent, hdims, fun i hi => ?_⟩
    -- with a mark on the element, the result shows where it is
    obtain ⟨s, r, hsplit, hconcat, hsame⟩ := h₀ (marked t.itemSize.toNat (t.storage, t.layout.address i))
    obtain ⟨s', r', sd, hsplit', hconcat', -, hdtype, hlayout, hsd, hdata⟩ := hs.concat_spec
      (hv.refill (marked t.itemSize.toNat (t.storage, t.layout.address i))) hextent hdims
    obtain rfl := Outcome.ok.inj (hsplit'.symm.trans hsplit)
    obtain rfl := Outcome.ok.inj (hconcat'.symm.trans hconcat)
    have hbyte := hsame.bytes i hi 0 (itemSize_pos t)
    have hk : dot i (packedStrides (extents t.shape)) < (sources (slices t num dim)).length := by
      rw [hs.concatenable.length_sources, hs.concatShape_eq]
      exact dot_packed_lt hi
    rw [byteAt_marked hv, byteAt, hsd, Option.map_some, hlayout hi.prod_pos, Layout.address, Nat.zero_add,
      show r'.2.itemSize = t.itemSize from congrArg Dtype.size hdtype, hdata _ _ (List.getElem?_eq_getElem hk) 0
        (itemSize_pos t)] at hbyte
    rw [List.getElem?_eq_getElem hk]
    exact congrArg some (itemByte_marked (itemSize_pos t) hbyte)
  · rintro ⟨hextent, hdims, horder⟩ data
    obtain ⟨s, r, sd, hsplit, hconcat, hshape, hdtype, hlayout, hsd, hdata⟩ :=
      hs.concat_spec (hv.refill data) hextent hdims
    refine ⟨s, r, hsplit, hconcat, hshape, hdtype, fun i hi b hb => ?_⟩
    rw [byteAt_eq_itemByte _ t, ← hdata _ _ (horder i hi) b hb, byteAt, hsd, Option.map_some, hlayout hi.prod_pos,
      Layout.address, Nat.zero_add, show r.2.itemSize = t.itemSize from congrArg Dtype.size hdtype]

/-! ## Packed tensors -/

theorem getD_packedStrides (pre : List ℕ) (e : ℕ) (post : List ℕ) :
    (packedStrides (pre ++ e :: post)).getD pre.length 0 = post.prod := by
  have hdrop := packedStrides_drop (pre ++ e :: post) pre.length
  rw [List.drop_left, packedStrides_cons] at hdrop
  rw [List.getD_eq_getElem?_getD, ← List.head?_drop, hdrop, List.head?_cons, Option.getD_some]

/-- The first element of a slice of a packed tensor. -/
theorem toNat_sliceAt_offset (hv : t.Valid h) (hs : Splits t num dim) (hpos : 0 < (extents t.shape).prod)
    (hc : isContiguous t = true) {k : ℕ} (hk : k < num.toNat) :
    (sliceAt t dim (t.shape.getD dim 0 / num) k).offset.toNat =
      t.offset.toNat + k * (t.shape.getD dim 0 / num).toNat * (extents (t.shape.drop (dim + 1))).prod := by
  obtain ⟨st, hst, -⟩ := hv.room
  have hrow := hv.row_le hst hpos
  have hbound : t.offset.toNat + (extents t.shape).prod < 2 ^ 64 :=
    lt_of_le_of_lt (Nat.le_mul_of_pos_right _ (itemSize_pos t)) (lt_of_le_of_lt hrow st.numBytes.toNat_lt)
  have hshape : extents t.shape =
      extents (t.shape.take dim) ++ (t.shape.getD dim 0).toNat :: extents (t.shape.drop (dim + 1)) := by
    conv_lhs => rw [hs.shape_eq]
    rw [extents, List.map_append, List.map_cons]
    rfl
  have hlen : (extents (t.shape.take dim)).length = dim := by
    rw [length_extents, List.length_take_of_le hs.dim_lt.le]
  have hstride : (t.strides.getD dim 0).toNat = (extents (t.shape.drop (dim + 1))).prod := by
    have hget := getD_packedStrides (extents (t.shape.take dim)) (t.shape.getD dim 0).toNat
      (extents (t.shape.drop (dim + 1)))
    rw [hlen, ← hshape] at hget
    rw [← getD_extents, packed_of_isContiguous hv hpos hc, hget]
  have hprod : (extents t.shape).prod = (extents (t.shape.take dim)).prod *
      ((t.shape.getD dim 0).toNat * (extents (t.shape.drop (dim + 1))).prod) := by
    conv_lhs => rw [hshape]
    rw [List.prod_append, List.prod_cons]
  rw [hprod] at hpos hbound
  have hfront : 0 < (extents (t.shape.take dim)).prod := Nat.pos_of_mul_pos_right hpos
  have hle := Nat.le_mul_of_pos_left ((t.shape.getD dim 0).toNat * (extents (t.shape.drop (dim + 1))).prod) hfront
  have hafter : 0 < (extents (t.shape.drop (dim + 1))).prod := Nat.pos_of_mul_pos_left (Nat.pos_of_mul_pos_left hpos)
  have hpart : k * (t.shape.getD dim 0 / num).toNat ≤ (t.shape.getD dim 0).toNat :=
    (Nat.mul_le_mul_right _ hk.le).trans_eq hs.mul_eq
  have hpart' := Nat.mul_le_mul_right (extents (t.shape.drop (dim + 1))).prod hpart
  have hlt := (t.shape.getD dim 0).toNat_lt
  have hkk : (UInt64.ofNat k).toNat = k := UInt64.toNat_ofNat_of_lt' (hk.trans num.toNat_lt)
  change (t.offset + UInt64.ofNat k * (t.shape.getD dim 0 / num) * t.strides.getD dim 0).toNat = _
  rw [UInt64.toNat_add, UInt64.toNat_mul, UInt64.toNat_mul, hkk, hstride,
    Nat.mod_eq_of_lt (lt_of_le_of_lt hpart hlt), Nat.mod_eq_of_lt (lt_of_le_of_lt hpart' (by omega)),
    Nat.mod_eq_of_lt (by omega)]

/-- Slices of a packed tensor are in order if they are rows of it. -/
theorem slicesInOrder_iff_of_packed (hv : t.Valid h) (hs : Splits t num dim) (hc : isContiguous t = true) :
    SlicesInOrder t num dim ↔
      (extents t.shape).prod = 0 ∨ (extents (t.shape.take dim)).prod = 1 ∨ num = 1 := by
  rcases Nat.eq_zero_or_pos (extents t.shape).prod with h0 | hpos
  · exact iff_of_true (fun i hi => absurd h0 hi.prod_pos.ne') (Or.inl h0)
  rw [or_iff_right hpos.ne']
  have hsplit := hs.mul_eq
  generalize hB : (extents (t.shape.take dim)).prod = B
  generalize hA : (extents (t.shape.drop (dim + 1))).prod = A
  generalize hS : (t.shape.getD dim 0 / num).toNat = S at hsplit
  have hprod : (extents t.shape).prod = num.toNat * (S * (B * A)) := by
    rw [← hs.concatShape_eq, concatShape, prod_around, hs.extentSum_eq, ← hsplit, hA, hB, Nat.mul_assoc]
  -- the number of an element, in its slice
  have hfound : ∀ k < num.toNat, ∀ q < S * (B * A),
      (sources (slices t num dim))[k * (S * (B * A)) + q]? =
        some (t.storage, t.offset.toNat + k * S * A + q) := by
    intro k hk q hq
    have hslice : ∀ j, (extents (sliceAt t dim (t.shape.getD dim 0 / num) j).shape).prod = S * (B * A) := by
      intro j
      change (extents (t.shape.set dim _)).prod = _
      rw [hs.set_eq, extents, List.map_append, List.map_cons, prod_around, hS, ← extents, ← extents, hA, hB]
    have hrange : slices t num dim = (List.range k).map (sliceAt t dim (t.shape.getD dim 0 / num)) ++
        sliceAt t dim (t.shape.getD dim 0 / num) k ::
          (List.range' (k + 1) (num.toNat - (k + 1))).map (sliceAt t dim (t.shape.getD dim 0 / num)) := by
      have hlist : List.range num.toNat = List.range k ++ k :: List.range' (k + 1) (num.toNat - (k + 1)) := by
        have happ := @List.range'_append_1 0 k (num.toNat - k)
        rw [Nat.zero_add, Nat.add_sub_cancel' hk.le] at happ
        rw [← List.range'_succ, List.range_eq_range', List.range_eq_range', ← happ]
        congr 2
        omega
      rw [slices, hlist, List.map_append, List.map_cons]
    have hlength : (sources ((List.range k).map (sliceAt t dim (t.shape.getD dim 0 / num)))).length =
        k * (S * (B * A)) := by
      rw [length_sources, List.map_map]
      simp only [Function.comp_def, hslice, List.map_const', List.sum_replicate, List.length_range, smul_eq_mul]
    rw [hrange, ← hlength, getElem?_sources (by rwa [hslice]), toNat_sliceAt_offset hv hs hpos hc hk, hS, hA]
    rfl
  have hsize : 0 < S * (B * A) := by
    rw [hprod] at hpos
    exact Nat.pos_of_mul_pos_left hpos
  have haddress : ∀ i, Within i (extents t.shape) →
      t.layout.address i = t.offset.toNat + dot i (packedStrides (extents t.shape)) := by
    intro i hi
    rw [← packed_of_isContiguous hv hi.prod_pos hc]
    rfl
  constructor
  · intro h₀
    by_cases hone : num.toNat = 1
    · exact Or.inr (UInt64.toNat_inj.mp (hone.trans UInt64.toNat_one.symm))
    · have hnum : num.toNat ≠ 0 := fun h0 => hs.num_pos (UInt64.toNat_inj.mp (h0.trans UInt64.toNat_zero.symm))
      have hlt : S * (B * A) < (extents t.shape).prod := by
        rw [hprod]
        exact (Nat.lt_mul_iff_one_lt_left hsize).mpr (by omega)
      have hsecond := h₀ _ (within_unflatten hpos (S * (B * A)))
      rw [haddress _ (within_unflatten hpos _), dot_unflatten hlt] at hsecond
      have hfirst := hfound 1 (by omega) 0 hsize
      rw [Nat.one_mul, Nat.add_zero, Nat.one_mul, Nat.add_zero] at hfirst
      rw [hfirst, Option.some.injEq, Prod.mk.injEq] at hsecond
      have hcancel : S * A * 1 = S * A * B := by
        have heq := Nat.add_left_cancel hsecond.2
        linarith
      refine Or.inl (Nat.eq_of_mul_eq_mul_left ?_ hcancel).symm
      refine Nat.pos_of_ne_zero fun h0 => hsize.ne' ?_
      rw [Nat.mul_left_comm, h0, Nat.mul_zero]
  · intro h₀ i hi
    have hP := dot_packed_lt hi
    rw [haddress i hi]
    generalize dot i (packedStrides (extents t.shape)) = P at hP
    rw [hprod] at hP
    have hk : P / (S * (B * A)) < num.toNat := Nat.div_lt_of_lt_mul (by rwa [Nat.mul_comm])
    have hsum := Nat.div_add_mod' P (S * (B * A))
    have hplace := hfound _ hk _ (Nat.mod_lt P hsize)
    rw [hsum] at hplace
    rw [hplace]
    refine congrArg some (congrArg (Prod.mk t.storage) ?_)
    rcases h₀ with hB1 | hnum1
    · rw [hB1, Nat.one_mul] at hsum ⊢
      rw [Nat.add_assoc, Nat.mul_assoc, hsum]
    · rw [hnum1, UInt64.toNat_one, Nat.lt_one_iff] at hk
      rw [hk, Nat.zero_mul, Nat.zero_add] at hsum
      rw [hk, hsum, Nat.zero_mul, Nat.zero_mul, Nat.add_zero]

end Slices

/-- Tensors are concatenated if and only if the first one has elements along `dim` and all are in order, and slices of a
tensor are the tensor again if and only if they can be taken and are in order. For packed tensors the elements are
in order if the extents before `dim` are 1, or if there is only one piece to be copied. -/
theorem concat_split_iff (h : Heap) :
    (∀ (ts : List Tensor) (dim : ℕ) (before after : List UInt64) (dtype : Dtype) (first : Tensor) (rest : List Tensor),
      Concatenable ts dim before after dtype → (∀ t ∈ ts, t.Valid h) → CountsResult ts dim before after dtype →
        ts = first :: rest →
          (Concatenates h ts dim ↔ first.shape.getD dim 0 ≠ 0 ∧ InOrder ts dim before after) ∧
          (PackedApart ts → (Concatenates h ts dim ↔ first.shape.getD dim 0 ≠ 0 ∧ ((extents before).prod = 1 ∨
            ∀ t ∈ ts, 0 < (extents t.shape).prod → (t.shape.getD dim 0).toNat = extentSum ts dim)))) ∧
    (∀ (t : Tensor) (num : UInt64) (dim : ℕ), t.Valid h → Splits t num dim →
      (Rejoins h t num dim ↔ t.shape.getD dim 0 ≠ 0 ∧ t.shape.length ≤ maxDims ∧ SlicesInOrder t num dim) ∧
      (isContiguous t = true → (Rejoins h t num dim ↔ t.shape.getD dim 0 ≠ 0 ∧ t.shape.length ≤ maxDims ∧
        ((extents t.shape).prod = 0 ∨ (extents (t.shape.take dim)).prod = 1 ∨ num = 1)))) := by
  constructor
  · intro ts dim before after dtype first rest hc hvalid hfits hts
    refine ⟨hc.concatenates_iff hvalid hfits hts, fun hpacked => ?_⟩
    rw [hc.concatenates_iff hvalid hfits hts, hc.inOrder_iff_of_packed hvalid hpacked]
  · intro t num dim hv hs
    refine ⟨rejoins_iff hv hs, fun hc => ?_⟩
    rw [rejoins_iff hv hs, slicesInOrder_iff_of_packed hv hs hc]

/-- A heap without storages. -/
def Heap.empty : Heap := ⟨fun _ => none, 0, fun _ _ => 0⟩

theorem tensorCreate_valid_after {h : Heap} {t : Tensor} (hv : t.Valid h) (shape : List UInt64) (dtype : Dtype) :
    t.Valid (tensorCreate h shape dtype).1 :=
  hv.of_storages (Nat.le_succ _) (Function.update_of_ne hv.known.ne _ _)

/-- Two rows one below the other, and a matrix taken apart into its rows. -/
theorem concat_split_iff_rows :
    Concatenates (tensorCreate (tensorCreate Heap.empty [1, 2] .float32).1 [1, 2] .float32).1
        [(tensorCreate Heap.empty [1, 2] .float32).2,
          (tensorCreate (tensorCreate Heap.empty [1, 2] .float32).1 [1, 2] .float32).2] 0 ∧
      Rejoins (tensorCreate Heap.empty [2, 3] .float32).1 (tensorCreate Heap.empty [2, 3] .float32).2 2 0 := by
  have hfirst : (tensorCreate Heap.empty [1, 2] .float32).2.Valid (tensorCreate Heap.empty [1, 2] .float32).1 :=
    tensorCreate_valid _ (by decide)
  have hmatrix : (tensorCreate Heap.empty [2, 3] .float32).2.Valid (tensorCreate Heap.empty [2, 3] .float32).1 :=
    tensorCreate_valid _ (by decide)
  constructor
  · refine (((concat_split_iff _).1 _ 0 [] [2] .float32 _ _ ⟨by decide, rfl, by decide, by decide⟩ ?_ ⟨by decide, by decide⟩
      rfl).2 ⟨by decide, by decide⟩).mpr ⟨by decide, Or.inl rfl⟩
    intro t ht
    rcases List.mem_pair.mp ht with rfl | rfl
    · exact tensorCreate_valid_after hfirst _ _
    · exact tensorCreate_valid _ (by decide)
  · exact (((concat_split_iff _).2 _ 2 0 hmatrix ⟨by decide, by decide, by decide⟩).2 (by decide)).mpr
      ⟨by decide, by decide, Or.inr (Or.inl rfl)⟩

/-- Two columns next to each other, and a matrix taken apart into its columns. -/
theorem not_concatenates_columns :
    ¬Concatenates (tensorCreate (tensorCreate Heap.empty [2, 1] .float32).1 [2, 1] .float32).1
        [(tensorCreate Heap.empty [2, 1] .float32).2,
          (tensorCreate (tensorCreate Heap.empty [2, 1] .float32).1 [2, 1] .float32).2] 1 ∧
      ¬Rejoins (tensorCreate Heap.empty [2, 2] .float32).1 (tensorCreate Heap.empty [2, 2] .float32).2 2 1 := by
  have hfirst : (tensorCreate Heap.empty [2, 1] .float32).2.Valid (tensorCreate Heap.empty [2, 1] .float32).1 :=
    tensorCreate_valid _ (by decide)
  have hmatrix : (tensorCreate Heap.empty [2, 2] .float32).2.Valid (tensorCreate Heap.empty [2, 2] .float32).1 :=
    tensorCreate_valid _ (by decide)
  constructor
  · have hvalid : ∀ t ∈ [(tensorCreate Heap.empty [2, 1] .float32).2,
        (tensorCreate (tensorCreate Heap.empty [2, 1] .float32).1 [2, 1] .float32).2],
        t.Valid (tensorCreate (tensorCreate Heap.empty [2, 1] .float32).1 [2, 1] .float32).1 := by
      intro t ht
      rcases List.mem_pair.mp ht with rfl | rfl
      · exact tensorCreate_valid_after hfirst _ _
      · exact tensorCreate_valid _ (by decide)
    have hc : Concatenable [(tensorCreate Heap.empty [2, 1] .float32).2,
        (tensorCreate (tensorCreate Heap.empty [2, 1] .float32).1 [2, 1] .float32).2] 1 [2] [] .float32 :=
      ⟨by decide, rfl, by decide, by decide⟩
    rw [hc.concatenates_iff hvalid ⟨by decide, by decide⟩ rfl, hc.inOrder_iff_of_packed hvalid ⟨by decide, by decide⟩]
    exact fun h => absurd h.2 (by decide)
  · have hs : Splits (tensorCreate Heap.empty [2, 2] .float32).2 2 1 := ⟨by decide, by decide, by decide⟩
    rw [rejoins_iff hmatrix hs, slicesInOrder_iff_of_packed hmatrix hs (by decide)]
    exact fun h => absurd h.2.2 (by decide)

end SneppxAlg.TensorEngine
