import SneppxAlg.Kernel.TensorConcat

/-!
# What `concat` and `split` compute

The loop of `concat` leaves the elements `sources` in the result, one after another (`concatLoop_spec`). Where no two
elements are the same in all storages, the result is right if and only if these are in order.
-/

namespace SneppxAlg.TensorEngine

open Lib.Strided

/-! ## The memory of the result -/

section Memory

variable {h : Heap} {t result : Tensor} {ts : List Tensor} {dim : ℕ} {dtype : Dtype} {offset slice : UInt64}

/-- Byte `b` of an element, given by its storage and address. -/
def itemByte (h : Heap) (item : ℕ) (p : ℕ × ℕ) (b : ℕ) : Option UInt8 :=
  (h.storages p.1).map fun st => st.data (p.2 * item + b)

theorem byteAt_eq_itemByte (h : Heap) (t : Tensor) (i : List ℕ) (b : ℕ) :
    byteAt h t i b = itemByte h t.itemSize.toNat (t.storage, t.layout.address i) b := rfl

theorem Tensor.Valid.of_storages (hv : t.Valid h) {h₁ : Heap} (hnext : h.next ≤ h₁.next)
    (hst : h₁.storages t.storage = h.storages t.storage) : t.Valid h₁ where
  known := hv.known.trans_le hnext
  lengths := hv.lengths
  size_eq := hv.size_eq
  injective := hv.injective
  room := hst ▸ hv.room

theorem digit_lt {a b n item : ℕ} (ha : a < n) (hb : b < item) : a * item + b < n * item := by
  calc a * item + b < (a + 1) * item := by rw [Nat.succ_mul]; omega
    _ ≤ n * item := Nat.mul_le_mul_right _ ha

/-- One `memcpy`: the elements of `t` are in the result, from `offset` on. -/
theorem copyRow_spec (hv : t.Valid h) (hdtype : result.dtype = t.dtype) {sd : Storage} (hsd : h.storages result.storage = some sd) {total : ℕ}
    (htotal : sd.numBytes.toNat = total * t.itemSize.toNat)
    (hfit : offset.toNat + (extents t.shape).prod ≤ total) :
    ∃ h₁ sd₁, copyData h { result with offset := offset } t ((extents t.shape).prod * t.itemSize.toNat) = some h₁ ∧
      h₁.next = h.next ∧ (∀ s ≠ result.storage, h₁.storages s = h.storages s) ∧
      h₁.storages result.storage = some sd₁ ∧ sd₁.numBytes = sd.numBytes ∧
      (∀ q < (extents t.shape).prod, ∀ b < t.itemSize.toNat,
        some (sd₁.data ((offset.toNat + q) * t.itemSize.toNat + b)) =
          itemByte h t.itemSize.toNat (t.storage, t.offset.toNat + q) b) ∧
      ∀ x < offset.toNat * t.itemSize.toNat, sd₁.data x = sd.data x := by
  obtain ⟨st, hst, -⟩ := hv.room
  have hitem : ({ result with offset := offset } : Tensor).itemSize = t.itemSize := congrArg Dtype.size hdtype
  have hmul : (offset.toNat + (extents t.shape).prod) * t.itemSize.toNat ≤ sd.numBytes.toNat :=
    htotal ▸ Nat.mul_le_mul_right _ hfit
  have hdst : (offset * t.itemSize).toNat = offset.toNat * t.itemSize.toNat := by
    have hlt := sd.numBytes.toNat_lt
    rw [Nat.add_mul] at hmul
    rw [UInt64.toNat_mul, Nat.mod_eq_of_lt (by omega)]
  simp only [copyData, hsd, hst, Option.bind_some, hitem, hdst]
  rcases Nat.eq_zero_or_pos (extents t.shape).prod with h0 | hpos
  · rw [h0, Nat.zero_mul, if_pos (Or.inl rfl)]
    refine ⟨_, _, rfl, rfl, fun s hs => Function.update_of_ne hs _ _, Function.update_self _ _ _, rfl,
      fun q hq => absurd hq (Nat.not_lt_zero q), fun x hx => if_neg (by omega)⟩
  · have hsrc : (t.offset * t.itemSize).toNat = t.offset.toNat * t.itemSize.toNat := by
      have := hv.offset_bytes (show (0 : UInt64).toNat < _ from hpos)
      simpa using this
    have hrow := hv.row_le hst hpos
    rw [Nat.add_mul] at hmul hrow
    rw [hsrc, if_pos (Or.inr ⟨hmul, hrow⟩)]
    refine ⟨_, _, rfl, rfl, fun s hs => Function.update_of_ne hs _ _, Function.update_self _ _ _, rfl,
      fun q hq b hb => ?_, fun x hx => if_neg (by omega)⟩
    have hlt := digit_lt hq hb
    dsimp only
    rw [itemByte, hst, Option.map_some, Nat.add_mul, if_pos ⟨by omega, by omega⟩, Nat.add_mul]
    refine congrArg some (congrArg st.data ?_)
    omega

theorem length_sources (ts : List Tensor) :
    (sources ts).length = (ts.map fun t => (extents t.shape).prod).sum := by
  simp [sources, List.length_flatMap]

/-- The loop of `concat`. -/
theorem concatLoop_spec (hdtype : result.dtype = dtype) (hts : ∀ t ∈ ts, t.dtype = dtype)
    (hvalid : ∀ t ∈ ts, t.Valid h) (hsize : ∀ t ∈ ts, (t.shape.getD dim 0 * slice).toNat = (extents t.shape).prod)
    (hne : ∀ t ∈ ts, t.storage ≠ result.storage) {sd : Storage} (hsd : h.storages result.storage = some sd)
    {total : ℕ} (htotal : sd.numBytes.toNat = total * dtype.size.toNat)
    (hfit : offset.toNat + (sources ts).length ≤ total) :
    ∃ h₁ sd₁, concatLoop result dtype.size slice dim ts offset h = some h₁ ∧
      h₁.storages result.storage = some sd₁ ∧
      (∀ k p, (sources ts)[k]? = some p → ∀ b < dtype.size.toNat,
        some (sd₁.data ((offset.toNat + k) * dtype.size.toNat + b)) = itemByte h dtype.size.toNat p b) ∧
      ∀ x < offset.toNat * dtype.size.toNat, sd₁.data x = sd.data x := by
  induction ts generalizing h offset sd with
  | nil =>
    refine ⟨h, sd, rfl, hsd, fun k p hp => ?_, fun x _ => rfl⟩
    simp [sources] at hp
  | cons t ts ih =>
    rw [List.forall_mem_cons] at hts hvalid hsize hne
    have hitem : t.itemSize = dtype.size := congrArg Dtype.size hts.1
    have hprod : (extents t.shape).prod + (sources ts).length = (sources (t :: ts)).length := by
      rw [length_sources, length_sources, List.map_cons, List.sum_cons]
    have hbytes : (t.shape.getD dim 0 * slice * dtype.size).toNat =
        (extents t.shape).prod * t.itemSize.toNat := by
      rw [UInt64.toNat_mul, hsize.1, hitem, Nat.mod_eq_of_lt (by rw [← hitem]; exact hvalid.1.bytes_lt)]
    obtain ⟨h₁, sd₁, hcopy, hnext, hframe, hsd₁, hnum, hdata, hbefore⟩ := copyRow_spec hvalid.1
      (hdtype.trans hts.1.symm) hsd (htotal.trans (by rw [hitem])) (show offset.toNat + _ ≤ total by omega)
    have hlt : total < 2 ^ 64 := by
      have h1 := Nat.le_mul_of_pos_right total (size_pos dtype)
      have h2 := sd.numBytes.toNat_lt
      omega
    have hoffset : (offset + t.shape.getD dim 0 * slice).toNat = offset.toNat + (extents t.shape).prod := by
      rw [UInt64.toNat_add, hsize.1, Nat.mod_eq_of_lt (by omega)]
    obtain ⟨h₂, sd₂, hloop, hsd₂, hrest, hkeep⟩ := @ih h₁ (offset + t.shape.getD dim 0 * slice) hts.2
      (fun u hu => (hvalid.2 u hu).of_storages hnext.ge (hframe _ (hne.2 u hu))) hsize.2 hne.2 sd₁ hsd₁
      (by rw [hnum, htotal]) (by rw [hoffset]; omega)
    rw [hoffset] at hrest hkeep
    refine ⟨h₂, sd₂, ?_, hsd₂, fun k p hp b hb => ?_, fun x hx => ?_⟩
    · rw [concatLoop, hbytes, hcopy, Option.bind_some, hloop]
    · rw [sources, List.flatMap_cons] at hp
      rcases Nat.lt_or_ge k (extents t.shape).prod with hk | hk
      · rw [List.getElem?_append_left (by simpa using hk)] at hp
        simp only [List.getElem?_map, List.getElem?_range hk, Option.map_some, Option.some.injEq] at hp
        subst hp
        have hat := digit_lt (show offset.toNat + k < offset.toNat + (extents t.shape).prod by omega) hb
        rw [hkeep _ hat]
        rw [hitem] at hdata
        exact hdata k hk b hb
      · rw [List.getElem?_append_right (by simpa using hk)] at hp
        simp only [List.length_map, List.length_range] at hp
        have hbyte := hrest (k - (extents t.shape).prod) p hp b hb
        rw [show offset.toNat + (extents t.shape).prod + (k - (extents t.shape).prod) = offset.toNat + k by omega]
          at hbyte
        rw [hbyte]
        obtain ⟨u, hu, hmem⟩ := List.mem_flatMap.mp (List.mem_of_getElem? hp)
        obtain ⟨q, -, rfl⟩ := List.mem_map.mp hmem
        rw [itemByte, itemByte, hframe _ (hne.2 u hu)]
    · rw [hkeep x (hx.trans_le (Nat.mul_le_mul_right _ (by omega))), hbefore x (by rwa [hitem])]

end Memory

/-! ## Concatenating -/

section Concat

variable {h : Heap} {t : Tensor} {ts : List Tensor} {dim : ℕ} {before after : List UInt64} {dtype : Dtype}

/-- The extents of the result. -/
def concatShape (ts : List Tensor) (dim : ℕ) (before after : List UInt64) : List ℕ :=
  extents before ++ extentSum ts dim :: extents after

/-- The result can be counted, also where it has no elements. -/
structure CountsResult (ts : List Tensor) (dim : ℕ) (before after : List UInt64) (dtype : Dtype) : Prop where
  extent : extentSum ts dim < 2 ^ 64
  bytes : (concatShape ts dim before after).prod * dtype.size.toNat < 2 ^ 64

theorem prod_around (before after : List ℕ) (e : ℕ) :
    (before ++ e :: after).prod = e * (before.prod * after.prod) := by
  rw [List.prod_append, List.prod_cons]
  ring

theorem toNat_sum (l : List UInt64) : l.sum.toNat = (l.map UInt64.toNat).sum % 2 ^ 64 := by
  induction l with
  | nil => rfl
  | cons x l ih =>
    rw [List.sum_cons, UInt64.toNat_add, ih, List.map_cons, List.sum_cons, Nat.add_mod_mod]

theorem extentSum_append (l l' : List Tensor) (dim : ℕ) : extentSum (l ++ l') dim = extentSum l dim + extentSum l' dim := by
  rw [extentSum, List.map_append, List.sum_append]
  rfl

theorem mem_sources {p : ℕ × ℕ} (hp : p ∈ sources ts) : ∃ t ∈ ts, p.1 = t.storage := by
  obtain ⟨t, ht, hmem⟩ := List.mem_flatMap.mp hp
  obtain ⟨q, -, rfl⟩ := List.mem_map.mp hmem
  exact ⟨t, ht, rfl⟩

section Counts

variable (hc : Concatenable ts dim before after dtype)

include hc

theorem Concatenable.extents_eq (ht : t ∈ ts) :
    extents t.shape = extents before ++ (t.shape.getD dim 0).toNat :: extents after := by
  conv_lhs => rw [hc.shape t ht]
  rw [extents, List.map_append, List.map_cons]
  rfl

theorem Concatenable.set_eq (ht : t ∈ ts) (e : UInt64) :
    t.shape.set dim e = before ++ e :: after := by
  conv_lhs => rw [hc.shape t ht, ← hc.length]
  rw [List.set_append_right _ _ le_rfl, Nat.sub_self, List.set_cons_zero]

theorem Concatenable.length_eq (ht : t ∈ ts) :
    t.shape.length = dim + (after.length + 1) := by
  rw [hc.shape t ht, List.length_append, List.length_cons, hc.length]

theorem Concatenable.agrees {u : Tensor} (ht : t ∈ ts) (hu : u ∈ ts) :
    Agrees t u dim := by
  refine ⟨by rw [hc.length_eq ht, hc.length_eq hu], fun i _ hi => ?_⟩
  have hset : t.shape.set dim 0 = u.shape.set dim 0 := by rw [hc.set_eq ht, hc.set_eq hu]
  have hget := congrArg (·[i]?) hset
  simp only [List.getElem?_set_ne hi.symm] at hget
  rw [List.getD_eq_getElem?_getD, List.getD_eq_getElem?_getD, hget]

theorem Concatenable.length_sources :
    (sources ts).length = (concatShape ts dim before after).prod := by
  rw [TensorEngine.length_sources, concatShape, prod_around, extentSum, ← List.sum_map_mul_right]
  refine congrArg List.sum (List.map_congr_left fun t ht => ?_)
  rw [hc.extents_eq ht, prod_around]

theorem Concatenable.within_shift {l l' : List Tensor}
    (hts : ts = l ++ t :: l') {i : List ℕ} (hi : Within i (extents t.shape)) :
    Within (i.modify dim (· + extentSum l dim)) (concatShape ts dim before after) := by
  have ht : t ∈ ts := hts ▸ List.mem_append_right l List.mem_cons_self
  have hlen : (extents before).length = dim := (length_extents before).trans hc.length
  have hset : (concatShape ts dim before after).set dim (t.shape.getD dim 0).toNat = extents t.shape := by
    rw [hc.extents_eq ht, concatShape, List.set_append_right _ _ hlen.le, hlen, Nat.sub_self, List.set_cons_zero]
  refine within_modify (hset ▸ hi) ?_
  rw [concatShape, List.getD_append_right _ _ _ _ hlen.le, hlen, Nat.sub_self, List.getD_cons_zero, hts,
    extentSum_append]
  rw [extentSum, extentSum, List.map_cons, List.sum_cons]
  omega

variable (hvalid : ∀ t ∈ ts, t.Valid h) (hfits : CountsResult ts dim before after dtype)

include hvalid hfits

theorem Concatenable.loop_spec {newShape : List UInt64}
    (hshape : extents newShape = concatShape ts dim before after) {slice : UInt64}
    (hslice : slice.toNat = (extents before).prod * (extents after).prod) :
    ∃ h₁ sd, concatLoop (tensorCreate h newShape dtype).2 dtype.size slice dim ts 0 (tensorCreate h newShape dtype).1 =
        some h₁ ∧ h₁.storages (tensorCreate h newShape dtype).2.storage = some sd ∧
      ∀ k p, (sources ts)[k]? = some p → ∀ b < dtype.size.toNat,
        some (sd.data (k * dtype.size.toNat + b)) = itemByte h dtype.size.toNat p b := by
  have hbytes : (extents newShape).prod * dtype.size.toNat < 2 ^ 64 := hshape ▸ hfits.bytes
  have hsd : (tensorCreate h newShape dtype).1.storages (tensorCreate h newShape dtype).2.storage =
      some ⟨h.fresh h.next, numel newShape * dtype.size, 1⟩ := Function.update_self _ _ _
  have hold : ∀ s < h.next, (tensorCreate h newShape dtype).1.storages s = h.storages s := fun s hs =>
    Function.update_of_ne hs.ne _ _
  have hsize : ∀ t ∈ ts, (t.shape.getD dim 0 * slice).toNat = (extents t.shape).prod := by
    intro t ht
    have hlt := (hvalid t ht).prod_lt
    rw [hc.extents_eq ht, prod_around] at hlt ⊢
    rw [UInt64.toNat_mul, hslice, Nat.mod_eq_of_lt hlt]
  have hvalid' : ∀ t ∈ ts, t.Valid (tensorCreate h newShape dtype).1 := fun t ht =>
    (hvalid t ht).of_storages (Nat.le_succ _) (hold _ (hvalid t ht).known)
  have hlen : (0 : UInt64).toNat + (sources ts).length ≤ (extents newShape).prod := by
    rw [UInt64.toNat_zero, Nat.zero_add, hc.length_sources, hshape]
  obtain ⟨h₁, sd, hloop, hsd₁, hdata, -⟩ := concatLoop_spec
    (show (tensorCreate h newShape dtype).2.dtype = dtype from rfl) hc.dtype hvalid' hsize
    (fun t ht => (hvalid t ht).known.ne) hsd (numel_mul_size hbytes) hlen
  refine ⟨h₁, sd, hloop, hsd₁, fun k p hp b hb => ?_⟩
  obtain ⟨t, ht, hstorage⟩ := mem_sources (List.mem_of_getElem? hp)
  have hbyte := hdata k p hp b hb
  rw [UInt64.toNat_zero, Nat.zero_add] at hbyte
  rw [hbyte, itemByte, itemByte, hold _ (hstorage ▸ (hvalid t ht).known)]

/-- `concat` succeeds if the first extent is not 0, and leaves the elements as they are stored. -/
theorem Concatenable.concat_spec {first : Tensor} {rest : List Tensor} (hts : ts = first :: rest)
    (hfirst : first.shape.getD dim 0 ≠ 0) :
    ∃ r sd, tensorConcat h ts dim = .ok r ∧ extents r.2.shape = concatShape ts dim before after ∧ r.2.dtype = dtype ∧
      (0 < (concatShape ts dim before after).prod →
        r.2.layout = ⟨0, concatShape ts dim before after, packedStrides (concatShape ts dim before after)⟩) ∧
      r.1.storages r.2.storage = some sd ∧
      ∀ k p, (sources ts)[k]? = some p → ∀ b < dtype.size.toNat,
        some (sd.data (k * dtype.size.toNat + b)) = itemByte h dtype.size.toNat p b := by
  have hmem : first ∈ ts := hts ▸ List.mem_cons_self
  have hdtype := hc.dtype first hmem
  have htotal : (totalDim ts dim).toNat = extentSum ts dim := by
    rw [totalDim, toNat_sum, List.map_map]
    exact Nat.mod_eq_of_lt hfits.extent
  have hshape : extents (first.shape.set dim (totalDim ts dim)) =
      concatShape ts dim before after := by
    rw [hc.set_eq hmem, extents, List.map_append, List.map_cons, htotal]
    rfl
  have hslice : (first.size / first.shape.getD dim 0).toNat = (extents before).prod * (extents after).prod := by
    have hpos : 0 < (first.shape.getD dim 0).toNat :=
      Nat.pos_of_ne_zero fun h0 => hfirst (UInt64.toNat_inj.mp (h0.trans UInt64.toNat_zero.symm))
    rw [UInt64.toNat_div, (hvalid first hmem).size_eq, hc.extents_eq hmem, prod_around, Nat.mul_div_cancel_left _ hpos]
  obtain ⟨h₁, sd, hloop, hsd, hdata⟩ := hc.loop_spec hvalid hfits hshape hslice
  have hdim : ¬dim ≥ first.shape.length := by
    rw [hc.length_eq hmem]
    omega
  have hagree : ¬∃ t ∈ ts, ¬Agrees first t dim := by
    rintro ⟨t, ht, hbad⟩
    exact hbad (hc.agrees hmem ht)
  have hrun : tensorConcat h ts dim =
      .ok (h₁, (tensorCreate h (first.shape.set dim (totalDim ts dim)) dtype).2) := by
    rw [← hdtype] at hloop
    subst hts
    rw [tensorConcat, if_neg hdim, if_neg hagree]
    simp only [if_neg hfirst]
    rw [show first.itemSize = first.dtype.size from rfl, hloop, hdtype]
    rfl
  refine ⟨_, sd, hrun, hshape, rfl, fun hpos => ?_, hsd, hdata⟩
  rw [← hshape] at hpos ⊢
  refine layout_tensorCreate h dtype hpos ?_
  have := Nat.le_mul_of_pos_right (extents (first.shape.set dim (totalDim ts dim))).prod
    (size_pos dtype)
  have := hfits.bytes
  rw [hshape] at *
  omega

end Counts

theorem Tensor.Valid.refill (hv : t.Valid h) (data : ℕ → ℕ → UInt8) : t.Valid (h.refill data) := by
  obtain ⟨st, hst, hb⟩ := hv.room
  exact
    { known := hv.known
      lengths := hv.lengths
      size_eq := hv.size_eq
      injective := hv.injective
      room := ⟨{ st with data := data t.storage }, by simp [Heap.refill, hst], hb⟩ }

/-- The contents of the storages in which one element is marked. -/
def marked (item : ℕ) (p : ℕ × ℕ) : ℕ → ℕ → UInt8 := fun s x => if s = p.1 ∧ x = p.2 * item then 1 else 0

theorem itemByte_marked {item : ℕ} (hitem : 0 < item) {p q : ℕ × ℕ}
    (hbyte : itemByte (h.refill (marked item p)) item q 0 = some 1) : q = p := by
  simp only [itemByte, Heap.refill, marked, Option.map_map, Option.map_eq_some_iff, Function.comp, Nat.add_zero,
    ite_eq_left_iff] at hbyte
  obtain ⟨st, -, hmark⟩ := hbyte
  by_contra hne
  refine absurd (hmark fun hq => hne (Prod.ext hq.1 ?_)) (by decide)
  exact Nat.eq_of_mul_eq_mul_right hitem hq.2

theorem byteAt_marked (hv : t.Valid h) (i : List ℕ) :
    byteAt (h.refill (marked t.itemSize.toNat (t.storage, t.layout.address i))) t i 0 = some 1 := by
  obtain ⟨st, hst, -⟩ := hv.room
  simp [byteAt, Heap.refill, marked, hst]

/-- `concat` is right if and only if the first extent is not 0 and the elements are in order. -/
theorem Concatenable.concatenates_iff (hc : Concatenable ts dim before after dtype) (hvalid : ∀ t ∈ ts, t.Valid h)
    (hfits : CountsResult ts dim before after dtype) {first : Tensor} {rest : List Tensor} (hts : ts = first :: rest) :
    Concatenates h ts dim ↔ first.shape.getD dim 0 ≠ 0 ∧ InOrder ts dim before after := by
  have hmem : first ∈ ts := hts ▸ List.mem_cons_self
  constructor
  · intro h₀
    have hfirst : first.shape.getD dim 0 ≠ 0 := by
      intro hzero
      obtain ⟨r, hr, -⟩ := h₀ fun _ _ => 0
      have hdim : ¬dim ≥ first.shape.length := by
        rw [hc.length_eq hmem]
        omega
      have hagree : ¬∃ t ∈ ts, ¬Agrees first t dim := fun ⟨t, ht, hbad⟩ => hbad (hc.agrees hmem ht)
      subst hts
      rw [tensorConcat, if_neg hdim, if_neg hagree] at hr
      simp only [if_pos hzero] at hr
      cases hr
    refine ⟨hfirst, fun l t l' hsplit i hi => ?_⟩
    have ht : t ∈ ts := hsplit ▸ List.mem_append_right l List.mem_cons_self
    have hitem : t.itemSize = dtype.size := congrArg Dtype.size (hc.dtype t ht)
    have hshift := hc.within_shift hsplit hi
    -- with a mark on the element, the result shows where it is
    obtain ⟨r, hr, hplaced⟩ := h₀ (marked t.itemSize.toNat (t.storage, t.layout.address i))
    obtain ⟨r', sd, hr', -, hdtype, hlayout, hsd, hdata⟩ := hc.concat_spec
      (fun u hu => (hvalid u hu).refill (marked t.itemSize.toNat (t.storage, t.layout.address i))) hfits hts hfirst
    obtain rfl := Outcome.ok.inj (hr'.symm.trans hr)
    have hbyte := hplaced.bytes l t l' hsplit i hi 0 (itemSize_pos t)
    have hk : dot (i.modify dim (· + extentSum l dim)) (packedStrides (concatShape ts dim before after)) <
        (sources ts).length := by
      rw [hc.length_sources]
      exact dot_packed_lt hshift
    rw [byteAt_marked (hvalid t ht), byteAt, hsd, Option.map_some, hlayout hshift.prod_pos, Layout.address, Nat.zero_add,
      show r'.2.itemSize = dtype.size from congrArg Dtype.size hdtype, hdata _ _ (List.getElem?_eq_getElem hk) 0
        (size_pos dtype), ← hitem] at hbyte
    rw [concatShape] at hk
    rw [List.getElem?_eq_getElem hk]
    exact congrArg some (itemByte_marked (itemSize_pos t) hbyte)
  · rintro ⟨hfirst, horder⟩ data
    obtain ⟨r, sd, hr, hshape, hdtype, hlayout, hsd, hdata⟩ := hc.concat_spec
      (fun u hu => (hvalid u hu).refill data) hfits hts hfirst
    refine ⟨r, hr, fun t ht => ?_, fun t ht => hdtype.trans (hc.dtype t ht).symm, fun l t l' hsplit i hi b hb => ?_⟩
    · have hlen : (extents before).length = dim := (length_extents before).trans hc.length
      rw [hshape, hc.extents_eq ht, List.set_append_right _ _ hlen.le, hlen, Nat.sub_self, List.set_cons_zero, concatShape]
    · have ht : t ∈ ts := hsplit ▸ List.mem_append_right l List.mem_cons_self
      have hitem : t.itemSize = dtype.size := congrArg Dtype.size (hc.dtype t ht)
      have hshift := hc.within_shift hsplit hi
      rw [byteAt_eq_itemByte _ t, hitem, ← hdata _ _ (horder l t l' hsplit i hi) b (by rwa [← hitem]), byteAt, hsd,
        Option.map_some, hlayout hshift.prod_pos, Layout.address, Nat.zero_add,
        show r.2.itemSize = dtype.size from congrArg Dtype.size hdtype, concatShape]

/-! ## Packed tensors -/

/-- The tensors are packed, each in a storage of its own. -/
structure PackedApart (ts : List Tensor) : Prop where
  packed : ∀ t ∈ ts, isContiguous t = true
  apart : ts.Pairwise fun t u => t.storage ≠ u.storage

theorem getElem?_sources {l l' : List Tensor} {q : ℕ} (hq : q < (extents t.shape).prod) :
    (sources (l ++ t :: l'))[(sources l).length + q]? = some (t.storage, t.offset.toNat + q) := by
  rw [sources, List.flatMap_append, List.flatMap_cons, ← sources, List.getElem?_append_right (Nat.le_add_right _ _),
    Nat.add_sub_cancel_left, List.getElem?_append_left (by simpa using hq), List.getElem?_map,
    List.getElem?_range hq, Option.map_some]

/-- In storages of their own, the elements of a tensor are found among its own only. -/
theorem getElem?_sources_eq_iff {l l' : List Tensor} (hapart : (l ++ t :: l').Pairwise fun t u => t.storage ≠ u.storage)
    {k q : ℕ} (hq : q < (extents t.shape).prod) :
    (sources (l ++ t :: l'))[k]? = some (t.storage, t.offset.toNat + q) ↔ k = (sources l).length + q := by
  constructor
  · intro hk
    rw [List.pairwise_append, List.pairwise_cons] at hapart
    obtain ⟨-, ⟨hright, -⟩, hleft⟩ := hapart
    rw [sources, List.flatMap_append, List.flatMap_cons, ← sources, ← sources] at hk
    rcases Nat.lt_or_ge k (sources l).length with hlt | hge
    · rw [List.getElem?_append_left hlt] at hk
      obtain ⟨u, hu, hstorage⟩ := mem_sources (List.mem_of_getElem? hk)
      exact absurd hstorage.symm (hleft u hu t List.mem_cons_self)
    · rw [List.getElem?_append_right hge] at hk
      rcases Nat.lt_or_ge (k - (sources l).length) (extents t.shape).prod with hlt | hge'
      · rw [List.getElem?_append_left (by simpa using hlt), List.getElem?_map, List.getElem?_range hlt,
          Option.map_some, Option.some.injEq, Prod.mk.injEq] at hk
        omega
      · rw [List.getElem?_append_right (by simpa using hge')] at hk
        obtain ⟨u, hu, hstorage⟩ := mem_sources (List.mem_of_getElem? hk)
        exact absurd hstorage (hright u hu)
  · rintro rfl
    exact getElem?_sources hq

/-- The place of an index with a part before `dim` and one behind it. -/
theorem dot_around {u v pre post : List ℕ} (hu : Within u pre) (j e : ℕ) :
    dot (u ++ j :: v) (packedStrides (pre ++ e :: post)) =
      dot u (packedStrides pre) * (e * post.prod) + (j * post.prod + dot v (packedStrides post)) := by
  rw [dot_packed_append hu, List.prod_cons, packedStrides_cons, dot_cons]

theorem exists_around {i pre post : List ℕ} {e : ℕ} (hi : Within i (pre ++ e :: post)) :
    ∃ u j v, i = u ++ j :: v ∧ Within u pre ∧ j < e ∧ Within v post := by
  have hu := List.forall₂_take_append i pre (e :: post) hi
  obtain ⟨j, v, hj, hv, hw⟩ := List.forall₂_cons_right_iff.mp (List.forall₂_drop_append i pre (e :: post) hi)
  exact ⟨i.take pre.length, j, v, by rw [← hw, List.take_append_drop], hu, hj, hv⟩

theorem within_zero {shape : List ℕ} (hpos : 0 < shape.prod) :
    ∃ i, Within i shape ∧ dot i (packedStrides shape) = 0 :=
  ⟨unflatten shape 0, within_unflatten hpos 0, dot_unflatten hpos⟩

/-- Packed tensors are in order if nothing is in front of `dim`, or one of them is the whole result. -/
theorem Concatenable.inOrder_iff_of_packed (hc : Concatenable ts dim before after dtype) (hvalid : ∀ t ∈ ts, t.Valid h)
    (hpacked : PackedApart ts) :
    InOrder ts dim before after ↔ (extents before).prod = 1 ∨
      ∀ t ∈ ts, 0 < (extents t.shape).prod → (t.shape.getD dim 0).toNat = extentSum ts dim := by
  -- an element is in order if its number in the result is the one it gets
  have hnumber : ∀ l t l', ts = l ++ t :: l' → ∀ u j v, Within u (extents before) → j < (t.shape.getD dim 0).toNat →
      Within v (extents after) →
      ((sources ts)[dot ((u ++ j :: v).modify dim (· + extentSum l dim))
          (packedStrides (extents before ++ extentSum ts dim :: extents after))]? =
        some (t.storage, t.layout.address (u ++ j :: v)) ↔
      dot u (packedStrides (extents before)) * (extentSum ts dim * (extents after).prod) +
          ((j + extentSum l dim) * (extents after).prod + dot v (packedStrides (extents after))) =
        extentSum l dim * ((extents before).prod * (extents after).prod) +
          (dot u (packedStrides (extents before)) * ((t.shape.getD dim 0).toNat * (extents after).prod) +
            (j * (extents after).prod + dot v (packedStrides (extents after))))) := by
    intro l t l' hsplit u j v hu hj hv
    have ht : t ∈ ts := hsplit ▸ List.mem_append_right l List.mem_cons_self
    have hwithin : Within (u ++ j :: v) (extents t.shape) := by
      rw [hc.extents_eq ht]
      exact List.rel_append hu (within_cons.mpr ⟨hj, hv⟩)
    have hlen : u.length = dim := hu.length_eq.trans ((length_extents before).trans hc.length)
    have hmodify : (u ++ j :: v).modify dim (· + extentSum l dim) = u ++ (j + extentSum l dim) :: v := by
      rw [List.modify_eq_take_drop, List.take_left' hlen, List.drop_left' hlen, List.modifyHead_cons]
    have hq := dot_packed_lt hwithin
    have haddress : t.layout.address (u ++ j :: v) =
        t.offset.toNat + dot (u ++ j :: v) (packedStrides (extents t.shape)) := by
      rw [← packed_of_isContiguous (hvalid t ht) hwithin.prod_pos (hpacked.packed t ht)]
      rfl
    have hlength : (sources l).length = extentSum l dim * ((extents before).prod * (extents after).prod) := by
      rw [TensorEngine.length_sources, extentSum, ← List.sum_map_mul_right]
      refine congrArg List.sum (List.map_congr_left fun w hw => ?_)
      rw [hc.extents_eq (hsplit ▸ List.mem_append_left _ hw), prod_around]
    have hfound := getElem?_sources_eq_iff (hsplit ▸ hpacked.apart) (k := dot (u ++ (j + extentSum l dim) :: v)
      (packedStrides (extents before ++ extentSum ts dim :: extents after))) hq
    rw [hmodify, haddress, ← hsplit] at *
    rw [hfound, hlength, hc.extents_eq ht, dot_around hu, dot_around hu]
  constructor
  · intro h₀
    refine or_iff_not_imp_left.mpr fun hne t ht hpos => ?_
    obtain ⟨l, l', hsplit⟩ := List.append_of_mem ht
    rw [hc.extents_eq ht, prod_around] at hpos
    have he : 0 < (t.shape.getD dim 0).toNat := Nat.pos_of_mul_pos_right hpos
    have hrest := Nat.pos_of_mul_pos_left hpos
    have hbefore : 0 < (extents before).prod := Nat.pos_of_mul_pos_right hrest
    have hafter : 0 < (extents after).prod := Nat.pos_of_mul_pos_left hrest
    obtain ⟨v, hv, hv0⟩ := within_zero hafter
    have horder : ∀ u, Within u (extents before) → _ := fun u hu =>
      (hnumber l t l' hsplit u 0 v hu he hv).mp (h₀ l t l' hsplit _ (by
        rw [hc.extents_eq ht]
        exact List.rel_append hu (within_cons.mpr ⟨he, hv⟩)))
    have hfirst := horder _ (within_unflatten hbefore 0)
    have hsecond := horder _ (within_unflatten hbefore 1)
    rw [dot_unflatten hbefore, hv0] at hfirst
    rw [dot_unflatten (by omega), hv0] at hsecond
    have hzero : extentSum l dim = 0 := by
      by_contra hl
      have hcancel : extentSum l dim * (extents after).prod * 1 =
          extentSum l dim * (extents after).prod * (extents before).prod := by
        linarith
      exact hne (Nat.eq_of_mul_eq_mul_left (Nat.mul_pos (Nat.pos_of_ne_zero hl) hafter) hcancel).symm
    rw [hzero] at hsecond
    refine Nat.eq_of_mul_eq_mul_right hafter ?_
    linarith
  · intro h₀ l t l' hsplit i hi
    have ht : t ∈ ts := hsplit ▸ List.mem_append_right l List.mem_cons_self
    have hpos := hi.prod_pos
    rw [hc.extents_eq ht] at hi
    obtain ⟨u, j, v, rfl, hu, hj, hv⟩ := exists_around hi
    refine (hnumber l t l' hsplit u j v hu hj hv).mpr ?_
    rcases h₀ with hone | hwhole
    · have hu0 : dot u (packedStrides (extents before)) = 0 := by
        have := dot_packed_lt hu
        omega
      rw [hu0, hone]
      ring
    · have hextent := hwhole t ht hpos
      have hsum := hextent
      rw [hsplit, extentSum_append] at hsum
      have hcons : extentSum (t :: l') dim = (t.shape.getD dim 0).toNat + extentSum l' dim := rfl
      have hzero : extentSum l dim = 0 := by omega
      rw [hzero, hextent]
      ring

end Concat

end SneppxAlg.TensorEngine
