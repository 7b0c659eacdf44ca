import SneppxAlg.Kernel.TensorSplit
import SneppxAlg.Lib.Bytes

/-!
# `tensor.c`: tensors in files

`SNEPPX_tensor_save` writes a header with the shape and the type, and then as many bytes of the memory as the tensor
has, from its first element on, whatever its strides are. `SNEPPX_tensor_load` reads the header into an array of 16
extents; `fread` of no bytes is a failure.

Opening the file and writing to it succeed; the file is the list of its bytes, on a little-endian machine.

Main result: `save_load_iff`.
-/

namespace SneppxAlg.TensorEngine

open Lib.Bytes Lib.Strided

/-! ## The functions -/

/-- The value of a `SNEPPXDtype`. -/
def Dtype.code : Dtype → ℕ
  | .float32 => 0
  | .float64 => 1
  | .float16 => 2
  | .bfloat16 => 3
  | .float8 => 4
  | .int32 => 5
  | .int64 => 6
  | .int16 => 7
  | .int8 => 8
  | .uint8 => 9
  | .bool => 10
  | .complex64 => 11
  | .complex128 => 12

/-- The `SNEPPXDtype` with a value. -/
def Dtype.ofCode (code : ℕ) : Option Dtype :=
  [.float32, .float64, .float16, .bfloat16, .float8, .int32, .int64, .int16, .int8, .uint8, .bool, .complex64,
    .complex128][code]?

theorem Dtype.ofCode_code (d : Dtype) : ofCode d.code = some d := by cases d <;> rfl

theorem Dtype.code_lt (d : Dtype) : d.code < 2 ^ 32 := by cases d <;> decide

/-- `n` bytes of the memory of a tensor, from its first element on. -/
def dataBytes (h : Heap) (t : Tensor) (n : ℕ) : Option (List UInt8) :=
  (h.storages t.storage).bind fun st =>
    let start := (t.offset * t.itemSize).toNat
    if n = 0 ∨ start + n ≤ st.numBytes.toNat then some ((List.range n).map fun i => st.data (start + i)) else none

/-- What `SNEPPX_tensor_save` writes in front of the elements. -/
def fileHeader (t : Tensor) : List UInt8 :=
  leBytes 4 0x41524958 ++ leBytes 4 1 ++ leBytes 8 t.shape.length ++
    t.shape.flatMap (fun d => leBytes 8 d.toNat) ++ leBytes 4 t.dtype.code

/-- `SNEPPX_tensor_save`: the bytes of the file. -/
def tensorSave (h : Heap) (t : Tensor) : Option (List UInt8) :=
  (dataBytes h t (t.size * t.itemSize).toNat).map (fileHeader t ++ ·)

/-- `fread` of one item of `n` bytes, and the rest of the file. -/
def fread (n : ℕ) (file : List UInt8) : Outcome (List UInt8 × List UInt8) :=
  if n ≠ 0 ∧ n ≤ file.length then .ok (file.take n, file.drop n) else .null

/-- The loop that reads `n` more extents into `shape`. -/
def loadShape : ℕ → List UInt64 → List UInt8 → Outcome (List UInt64 × List UInt8)
  | 0, shape, file => .ok (shape, file)
  | n + 1, shape, file =>
    (fread 8 file).bind fun r =>
      if shape.length < maxDims then loadShape n (shape ++ [UInt64.ofNat (leVal r.1)]) r.2 else .fault

/-- Bytes stored from the first element of a new tensor on. -/
def storeData (h : Heap) (t : Tensor) (bytes : List UInt8) : Heap :=
  { h with storages := Function.update h.storages t.storage ((h.storages t.storage).map fun st =>
    { st with data := fun i => bytes.getD i (st.data i) }) }

/-- `SNEPPX_tensor_load`. A tensor of an unknown type has items of 0 bytes. -/
def tensorLoad (h : Heap) (file : List UInt8) : Outcome (Heap × Tensor) :=
  (fread 4 file).bind fun r =>
    if leVal r.1 ≠ 0x41524958 then .null
    else
      (fread 4 r.2).bind fun r =>
        if leVal r.1 ≠ 1 then .null
        else
          (fread 8 r.2).bind fun r =>
            (loadShape (leVal r.1) [] r.2).bind fun s =>
              (fread 4 s.2).bind fun r =>
                match Dtype.ofCode (leVal r.1) with
                | none => .null
                | some dtype =>
                  let c := tensorCreate h s.1 dtype
                  (fread (c.2.size * c.2.itemSize).toNat r.2).bind fun r => .ok (storeData c.1 c.2 r.1, c.2)

/-! ## Reading what was written -/

section Reading

theorem Outcome.bind_eq_ok {α β : Type} {o : Outcome α} {f : α → Outcome β} {b : β} (h : o.bind f = .ok b) :
    ∃ a, o = .ok a ∧ f a = .ok b := by
  cases o with
  | fault => cases h
  | null => cases h
  | ok a => exact ⟨a, rfl, h⟩

theorem fread_append {n : ℕ} (hn : n ≠ 0) {l : List UInt8} (hl : l.length = n) (rest : List UInt8) :
    fread n (l ++ rest) = .ok (l, rest) := by
  subst hl
  rw [fread, if_pos ⟨hn, by simp⟩, List.take_left, List.drop_left]

theorem loadShape_append {shape dims : List UInt64} (h : shape.length + dims.length ≤ maxDims) (rest : List UInt8) :
    loadShape dims.length shape (dims.flatMap (fun d => leBytes 8 d.toNat) ++ rest) = .ok (shape ++ dims, rest) := by
  induction dims generalizing shape with
  | nil => rw [List.append_nil]; rfl
  | cons d dims ih =>
    have hlen : shape.length + 1 + dims.length ≤ maxDims := by
      rw [List.length_cons] at h
      omega
    have hval : UInt64.ofNat (leVal (leBytes 8 d.toNat)) = d := by
      rw [leVal_leBytes, Nat.mod_eq_of_lt (show d.toNat < 256 ^ 8 from d.toNat_lt), UInt64.ofNat_toNat]
    rw [List.flatMap_cons, List.append_assoc, List.length_cons, loadShape,
      fread_append (by decide) (length_leBytes 8 d.toNat)]
    simp only [Outcome.bind, if_pos (show shape.length < maxDims by omega), hval]
    rw [ih (by simpa using hlen), List.append_assoc, List.singleton_append]

/-- The array of extents is not left. -/
theorem length_of_loadShape {n : ℕ} {shape : List UInt64} {file : List UInt8} {r : List UInt64 × List UInt8}
    (hlen : shape.length ≤ maxDims) (h : loadShape n shape file = .ok r) : r.1.length ≤ maxDims := by
  induction n generalizing shape file with
  | zero =>
    obtain rfl := Outcome.ok.inj h
    exact hlen
  | succ n ih =>
    obtain ⟨d, -, h⟩ := Outcome.bind_eq_ok h
    split_ifs at h with hroom
    exact ih (by simpa using hroom) h

/-- A tensor that is loaded has elements, and no more than 16 extents. -/
theorem of_tensorLoad {h : Heap} {file : List UInt8} {r : Heap × Tensor} (hload : tensorLoad h file = .ok r) :
    r.2.shape.length ≤ maxDims ∧ (numel r.2.shape * r.2.itemSize).toNat ≠ 0 := by
  obtain ⟨_, -, hload⟩ := Outcome.bind_eq_ok hload
  split_ifs at hload
  obtain ⟨_, -, hload⟩ := Outcome.bind_eq_ok hload
  split_ifs at hload
  obtain ⟨_, -, hload⟩ := Outcome.bind_eq_ok hload
  obtain ⟨s, hs, hload⟩ := Outcome.bind_eq_ok hload
  obtain ⟨c, -, hload⟩ := Outcome.bind_eq_ok hload
  cases hcode : Dtype.ofCode (leVal c.1) with
  | none =>
    rw [hcode] at hload
    cases hload
  | some dtype =>
    rw [hcode] at hload
    obtain ⟨_, hread, hload⟩ := Outcome.bind_eq_ok hload
    obtain rfl := Outcome.ok.inj hload
    refine ⟨length_of_loadShape (Nat.zero_le _) hs, fun hzero => ?_⟩
    rw [fread, if_neg fun h => h.1 hzero] at hread
    cases hread

end Reading

/-! ## Saving and loading -/

section Result

variable {h : Heap} {t : Tensor}

/-- Whatever the storages contain, the tensor that is loaded from the file has the elements of the one that was
saved. -/
def Reloads (h : Heap) (t : Tensor) : Prop :=
  ∀ data h₁, ∃ file r, tensorSave (h.refill data) t = some file ∧ tensorLoad h₁ file = .ok r ∧
    SameElements (h.refill data) t r

/-- The elements are stored in the order of their indices. -/
def StoredInOrder (t : Tensor) : Prop :=
  ∀ i, Within i (extents t.shape) → dot i (extents t.strides) = dot i (packedStrides (extents t.shape))

/-- The tensor that is loaded has the elements of the memory one after another. -/
theorem save_load_spec (hv : t.Valid h) (hpos : 0 < (extents t.shape).prod) (hdims : t.shape.length ≤ maxDims)
    (h₁ : Heap) :
    ∃ file r, tensorSave h t = some file ∧ tensorLoad h₁ file = .ok r ∧ r.2.shape = t.shape ∧ r.2.dtype = t.dtype ∧
      ∀ i, Within i (extents t.shape) → ∀ b < t.itemSize.toNat, byteAt r.1 r.2 i b =
        itemByte h t.itemSize.toNat (t.storage, t.offset.toNat + dot i (packedStrides (extents t.shape))) b := by
  obtain ⟨st, hst, -⟩ := hv.room
  have hbytes := hv.bytes_lt
  have hrow := hv.row_le hst hpos
  have hprod : (extents t.shape).prod < 2 ^ 64 :=
    Nat.lt_of_le_of_lt (Nat.le_mul_of_pos_right _ (itemSize_pos t)) hbytes
  have hstart : (t.offset * t.itemSize).toNat = t.offset.toNat * t.itemSize.toNat := by
    simpa using hv.offset_bytes (show (0 : UInt64).toNat < _ from hpos)
  set payload := (List.range ((extents t.shape).prod * t.itemSize.toNat)).map fun i =>
    st.data (t.offset.toNat * t.itemSize.toNat + i) with hpayload
  have hlen : payload.length = (extents t.shape).prod * t.itemSize.toNat := by simp [hpayload]
  have hsave : tensorSave h t = some (fileHeader t ++ payload) := by
    rw [Nat.add_mul] at hrow
    rw [tensorSave, hv.size_bytes, dataBytes, hst, Option.bind_some, hstart, if_pos (Or.inr hrow), Option.map_some]
  have hsize : (numel t.shape * t.dtype.size).toNat = (extents t.shape).prod * t.itemSize.toNat :=
    numel_mul_size hbytes
  have hne : (extents t.shape).prod * t.itemSize.toNat ≠ 0 := (Nat.mul_pos hpos (itemSize_pos t)).ne'
  have hload : tensorLoad h₁ (fileHeader t ++ payload) =
      .ok (storeData (tensorCreate h₁ t.shape t.dtype).1 (tensorCreate h₁ t.shape t.dtype).2 payload,
        (tensorCreate h₁ t.shape t.dtype).2) := by
    have hdimsVal : leVal (leBytes 8 t.shape.length) = t.shape.length := by
      rw [leVal_leBytes]
      exact Nat.mod_eq_of_lt (hdims.trans_lt (by decide))
    have hcode : leVal (leBytes 4 t.dtype.code) = t.dtype.code := by
      rw [leVal_leBytes]
      exact Nat.mod_eq_of_lt t.dtype.code_lt
    have hmagic : leVal (leBytes 4 0x41524958) = 0x41524958 := (leVal_leBytes _ _).trans (by decide)
    have hversion : leVal (leBytes 4 1) = 1 := (leVal_leBytes _ _).trans (by decide)
    have hshape := @loadShape_append [] t.shape (by simpa using hdims)
      (leBytes 4 t.dtype.code ++ payload)
    rw [tensorLoad, fileHeader]
    simp only [List.append_assoc, fread_append (show 4 ≠ 0 by decide) (length_leBytes 4 _),
      fread_append (show 8 ≠ 0 by decide) (length_leBytes 8 _), Outcome.bind, hmagic, hversion, hdimsVal, hshape,
      List.nil_append, hcode, Dtype.ofCode_code, ne_eq, not_true_eq_false, if_false]
    rw [show ((tensorCreate h₁ t.shape t.dtype).2.size * (tensorCreate h₁ t.shape t.dtype).2.itemSize).toNat = _ from
      hsize, ← List.append_nil payload, fread_append hne hlen, List.append_nil]
  refine ⟨_, _, hsave, hload, rfl, rfl, fun i hi b hb => ?_⟩
  have hk := dot_packed_lt hi
  have hlt := digit_lt hk hb
  have hfound : ∀ d, payload.getD (dot i (packedStrides (extents t.shape)) * t.itemSize.toNat + b) d = st.data
      (t.offset.toNat * t.itemSize.toNat + (dot i (packedStrides (extents t.shape)) * t.itemSize.toNat + b)) := by
    intro d
    rw [List.getD_eq_getElem _ _ (hlen.symm ▸ hlt)]
    simp [hpayload]
  rw [byteAt, layout_tensorCreate h₁ t.dtype hpos hprod, itemByte, hst, Option.map_some, Nat.add_mul, Nat.add_assoc,
    ← hfound ((h₁.fresh h₁.next) (dot i (packedStrides (extents t.shape)) * t.itemSize.toNat + b))]
  simp [storeData, tensorCreate, storageCreate, Layout.address, Tensor.itemSize]

theorem Reloads.dims (hreloads : Reloads h t) : 0 < (extents t.shape).prod ∧ t.shape.length ≤ maxDims := by
  obtain ⟨file, r, -, hr, hsame⟩ := hreloads (fun _ _ => 0) h
  obtain ⟨hdims, hbytes⟩ := of_tensorLoad hr
  rw [hsame.shape] at hdims hbytes
  refine ⟨Nat.pos_of_ne_zero fun h0 => hbytes ?_, hdims⟩
  rw [UInt64.toNat_mul, numel_toNat (by omega), h0, Nat.zero_mul, Nat.zero_mod]

theorem Reloads.storedInOrder (hv : t.Valid h) (hreloads : Reloads h t) : StoredInOrder t := by
  obtain ⟨hpos, hdims⟩ := hreloads.dims
  intro i hi
  -- with a mark on the element, the loaded tensor shows where it was taken from
  obtain ⟨file, r, hsave, hr, hsame⟩ := hreloads (marked t.itemSize.toNat (t.storage, t.layout.address i)) h
  obtain ⟨file', r', hsave', hr', -, -, hbyte⟩ :=
    save_load_spec (hv.refill (marked t.itemSize.toNat (t.storage, t.layout.address i))) hpos hdims h
  obtain rfl := Option.some.inj (hsave'.symm.trans hsave)
  obtain rfl := Outcome.ok.inj (hr'.symm.trans hr)
  have hmark := (hbyte i hi 0 (itemSize_pos t)).symm.trans
    ((hsame.bytes i hi 0 (itemSize_pos t)).trans (byteAt_marked hv i))
  have heq : t.offset.toNat + dot i (packedStrides (extents t.shape)) = t.layout.address i :=
    congrArg Prod.snd (itemByte_marked (itemSize_pos t) hmark)
  exact (Nat.add_left_cancel heq).symm

/-- Loading the file of a tensor gives a tensor of the same type and shape with the same elements, whatever they are,
if and only if it has elements, at most 16 extents, and its elements are stored in the order of their indices. -/
theorem save_load_iff (hv : t.Valid h) :
    Reloads h t ↔ 0 < t.size ∧ t.shape.length ≤ 16 ∧ StoredInOrder t := by
  rw [UInt64.lt_iff_toNat_lt, hv.size_eq, UInt64.toNat_zero]
  constructor
  · intro hreloads
    obtain ⟨hpos, hdims⟩ := hreloads.dims
    exact ⟨hpos, hdims, hreloads.storedInOrder hv⟩
  · rintro ⟨hpos, hdims, horder⟩ data h₁
    obtain ⟨file, r, hsave, hr, hshape, hdtype, hbyte⟩ := save_load_spec (hv.refill data) hpos hdims h₁
    refine ⟨file, r, hsave, hr, hshape, hdtype, fun i hi b hb => ?_⟩
    rw [hbyte i hi b hb, byteAt_eq_itemByte, ← horder i hi]
    rfl

end Result

/-! ## Some tensors -/

/-- A two by three matrix. -/
theorem save_load_iff_rows :
    Reloads (tensorCreate Heap.empty [2, 3] .int16).1 (tensorCreate Heap.empty [2, 3] .int16).2 :=
  (save_load_iff (tensorCreate_valid Heap.empty (by decide))).mpr ⟨by decide, by decide, fun i _ => by rfl⟩

/-- The transpose of a two by three matrix; a matrix without rows; a tensor of 17 extents. -/
theorem not_reloads_tensors :
    (∃ r, chain (tensorCreate Heap.empty [2, 3] .int16) [.transpose 0 1] = .ok r ∧ ¬Reloads r.1 r.2) ∧
      ¬Reloads (tensorCreate Heap.empty [0, 3] .int16).1 (tensorCreate Heap.empty [0, 3] .int16).2 ∧
      ¬Reloads (tensorCreate Heap.empty (List.replicate 17 1) .int16).1
        (tensorCreate Heap.empty (List.replicate 17 1) .int16).2 := by
  refine ⟨⟨_, rfl, fun h => ?_⟩, fun h => ?_, fun h => ?_⟩
  · have hfit : AllFit (tensorCreate Heap.empty [2, 3] .int16) [.transpose 0 1] :=
      allFit_cons (fun _ _ => by decide) rfl trivial
    have hv := chain_valid _ (tensorCreate_valid Heap.empty (by decide)) hfit
    have horder := Reloads.storedInOrder hv h [0, 1]
      (within_cons.mpr ⟨by decide, within_cons.mpr ⟨by decide, .nil⟩⟩)
    exact absurd horder (by decide)
  · exact absurd h.dims.1 (by decide)
  · exact absurd h.dims.2 (by decide)

end SneppxAlg.TensorEngine
