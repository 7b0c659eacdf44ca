import SneppxAlg.Fs.Checkpoint

/-!
# `checkpoint_reader.c`: what is written is read back

At any time the file is the header, the table of records and a body to which every write appends
(`Inv`). Patching a record or the header changes bytes of the table or of the header only, so the
parts of the body stay where their offsets say, whatever the order of the writes (`read_write`).
-/

namespace SneppxAlg.Checkpoint

open Lib.Packed

/-! ## Runs of the writer -/

/-- A record and its data. -/
structure Tensor where
  record : TensorRecord
  data : List UInt8
  length_data : data.length = record.dataSize.toNat

/-- A call between `write_open` and `write_close`. -/
inductive WriteOp where
  | tensor (t : Tensor)
  | metadata (json : List UInt8)

/-- The handle after a call. -/
def WriteOp.step (h : WriteHandle) : WriteOp → Option WriteHandle
  | .tensor t => writeTensor h t.data t.record
  | .metadata json => some (writeMetadata h json)

/-- The handle after a sequence of calls. -/
def writeRun : WriteHandle → List WriteOp → Option WriteHandle
  | h, [] => some h
  | h, op :: ops => (op.step h).bind fun h => writeRun h ops

/-- The tensors written, in order. -/
def tensors : List WriteOp → List Tensor
  | [] => []
  | .tensor t :: ops => t :: tensors ops
  | .metadata _ :: ops => tensors ops

/-- The metadata written last, given those written before. -/
def lastMetadata : Option (List UInt8) → List WriteOp → Option (List UInt8)
  | md, [] => md
  | md, .tensor _ :: ops => lastMetadata md ops
  | _, .metadata json :: ops => lastMetadata (some json) ops

/-- The bytes that a call appends to the file. -/
def WriteOp.payload : WriteOp → List UInt8
  | .tensor t => t.data
  | .metadata json => json

/-- The size of the header and of the table of records. -/
def tableEnd (n : ℕ) : ℕ := headerLayout.size + n * recordLayout.size

/-- The size of the file, which must be an `off64_t` for its writes to succeed. -/
def fileSize (n : ℕ) (ops : List WriteOp) : ℕ := tableEnd n + (ops.flatMap WriteOp.payload).length

/-! ## The file -/

/-- A part of the body, which starts at offset `base` of the file, is found at an offset. -/
def Stored (base : ℕ) (body : List UInt8) (o : ℕ) (data : List UInt8) : Prop :=
  ∃ u v, body = u ++ data ++ v ∧ o = base + u.length

theorem stored_append {base : ℕ} (body data : List UInt8) :
    Stored base (body ++ data) (base + body.length) data :=
  ⟨body, [], by simp, rfl⟩

theorem Stored.append {base o : ℕ} {body data : List UInt8} (h : Stored base body o data)
    (more : List UInt8) : Stored base (body ++ more) o data := by
  obtain ⟨u, v, rfl, ho⟩ := h
  exact ⟨u, v ++ more, by simp, ho⟩

theorem Stored.read {front body data : List UInt8} {o : ℕ} (h : Stored front.length body o data) :
    ((front ++ body).drop o).take data.length = data ∧ o ≤ front.length + body.length := by
  obtain ⟨u, v, rfl, rfl⟩ := h
  constructor
  · rw [List.append_assoc u, ← List.append_assoc front, ← List.length_append,
      List.drop_left' rfl, List.take_left' rfl]
  · simp only [List.length_append]
    omega

/-- What holds of a handle after some calls. -/
structure Inv (n : ℕ) (ts : List Tensor) (md : Option (List UInt8)) (body : List UInt8)
    (h : WriteHandle) : Prop where
  file : ∃ header, h.file =
    headerLayout.encode header ++ h.records.flatMap recordLayout.encode ++ body
  length_records : h.records.length = n
  numTensors : h.header.numTensors.toNat = n
  numRecords : h.numRecords.toNat + ts.length = n
  magicLo : h.header.magicLo = magic
  magicHi : h.header.magicHi = Checkpoint.magicHi
  records : ∀ i (hi : i < ts.length), ∃ o, Stored (tableEnd n) body o ts[i].data ∧
    h.records[i]? = some { ts[i].record with dataOffset := UInt64.ofNat o }
  metadata : ∀ json, md = some json → ∃ o, Stored (tableEnd n) body o json ∧
    h.header.metadataOffset = UInt64.ofNat o ∧ h.header.metadataSize = UInt64.ofNat json.length

section

variable {n : ℕ} {ts : List Tensor} {md : Option (List UInt8)} {body : List UInt8} {h : WriteHandle}

theorem Inv.length_front (hinv : Inv n ts md body h) (header : Header) :
    (headerLayout.encode header ++ h.records.flatMap recordLayout.encode).length = tableEnd n := by
  rw [List.length_append, headerLayout.length_encode, recordLayout.length_flatMap,
    hinv.length_records, tableEnd]

theorem Inv.length_file (hinv : Inv n ts md body h) : h.file.length = tableEnd n + body.length := by
  obtain ⟨header, hfile⟩ := hinv.file
  rw [hfile, List.length_append, hinv.length_front]

theorem inv_writeOpen (header : Header) :
    Inv header.numTensors.toNat [] none [] (writeOpen header) where
  file := ⟨_, (List.append_nil _).symm⟩
  length_records := List.length_replicate
  numTensors := rfl
  numRecords := rfl
  magicLo := rfl
  magicHi := rfl
  records := fun i hi => absurd hi (Nat.not_lt_zero i)
  metadata := fun json hjson => by cases hjson

/-- Patching a record of the table. -/
theorem overwrite_record (header : Header) {records : List TensorRecord} {i : ℕ}
    (hi : i < records.length) (record : TensorRecord) (body : List UInt8) :
    overwrite (headerLayout.encode header ++ records.flatMap recordLayout.encode ++ body)
        (headerLayout.size + i * recordLayout.size) (recordLayout.encode record) =
      headerLayout.encode header ++ (records.set i record).flatMap recordLayout.encode ++ body := by
  have hsplit : records = records.take i ++ records[i] :: records.drop (i + 1) := by
    rw [← List.drop_eq_getElem_cons hi, List.take_append_drop]
  have hflat : records.flatMap recordLayout.encode = (records.take i).flatMap recordLayout.encode ++
      recordLayout.encode records[i] ++ (records.drop (i + 1)).flatMap recordLayout.encode := by
    conv_lhs => rw [hsplit]
    rw [List.flatMap_append, List.flatMap_cons, List.append_assoc]
  have hset : (records.set i record).flatMap recordLayout.encode =
      (records.take i).flatMap recordLayout.encode ++ recordLayout.encode record ++
        (records.drop (i + 1)).flatMap recordLayout.encode := by
    rw [List.set_eq_take_append_cons_drop, if_pos hi, List.flatMap_append, List.flatMap_cons,
      List.append_assoc]
  have hpos : headerLayout.size + i * recordLayout.size =
      (headerLayout.encode header ++ (records.take i).flatMap recordLayout.encode).length := by
    rw [List.length_append, headerLayout.length_encode, recordLayout.length_flatMap,
      List.length_take, Nat.min_eq_left hi.le]
  have hlen : (recordLayout.encode record).length = (recordLayout.encode records[i]).length := by
    rw [recordLayout.length_encode, recordLayout.length_encode]
  have hpart := overwrite_part (headerLayout.encode header ++
    (records.take i).flatMap recordLayout.encode) hlen
    ((records.drop (i + 1)).flatMap recordLayout.encode ++ body)
  rw [hflat, hset, hpos]
  simpa only [List.append_assoc] using hpart

/-- A tensor takes the next record, and its data the end of the body. -/
theorem Inv.tensor (hinv : Inv n ts md body h) (hlt : ts.length < n) (t : Tensor) :
    ∃ h', (WriteOp.tensor t).step h = some h' ∧ Inv n (ts ++ [t]) md (body ++ t.data) h' := by
  have hnum := hinv.numRecords
  have hne : h.numRecords ≠ 0 := by
    intro hzero
    rw [hzero] at hnum
    simp at hnum
    omega
  have hidx : (h.header.numTensors - h.numRecords).toNat = ts.length := by
    rw [UInt32.toNat_sub_of_le _ _ (UInt32.le_iff_toNat_le.mpr (by rw [hinv.numTensors]; omega)),
      hinv.numTensors]
    omega
  have hdec : (h.numRecords - 1).toNat = h.numRecords.toNat - 1 := by
    apply UInt32.toNat_sub_of_le
    rw [UInt32.le_iff_toNat_le]
    have h1 : (1 : UInt32).toNat = 1 := rfl
    omega
  obtain ⟨header, hfile⟩ := hinv.file
  have hrec : ts.length < h.records.length := by rw [hinv.length_records]; exact hlt
  set record : TensorRecord := { t.record with dataOffset := UInt64.ofNat h.file.length } with hrecord
  have htake : t.data.take t.record.dataSize.toNat = t.data :=
    List.take_of_length_le t.length_data.le
  refine ⟨{ h with
    file := overwrite h.file (headerLayout.size + ts.length * recordLayout.size)
      (recordLayout.encode record) ++ t.data
    records := h.records.set ts.length record
    numRecords := h.numRecords - 1 }, ?_, ?_, ?_, hinv.numTensors, ?_, hinv.magicLo, hinv.magicHi,
    ?_, ?_⟩
  · simp only [WriteOp.step, writeTensor, if_neg hne, hidx, overwrite_end, ← hrecord, htake]
  · refine ⟨header, ?_⟩
    dsimp only
    rw [hfile, overwrite_record header hrec, List.append_assoc]
  · rw [List.length_set, hinv.length_records]
  · rw [hdec, List.length_append, List.length_singleton]
    omega
  · intro i hi
    by_cases hit : i < ts.length
    · obtain ⟨o, hstored, hget⟩ := hinv.records i hit
      refine ⟨o, ?_, ?_⟩
      · rw [List.getElem_append_left hit]
        exact hstored.append t.data
      · rw [List.getElem_append_left hit, List.getElem?_set_ne (by omega)]
        exact hget
    · obtain rfl : i = ts.length := by
        rw [List.length_append, List.length_singleton] at hi
        omega
      refine ⟨tableEnd n + body.length, ?_, ?_⟩
      · rw [List.getElem_append_right le_rfl]
        simpa using stored_append body t.data
      · rw [List.getElem_append_right le_rfl, List.getElem?_set_self hrec, hrecord,
          hinv.length_file]
        simp
  · intro json hjson
    obtain ⟨o, hstored, hhead⟩ := hinv.metadata json hjson
    exact ⟨o, hstored.append t.data, hhead⟩

theorem Inv.writeMetadata (hinv : Inv n ts md body h) (json : List UInt8) :
    Inv n ts (some json) (body ++ json) (Checkpoint.writeMetadata h json) where
  file := by
    obtain ⟨header, hfile⟩ := hinv.file
    refine ⟨header, ?_⟩
    simp only [Checkpoint.writeMetadata, overwrite_end]
    rw [hfile, List.append_assoc]
  length_records := hinv.length_records
  numTensors := hinv.numTensors
  numRecords := hinv.numRecords
  magicLo := hinv.magicLo
  magicHi := hinv.magicHi
  records := by
    intro i hi
    obtain ⟨o, hstored, hget⟩ := hinv.records i hi
    exact ⟨o, hstored.append json, hget⟩
  metadata := by
    rintro json' ⟨⟩
    refine ⟨tableEnd n + body.length, stored_append body json, ?_, rfl⟩
    rw [← hinv.length_file]
    rfl

/-- All calls succeed, and keep the invariant. -/
theorem Inv.run (hinv : Inv n ts md body h) (ops : List WriteOp)
    (hn : ts.length + (tensors ops).length = n) :
    ∃ h', writeRun h ops = some h' ∧
      Inv n (ts ++ tensors ops) (lastMetadata md ops) (body ++ ops.flatMap WriteOp.payload) h' := by
  induction ops generalizing h ts md body with
  | nil => exact ⟨h, rfl, by simpa [tensors, lastMetadata] using hinv⟩
  | cons op ops ih =>
    cases op with
    | tensor t =>
      rw [tensors, List.length_cons] at hn
      obtain ⟨h1, hstep, hinv1⟩ := hinv.tensor (by omega) t
      obtain ⟨h', hrun, hinv'⟩ := ih hinv1 (by rw [List.length_append, List.length_singleton]; omega)
      refine ⟨h', ?_, ?_⟩
      · rw [writeRun, hstep, Option.bind_some, hrun]
      · simpa [tensors, lastMetadata, WriteOp.payload] using hinv'
    | metadata json =>
      obtain ⟨h', hrun, hinv'⟩ := ih (hinv.writeMetadata json) hn
      refine ⟨h', hrun, ?_⟩
      simpa [tensors, lastMetadata, WriteOp.payload] using hinv'

/-! ## The reader -/

/-- The file that `write_close` leaves: the last header, the table and the body. -/
theorem Inv.writeClose (hinv : Inv n ts md body h) :
    ∃ header, writeClose h =
        headerLayout.encode header ++ h.records.flatMap recordLayout.encode ++ body ∧
      header = { h.header with totalSize := UInt64.ofNat h.file.length } := by
  obtain ⟨header, hfile⟩ := hinv.file
  have hpatch (last : Header) : overwrite h.file 0 (headerLayout.encode last) =
      headerLayout.encode last ++ h.records.flatMap recordLayout.encode ++ body := by
    have hlen : (headerLayout.encode last).length = (headerLayout.encode header).length := by
      rw [headerLayout.length_encode, headerLayout.length_encode]
    have hpart := overwrite_part [] hlen (h.records.flatMap recordLayout.encode ++ body)
    rw [hfile]
    simpa only [List.append_assoc, List.nil_append, List.length_nil] using hpart
  exact ⟨_, hpatch _, rfl⟩

/-- The handle that `read_open` gives for such a file. -/
theorem readOpen_eq {header : Header} {records : List TensorRecord}
    (hlo : header.magicLo = magic) (hhi : header.magicHi = Checkpoint.magicHi)
    (hn : records.length = header.numTensors.toNat) (body : List UInt8) :
    readOpen (headerLayout.encode header ++ records.flatMap recordLayout.encode ++ body) =
      some ⟨headerLayout.encode header ++ records.flatMap recordLayout.encode ++ body,
        headerLayout.size + header.numTensors.toNat * recordLayout.size, header, records⟩ := by
  have hlen : ¬ (headerLayout.encode header ++ records.flatMap recordLayout.encode ++ body).length <
      headerLayout.size := by
    simp only [List.length_append, headerLayout.length_encode]
    omega
  have hdec : headerLayout.decode
      (headerLayout.encode header ++ records.flatMap recordLayout.encode ++ body) = header := by
    rw [List.append_assoc, headerLayout.decode_encode]
  have hdrop : (headerLayout.encode header ++ records.flatMap recordLayout.encode ++ body).drop
      headerLayout.size = records.flatMap recordLayout.encode ++ body := by
    rw [List.append_assoc, List.drop_left' (headerLayout.length_encode _)]
  have htable : ¬ (records.flatMap recordLayout.encode ++ body).length <
      header.numTensors.toNat * recordLayout.size := by
    rw [List.length_append, recordLayout.length_flatMap, hn]
    omega
  have hrecords : ((List.range header.numTensors.toNat).map fun i => recordLayout.decode
      ((records.flatMap recordLayout.encode ++ body).drop (i * recordLayout.size))) = records := by
    apply List.ext_getElem
    · simp [hn]
    · intro i h1 h2
      rw [List.getElem_map, List.getElem_range, recordLayout.decode_drop_flatMap h2]
  unfold readOpen
  rw [if_neg hlen]
  simp only [hdec, hdrop]
  rw [if_neg (by simp [hlo, hhi]), if_neg htable, hrecords]

/-- A part of the body is read back, wherever the file was positioned. -/
theorem seekRead_of_stored {front body data : List UInt8} {o : ℕ} {r : ReadHandle}
    (hfile : r.file = front ++ body) (hstored : Stored front.length body o data)
    (hsize : front.length + body.length < 2 ^ 63) :
    (seekRead r (UInt64.ofNat o) (UInt64.ofNat data.length)).1 = data := by
  obtain ⟨hread, ho⟩ := hstored.read
  have hlen : data.length ≤ body.length := by
    obtain ⟨u, v, rfl, -⟩ := hstored
    simp only [List.length_append]
    omega
  have hofs : (UInt64.ofNat o).toNat = o :=
    UInt64.toNat_ofNat_of_lt' (by simp only [UInt64.size]; omega)
  have hdata : (UInt64.ofNat data.length).toNat = data.length :=
    UInt64.toNat_ofNat_of_lt' (by simp only [UInt64.size]; omega)
  simp only [seekRead, hofs, hdata]
  rw [if_pos (by omega), hfile, hread]

end

/-- **Round trip.** The calls of any run that writes as many tensors as the header says succeed, and
the file left opens and gives back, at any position and in any order, every record but for its
offset, its data, and the metadata written last. -/
theorem read_write {header : Header} {ops : List WriteOp} {json : List UInt8}
    (hn : (tensors ops).length = header.numTensors.toNat)
    (hjson : lastMetadata none ops = some json)
    (hsize : fileSize header.numTensors.toNat ops < 2 ^ 63) :
    ∃ h r, writeRun (writeOpen header) ops = some h ∧ readOpen (writeClose h) = some r ∧
      ∀ pos, (∀ i (hi : i < (tensors ops).length), ∃ offset,
          (readTensor { r with pos := pos } i).1 =
            some ({ (tensors ops)[i].record with dataOffset := offset }, (tensors ops)[i].data)) ∧
        (readMetadata { r with pos := pos }).1 = some json := by
  obtain ⟨h, hrun, hinv⟩ := (inv_writeOpen header).run ops (by simpa using hn)
  rw [List.nil_append, List.nil_append] at hinv
  obtain ⟨last, hclose, hlast⟩ := hinv.writeClose
  have hlo : last.magicLo = magic := by rw [hlast]; exact hinv.magicLo
  have hhi : last.magicHi = magicHi := by rw [hlast]; exact hinv.magicHi
  have hnum : h.records.length = last.numTensors.toNat := by
    rw [hlast, hinv.length_records]
    exact hinv.numTensors.symm
  have hopen := readOpen_eq hlo hhi hnum (ops.flatMap WriteOp.payload)
  have hfront := hinv.length_front last
  have hbound : (headerLayout.encode last ++ h.records.flatMap recordLayout.encode).length +
      (ops.flatMap WriteOp.payload).length < 2 ^ 63 := by
    rw [hfront]
    exact hsize
  refine ⟨h, _, hrun, by rw [hclose, hopen], fun pos => ⟨fun i hi => ?_, ?_⟩⟩
  · obtain ⟨o, hstored, hget⟩ := hinv.records i hi
    rw [← hfront] at hstored
    have hread := seekRead_of_stored (r := ⟨_, pos, last, h.records⟩) rfl hstored hbound
    have hdata := (tensors ops)[i].length_data
    rw [hdata, UInt64.ofNat_toNat] at hread
    have hlt : ¬ i ≥ last.numTensors.toNat := by
      rw [hlast, hinv.numTensors, ← hn]
      omega
    have hgetD : h.records.getD i zeroRecord =
        { (tensors ops)[i].record with dataOffset := UInt64.ofNat o } := by
      rw [List.getD_eq_getElem?_getD, hget]
      rfl
    refine ⟨UInt64.ofNat o, ?_⟩
    simp only [readTensor, if_neg hlt, hgetD]
    rw [hread, if_neg (by rw [hdata]; simp)]
  · obtain ⟨o, hstored, hoff, hlen⟩ := hinv.metadata json hjson
    rw [← hfront] at hstored
    have hread := seekRead_of_stored (r := ⟨_, pos, last, h.records⟩) rfl hstored hbound
    have hnat : (UInt64.ofNat json.length).toNat = json.length := by
      obtain ⟨u, v, hbody, -⟩ := hstored
      rw [hbody] at hbound
      simp only [List.length_append] at hbound
      exact UInt64.toNat_ofNat_of_lt' (by simp only [UInt64.size]; omega)
    have hoff' : last.metadataOffset = UInt64.ofNat o := by rw [hlast]; exact hoff
    have hlen' : last.metadataSize = UInt64.ofNat json.length := by rw [hlast]; exact hlen
    unfold readMetadata
    dsimp only
    rw [hoff', hlen']
    split
    · rename_i hzero
      have hnil : json.length = 0 := by
        rw [← hnat, hzero]
        rfl
      rw [List.length_eq_zero_iff.mp hnil]
    · rw [hread, if_neg (by simp only [seekRead, hlen', hnat]; simp)]

def twoBytes : Tensor where
  record := { zeroRecord with ndim := 1, dataSize := 2 }
  data := [7, 8]
  length_data := rfl

/-- One tensor between two writes of metadata. -/
theorem read_write_one :
    let header : Header := ⟨0, 0, 0, 1, 0, 0, 0, Vector.replicate 32 0⟩
    ∃ h r offset, writeRun (writeOpen header)
        [.metadata [1], .tensor twoBytes, .metadata [123, 125]] = some h ∧
      readOpen (writeClose h) = some r ∧
      (readTensor r 0).1 = some ({ twoBytes.record with dataOffset := offset }, [7, 8]) ∧
      (readMetadata r).1 = some [123, 125] := by
  intro header
  obtain ⟨h, r, hrun, hopen, hread⟩ := @read_write header
    [.metadata [1], .tensor twoBytes, .metadata [123, 125]] [123, 125] rfl rfl (by decide)
  obtain ⟨htensor, hmeta⟩ := hread r.pos
  obtain ⟨offset, htensor⟩ := htensor 0 Nat.one_pos
  exact ⟨h, r, offset, hrun, hopen, htensor, hmeta⟩

end SneppxAlg.Checkpoint
