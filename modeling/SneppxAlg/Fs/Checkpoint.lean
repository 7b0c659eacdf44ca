import SneppxAlg.Lib.Packed

/-!
# `checkpoint_reader.c`: checkpoint files

A file is the list of its bytes; the structures are packed and little-endian, as the header says. The
calls to `fopen`, `fwrite` and the allocator succeed. A failed `fseek` leaves the position of the
file alone.
-/

namespace SneppxAlg.Checkpoint

open Lib.Packed

/-- `SNEPPXCheckpointHeader`. -/
structure Header where
  magicLo : UInt32
  magicHi : UInt32
  version : UInt32
  numTensors : UInt32
  metadataOffset : UInt64
  metadataSize : UInt64
  totalSize : UInt64
  reserved : Vector UInt8 32
deriving DecidableEq

/-- `SNEPPXTensorRecord`. -/
structure TensorRecord where
  shape : Vector UInt64 8
  ndim : UInt32
  dtype : UInt32
  dataOffset : UInt64
  dataSize : UInt64
  stride : Vector UInt64 8
deriving DecidableEq

open Layout in
def headerLayout : Layout Header :=
  ofFields
    (u32.prod (u32.prod (u32.prod (u32.prod (u64.prod (u64.prod (u64.prod (u8.vector 32))))))))
    (fun h => (h.magicLo, h.magicHi, h.version, h.numTensors, h.metadataOffset, h.metadataSize,
      h.totalSize, h.reserved))
    (fun x => ⟨x.1, x.2.1, x.2.2.1, x.2.2.2.1, x.2.2.2.2.1, x.2.2.2.2.2.1, x.2.2.2.2.2.2.1,
      x.2.2.2.2.2.2.2⟩)
    (fun _ => rfl)

open Layout in
def recordLayout : Layout TensorRecord :=
  ofFields ((u64.vector 8).prod (u32.prod (u32.prod (u64.prod (u64.prod (u64.vector 8))))))
    (fun r => (r.shape, r.ndim, r.dtype, r.dataOffset, r.dataSize, r.stride))
    (fun x => ⟨x.1, x.2.1, x.2.2.1, x.2.2.2.1, x.2.2.2.2.1, x.2.2.2.2.2⟩)
    (fun _ => rfl)

/-- `SNEPPX_CKPT_MAGIC`. -/
def magic : UInt32 := 0x41524958

/-- `SNEPPX_CKPT_MAGIC_HI`. -/
def magicHi : UInt32 := 0x434B5054

/-- `SNEPPX_CKPT_VERSION`. -/
def version : UInt32 := 1

/-! ## Writer -/

/-- `SNEPPXCkptHandle` of a file that is written. -/
structure WriteHandle where
  file : List UInt8
  header : Header
  records : List TensorRecord
  numRecords : UInt32

/-- A record as `calloc` leaves it. -/
def zeroRecord : TensorRecord :=
  { shape := Vector.replicate 8 0, ndim := 0, dtype := 0, dataOffset := 0, dataSize := 0
    stride := Vector.replicate 8 0 }

/-- `SNEPPX_ckpt_write_open`. -/
def writeOpen (header : Header) : WriteHandle :=
  let h := { header with magicLo := magic, magicHi := magicHi, version := version }
  let records := List.replicate header.numTensors.toNat zeroRecord
  { file := headerLayout.encode h ++ records.flatMap recordLayout.encode
    header := h
    records := records
    numRecords := header.numTensors }

/-- `SNEPPX_ckpt_write_tensor`; none where it returns -1. -/
def writeTensor (h : WriteHandle) (tensorData : List UInt8) (record : TensorRecord) :
    Option WriteHandle :=
  if h.numRecords = 0 then none
  else
    let idx := (h.header.numTensors - h.numRecords).toNat
    let dataOffset := h.file.length
    let record := { record with dataOffset := UInt64.ofNat dataOffset }
    let recordPos := headerLayout.size + idx * recordLayout.size
    let file := overwrite h.file recordPos (recordLayout.encode record)
    let file := overwrite file file.length (tensorData.take record.dataSize.toNat)
    some { h with
      file := file
      records := h.records.set idx record
      numRecords := h.numRecords - 1 }

/-- `SNEPPX_ckpt_write_metadata`. -/
def writeMetadata (h : WriteHandle) (metadataJson : List UInt8) : WriteHandle :=
  { h with
    header := { h.header with
      metadataOffset := UInt64.ofNat h.file.length
      metadataSize := UInt64.ofNat metadataJson.length }
    file := overwrite h.file h.file.length metadataJson }

/-- `SNEPPX_ckpt_write_close`: the file it leaves. -/
def writeClose (h : WriteHandle) : List UInt8 :=
  let header := { h.header with totalSize := UInt64.ofNat h.file.length }
  overwrite h.file 0 (headerLayout.encode header)

/-! ## Reader -/

/-- `SNEPPXCkptHandle` of a file that is read. -/
structure ReadHandle where
  file : List UInt8
  pos : ℕ
  header : Header
  records : List TensorRecord

/-- `SNEPPX_ckpt_read_open`; none where it returns -1. -/
def readOpen (file : List UInt8) : Option ReadHandle :=
  if file.length < headerLayout.size then none
  else
    let header := headerLayout.decode file
    if header.magicLo ≠ magic ∨ header.magicHi ≠ magicHi then none
    else
      let n := header.numTensors.toNat
      let table := file.drop headerLayout.size
      if table.length < n * recordLayout.size then none
      else some {
        file := file
        pos := headerLayout.size + n * recordLayout.size
        header := header
        records := (List.range n).map fun i => recordLayout.decode (table.drop (i * recordLayout.size)) }

/-- `FSEEK64` to an offset and `fread` of `size` bytes: the bytes read and the handle. -/
def seekRead (h : ReadHandle) (offset size : UInt64) : List UInt8 × ReadHandle :=
  let pos := if offset.toNat < 2 ^ 63 then offset.toNat else h.pos
  let data := (h.file.drop pos).take size.toNat
  (data, { h with pos := pos + data.length })

/-- `SNEPPX_ckpt_read_tensor`: the record and the data, unless it returns -1. -/
def readTensor (h : ReadHandle) (idx : ℕ) : Option (TensorRecord × List UInt8) × ReadHandle :=
  if idx ≥ h.header.numTensors.toNat then (none, h)
  else
    let record := h.records.getD idx zeroRecord
    let (data, h) := seekRead h record.dataOffset record.dataSize
    if data.length ≠ record.dataSize.toNat then (none, h) else (some (record, data), h)

/-- `SNEPPX_ckpt_read_metadata`: the bytes, unless it returns -1. -/
def readMetadata (h : ReadHandle) : Option (List UInt8) × ReadHandle :=
  if h.header.metadataSize = 0 then (some [], h)
  else
    let (data, h) := seekRead h h.header.metadataOffset h.header.metadataSize
    if data.length ≠ h.header.metadataSize.toNat then (none, h) else (some data, h)

end SneppxAlg.Checkpoint
