import SneppxAlg.Fs.Safetensors
import SneppxAlg.Lib.CString
import SneppxAlg.Lib.PrintBuffer

/-!
# `numpy_format.c`: `.npy` files and stored `.npz` archives

A pointer into a buffer that a file has been read into is the list of the bytes from there to the end
of the buffer, which has no terminator: a read past its end is `undefined`, and so is a loop that
makes no progress. `char` is signed. Allocations and file operations succeed. The text of a header is
put together in `hdr[256]`; the central directory is written but never read.
-/

namespace SneppxAlg.Numpy

open Lib.Bytes Lib.CString Lib.PrintBuffer
open Safetensors (ascii Failure decimal peek strtol)

/-! ## Data types -/

/-- `NPYDType`, or another `int`. -/
inductive DType
  | float32 | float64 | float16 | int64 | int32 | int16 | int8 | uint8 | bool
  | other (code : ℤ) (h : code < 0 ∨ 8 < code)
  deriving DecidableEq

/-- `npy_esize`. -/
def esize : DType → ℕ
  | .float64 | .int64 => 8
  | .float32 | .int32 => 4
  | .float16 | .int16 => 2
  | .int8 | .uint8 | .bool => 1
  | .other _ _ => 0

/-- `npy_descr`. -/
def descr : DType → List UInt8
  | .float64 => ascii "<f8"
  | .float32 => ascii "<f4"
  | .float16 => ascii "<f2"
  | .int64 => ascii "<i8"
  | .int32 => ascii "<i4"
  | .int16 => ascii "<i2"
  | .int8 => ascii "<i1"
  | .uint8 => ascii "|u1"
  | .bool => ascii "|b1"
  | .other _ _ => ascii "<f4"

/-- `npy_dtype_from_descr`. -/
def dtypeFromDescr (d : List UInt8) : DType :=
  if d = ascii "<f8" then .float64
  else if d = ascii "<f4" then .float32
  else if d = ascii "<f2" then .float16
  else if d = ascii "<i8" then .int64
  else if d = ascii "<i4" then .int32
  else if d = ascii "<i2" then .int16
  else if d = ascii "<i1" then .int8
  else if d = ascii "|u1" then .uint8
  else if d = ascii "|b1" then .bool
  else .float32

/-- `NPYArray`. The shape holds `ndim` extents. -/
structure NPYArray where
  dtype : DType
  shape : List ℕ
  size : ℕ
  data : List UInt8
  deriving DecidableEq

/-- `total`: the bytes of the elements, with an extent of 0 counted as 1. -/
def totalBytes (dtype : DType) (shape : List ℕ) : ℕ :=
  shape.foldl (fun total d => total * (if d = 0 then 1 else d) % 2 ^ 64)
    (if esize dtype = 0 then 1 else esize dtype)

/-! ## Writing -/

/-- The texts that are printed for the extents. -/
def shapePieces : List ℕ → List (List UInt8)
  | [] => []
  | d :: ds => decimal d :: ds.map fun d => ascii ", " ++ decimal d

/-- The texts that are printed for the header. -/
def headerPieces (dtype : DType) (shape : List ℕ) : List (List UInt8) :=
  (ascii "\x7b'descr': '" ++ descr dtype ++ ascii "', 'fortran_order': False, 'shape': (") ::
    (shapePieces shape ++ [if shape.length = 1 then ascii ",)" else ascii ")", ascii "\x7d\n"])

instance (size : UInt64) (writes : List (ℕ × UInt8)) : Decidable (Inside size writes) :=
  inferInstanceAs (Decidable (∀ w ∈ writes, w.1 < size.toNat))

/-- The first `hl` bytes of `hdr`. -/
def header (dtype : DType) (shape : List ℕ) : Except Failure (List UInt8) :=
  let c := (headerPieces dtype shape).foldl (Cursor.put 256) ⟨0, []⟩
  if Inside 256 c.writes ∧ c.pos ≤ 256 then
    .ok ((List.range c.pos).map (readBack (fun _ => 0) c.writes))
  else .error .undefined

/-- The magic string and the version. -/
def magic : List UInt8 := [0x93, 0x4E, 0x55, 0x4D, 0x50, 0x59, 1, 0]

/-- What `npy_save` writes to its file and `npz_save` puts into `b`. -/
def npyBytes (data : List UInt8) (shape : List ℕ) (dtype : DType) : Except Failure (List UInt8) := do
  let total := totalBytes dtype shape
  let hdr ← header dtype shape
  let pad := (64 - (10 + hdr.length) % 64) % 64
  if data.length < total then .error .undefined
  else
    .ok (magic ++ leBytes 2 (hdr.length + pad) ++ hdr ++ List.replicate pad 0x20 ++ data.take total)

/-- `SNEPPX_npy_save`: the bytes of the file. -/
def npySave (data : List UInt8) (shape : List ℕ) (dtype : DType) : Except Failure (List UInt8) :=
  npyBytes data shape dtype

/-- One element of the arguments of `npz_save`. -/
structure Source where
  key : CStr
  data : List UInt8
  shape : List ℕ
  dtype : DType

/-- `fname`, of which `fnameLen` bytes are written; the array has one more byte. -/
def fname (key : CStr) (fnameLen : ℕ) : Except Failure (List UInt8) :=
  if (fnameLen + 1) % 2 ^ 32 = 0 then .error .undefined
  else .ok ((key.bytes ++ ascii ".npy").take fnameLen)

/-- The local header of an entry, its name and its bytes. -/
def localEntry (s : Source) : Except Failure (List UInt8) := do
  let b ← npyBytes s.data s.shape s.dtype
  let comp := totalBytes s.dtype s.shape
  let fnameLen := (s.key.bytes.length + 4) % 2 ^ 32
  let name ← fname s.key fnameLen
  .ok (leBytes 4 0x04034b50 ++ leBytes 2 20 ++ leBytes 2 0 ++ leBytes 2 0 ++ leBytes 2 0 ++
    leBytes 2 0 ++ leBytes 4 0 ++ leBytes 4 comp ++ leBytes 4 comp ++ leBytes 2 fnameLen ++
    leBytes 2 0 ++ name ++ b)

/-- The loop over the entries: their bytes, with the value of `cd_offset` before and the length of the
`.npy` file of each of them. -/
def writeLocals : ℕ → List Source → Except Failure (List UInt8 × List (CStr × ℕ × ℕ) × ℕ)
  | cdOffset, [] => .ok ([], [], cdOffset)
  | cdOffset, s :: ss => do
    let entry ← localEntry s
    let b ← npyBytes s.data s.shape s.dtype
    let fnameLen := (s.key.bytes.length + 4) % 2 ^ 32
    let (rest, dir, cdEnd) ← writeLocals ((cdOffset + 30 + fnameLen + b.length) % 2 ^ 32) ss
    .ok (entry ++ rest, (s.key, cdOffset, b.length) :: dir, cdEnd)

/-- A record of the central directory. -/
def centralEntry (key : CStr) (off len : ℕ) : Except Failure (List UInt8) := do
  let fnameLen := (key.bytes.length + 4) % 2 ^ 16
  let name ← fname key fnameLen
  .ok (leBytes 4 0x02014b50 ++ leBytes 2 20 ++ leBytes 2 20 ++ leBytes 2 0 ++ leBytes 2 0 ++
    leBytes 2 0 ++ leBytes 2 0 ++ leBytes 4 0 ++ leBytes 4 len ++ leBytes 4 len ++
    leBytes 2 fnameLen ++ leBytes 2 0 ++ leBytes 2 0 ++ leBytes 2 0 ++ leBytes 2 0 ++ leBytes 4 0 ++
    leBytes 4 off ++ name)

/-- `SNEPPX_npz_save`: the bytes of the file. `cd_offset` does not move while the directory is
written, so `cd_size` is 0. -/
def npzSave (ss : List Source) : Except Failure (List UInt8) := do
  let (locals, dir, cdStart) ← writeLocals 0 ss
  let central ← dir.mapM fun (key, off, len) => centralEntry key off len
  .ok (locals ++ central.flatten ++ (leBytes 4 0x06054b50 ++ leBytes 2 0 ++ leBytes 2 0 ++
    leBytes 2 ss.length ++ leBytes 2 ss.length ++ leBytes 4 0 ++ leBytes 4 cdStart ++ leBytes 2 0))

/-! ## Reading -/

/-- `strstr`: the string from the first occurrence on. -/
def strstr (pattern : List UInt8) : List UInt8 → Except Failure (Option (List UInt8))
  | [] => .error .undefined
  | c :: p =>
    if pattern <+: c :: p then .ok (some (c :: p))
    else if c = 0 then .ok none
    else strstr pattern p

/-- `strchr`, for a byte other than NUL. -/
def strchr (b : UInt8) : List UInt8 → Except Failure (Option (List UInt8))
  | [] => .error .undefined
  | c :: p => if c = b then .ok (some (c :: p)) else if c = 0 then .ok none else strchr b p

/-- The loop that copies the value of `'descr'`, with room for `n` bytes. -/
def copyDescr : ℕ → List UInt8 → Except Failure (List UInt8)
  | _, [] => .error .undefined
  | 0, _ :: _ => .ok []
  | n + 1, c :: p => if c = 0 ∨ c = 0x27 then .ok [] else (copyDescr n p).map (c :: ·)

/-- `descr`, given where `'descr'` is found. -/
def readDescr (d : List UInt8) : Except Failure (List UInt8) := do
  match ← strchr 0x3A (d.drop 7) with
  | none => .ok []
  | some q =>
    match ← strchr 0x27 q with
    | none => .ok []
    | some q => copyDescr 15 q.tail

/-- Skips bytes of a kind. -/
def skip (f : UInt8 → Bool) : List UInt8 → Except Failure (List UInt8)
  | [] => .error .undefined
  | c :: p => if f c then skip f p else .ok (c :: p)

/-- The loop over the extents; `longMax` is `LONG_MAX`. -/
def shapeLoop (longMax : ℕ) : ℕ → List ℕ → List UInt8 → Except Failure (List ℕ)
  | 0, _, _ => .error .undefined
  | fuel + 1, out, q => do
    let q ← skip (fun c => c == 0x20 || c == 0x0A || c == 0x09) q
    let c ← peek q
    if c = 0x29 ∨ c = 0 then .ok out
    else
      let (v, q) ← strtol longMax q
      let out := if out.length < 8 then out ++ [(v % 2 ^ 64).toNat] else out
      let q ← skip (fun c => c == 0x20 || c == 0x2C) q
      shapeLoop longMax fuel out q

/-- The shape, given where `'shape'` is found. -/
def readShape (longMax : ℕ) (s : List UInt8) : Except Failure (List ℕ) := do
  match ← strchr 0x28 (s.drop 7) with
  | none => .ok []
  | some q => shapeLoop longMax q.length [] q.tail

/-- The place that `strstr` finds, if `n` bytes from there are in front of the end of the header. -/
def findKey (pattern hdr : List UInt8) (hdrLen : ℤ) (n : ℕ) : Except Failure (Option (List UInt8)) := do
  let d ← strstr pattern hdr
  .ok (d.filter fun d => (hdr.length - d.length : ℤ) + n < hdrLen)

/-- `parse_npy_header`: the data type and the shape. -/
def parseNpyHeader (longMax : ℕ) (hdr : List UInt8) (hdrLen : ℤ) : Except Failure (DType × List ℕ) := do
  let name ← match ← findKey (ascii "'descr'") hdr hdrLen 8 with
    | none => .ok []
    | some d => readDescr d
  let shape ← match ← findKey (ascii "'shape'") hdr hdrLen 7 with
    | none => .ok []
    | some s => readShape longMax s
  .ok (if name = [] then .float32 else dtypeFromDescr name, shape)

def byteAt (buf : List UInt8) (i : ℕ) : Except Failure UInt8 := peek (buf.drop i)

/-- `hlen`, put together from the bytes behind the version as `word` makes `int`s of them. -/
def headerLen (word : UInt8 → Int32) (buf : List UInt8) : Except Failure Int32 := do
  let b8 := word (← byteAt buf 8)
  let b9 := word (← byteAt buf 9)
  if (← byteAt buf 6) = 1 then .ok (b8 ||| b9 <<< 8)
  else do
    let b10 := word (← byteAt buf 10)
    let b11 := word (← byteAt buf 11)
    .ok (b8 ||| b9 <<< 8 ||| b10 <<< 16 ||| b11 <<< 24)

/-- `header_off`. -/
def headerOff (buf : List UInt8) : Except Failure ℕ := do
  if (← byteAt buf 6) = 1 then .ok 10 else .ok 12

/-- A sum of `size_t`s, the second converted from an `int`. -/
def addSize (a : ℕ) (b : ℤ) : ℕ := ((a + b) % 2 ^ 64).toNat

/-- The part that `npy_load` and `npy_from_bytes` share: the header is parsed, and the elements are
copied if they end among the first `len` bytes of the buffer. -/
def readArray (longMax : ℕ) (buf : List UInt8) (len off : ℕ) (hlen : Int32) : Except Failure NPYArray := do
  let (dtype, shape) ← parseNpyHeader longMax (buf.drop off) hlen.toInt
  let total := totalBytes dtype shape
  let dataOff := addSize off hlen.toInt
  if (dataOff + total) % 2 ^ 64 > len then .error .null
  else if buf.length < dataOff + total then .error .undefined
  else .ok ⟨dtype, shape, total, (buf.drop dataOff).take total⟩

/-- `SNEPPX_npy_load`, given the bytes of the file. -/
def npyLoad (longMax : ℕ) (file : List UInt8) : Except Failure NPYArray := do
  if file.length < 10 then .error .null
  else if file.take 6 ≠ magic.take 6 then .error .null
  else
    let hlen ← headerLen (fun b => b.toInt8.toInt32) file
    let off ← headerOff file
    if addSize off hlen.toInt > file.length then .error .null
    else readArray longMax file file.length off hlen

/-- `npy_from_bytes` for the first `blen` bytes of what is left of the archive. -/
def npyFromBytes (longMax : ℕ) (b : List UInt8) (blen : ℕ) : Except Failure NPYArray := do
  if blen < 10 then .error .null
  else if b.take 2 ≠ magic.take 2 then .error .null
  else
    let hlen ← headerLen (fun b => b.toUInt32.toInt32) b
    let off ← headerOff b
    readArray longMax b blen off hlen

/-- The field of `n` bytes at a place. -/
def field (file : List UInt8) (pos n : ℕ) : ℕ := leVal ((file.drop pos).take n)

/-- The loop of `npz_load` from `pos` on: the names, read as C strings, and the arrays. -/
def npzLoop (longMax : ℕ) (file : List UInt8) :
    ℕ → ℕ → Except Failure (List (List UInt8 × Option NPYArray))
  | 0, _ => .error .undefined
  | fuel + 1, pos =>
    if pos + 30 ≤ file.length ∧ field file pos 4 = 0x04034b50 then
      let method := field file (pos + 8) 2
      let compSize := field file (pos + 18) 4
      let fnameLen := field file (pos + 26) 2
      let extraLen := field file (pos + 28) 2
      let dataOff := pos + 30 + fnameLen + extraLen
      if dataOff + compSize > file.length then .ok []
      else if method = 0 then do
        let name := ((file.drop (pos + 30)).take fnameLen).takeWhile (· ≠ 0)
        let arr ← Safetensors.attempt (npyFromBytes longMax (file.drop dataOff) compSize)
        let rest ← npzLoop longMax file fuel (dataOff + compSize)
        .ok ((name, arr) :: rest)
      else npzLoop longMax file fuel (dataOff + compSize)
    else .ok []

/-- `SNEPPX_npz_load`, given the bytes of the file: the keys and the arrays. -/
def npzLoad (longMax : ℕ) (file : List UInt8) : Except Failure (List (List UInt8 × Option NPYArray)) :=
  npzLoop longMax file (file.length + 1) 0

end SneppxAlg.Numpy
