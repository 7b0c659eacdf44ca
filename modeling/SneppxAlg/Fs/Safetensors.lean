import SneppxAlg.Lib.Bytes

/-!
# `safetensors.c`: the writer and the reader of `.safetensors` files

A file is an 8-byte little-endian header length, a JSON header that gives each tensor its data
type, its shape and its place in the byte buffer, and that byte buffer.

A pointer into the buffer of an open file is modelled by the bytes from there to the end of the
buffer. The buffer has no terminator, so every read is checked: one past its end is `undefined`, and
so is a copy that leaves its source or its target. Allocations and file operations succeed. The
loops of the reader are given as many steps as there are bytes left, since each of them moves on.
-/

namespace SneppxAlg.Safetensors

open Lib.Bytes

/-- The bytes of an ASCII text. -/
def ascii (s : String) : List UInt8 := s.toList.map fun c => UInt8.ofNat c.toNat

/-- How a call fails: it returns `NULL` (or -1), or its behaviour is not defined. -/
inductive Failure
  | null
  | undefined
  deriving DecidableEq

/-- What a caller sees that tests a result for `NULL`. -/
def attempt {α : Type} : Except Failure α → Except Failure (Option α)
  | .ok a => .ok (some a)
  | .error .null => .ok none
  | .error .undefined => .error .undefined

/-! ## Data types -/

/-- A data type code: one of `SNEPPXSafetensorsDType`, or another `int`. -/
inductive DType
  | F32 | F16 | F64 | I64 | I32 | I16 | I8 | U8 | BOOL | BF16 | F8_E5M2 | F8_E4M3FN
  | other (code : ℤ) (h : code < 0 ∨ 11 < code)
  deriving DecidableEq

/-- `SNEPPX_safetensors_dtype_size`. -/
def dtypeSize : DType → ℕ
  | .F64 | .I64 => 8
  | .F32 | .I32 => 4
  | .F16 | .BF16 => 2
  | .F8_E5M2 | .F8_E4M3FN => 1
  | .I16 => 2
  | .I8 | .U8 | .BOOL => 1
  | .other _ _ => 0

/-- `dtype_to_str`. -/
def dtypeToStr : DType → List UInt8
  | .F64 => ascii "F64"
  | .F32 => ascii "F32"
  | .F16 => ascii "F16"
  | .BF16 => ascii "BF16"
  | .I64 => ascii "I64"
  | .I32 => ascii "I32"
  | .I16 => ascii "I16"
  | .I8 => ascii "I8"
  | .U8 => ascii "U8"
  | .BOOL => ascii "BOOL"
  | .F8_E5M2 => ascii "F8_E5M2"
  | .F8_E4M3FN => ascii "F8_E4M3FN"
  | .other _ _ => ascii "F32"

/-- `dtype_from_str`. -/
def dtypeFromStr (s : List UInt8) : DType :=
  if s = ascii "F64" then .F64
  else if s = ascii "F32" then .F32
  else if s = ascii "F16" then .F16
  else if s = ascii "BF16" then .BF16
  else if s = ascii "I64" then .I64
  else if s = ascii "I32" then .I32
  else if s = ascii "I16" then .I16
  else if s = ascii "I8" then .I8
  else if s = ascii "U8" then .U8
  else if s = ascii "BOOL" then .BOOL
  else if s = ascii "F8_E5M2" then .F8_E5M2
  else if s = ascii "F8_E4M3FN" then .F8_E4M3FN
  else .F32

/-- `STEntry`. The shape holds `ndim` extents. -/
structure Entry where
  name : List UInt8
  dtype : DType := .F32
  shape : List ℕ := []
  offStart : ℕ := 0
  offEnd : ℕ := 0
  deriving DecidableEq

/-! ## The writer -/

/-- What a caller hands to `write_tensor`: a C string, and as many bytes as the shape has
elements. -/
structure Tensor where
  name : List UInt8
  dtype : DType
  shape : List ℕ
  data : List UInt8
  name_cstr : 0 ∉ name
  shape_lt : ∀ d ∈ shape, d < 2 ^ 64
  length_data : data.length = shape.prod * dtypeSize dtype
  length_lt : data.length < 2 ^ 64

/-- A handle opened for writing: `w_entries` and `w_data`. -/
structure Writer where
  entries : List Entry := []
  data : List UInt8 := []

/-- `nbytes` of `write_tensor`, for the extents it keeps. -/
def writtenBytes (shape : List ℕ) (dtype : DType) : ℕ :=
  shape.foldl (fun total d => total * d % 2 ^ 64) 1 * dtypeSize dtype % 2 ^ 64

/-- `SNEPPX_safetensors_write_tensor`. At most eight extents are kept. -/
def writeTensor (w : Writer) (t : Tensor) : Except Failure Writer :=
  let shape := t.shape.take 8
  let nbytes := writtenBytes shape t.dtype
  if nbytes ≤ t.data.length then
    .ok
      { entries := w.entries ++
          [{ name := t.name, dtype := t.dtype, shape := shape, offStart := w.data.length,
             offEnd := w.data.length + nbytes }]
        data := w.data ++ t.data.take nbytes }
  else .error .undefined

/-- The buffer of `safe_append`: the text in it, `cap`, and the bytes that are allocated. -/
structure Buf where
  text : List UInt8
  cap : ℕ
  alloc : ℕ

/-- The buffer at the top of the loop of `safe_append`. -/
def Buf.grow (b : Buf) : Buf :=
  if b.text.length + 256 ≥ b.cap then { b with cap := b.cap * 2, alloc := b.cap * 2 } else b

/-- The loop of `safe_append`. `vsnprintf` writes at most `cap - len` bytes, its terminator
included; a text that does not fit doubles `cap`, but not the allocation. -/
def safeAppendLoop : ℕ → Buf → List UInt8 → Except Failure Buf
  | 0, _, _ => .error .undefined
  | fuel + 1, b, s =>
    let b := b.grow
    let len := b.text.length
    if b.alloc < len + min (s.length + 1) (b.cap - len) then .error .undefined
    else if 2 ^ 31 ≤ s.length then .ok b
    else if s.length < b.cap - len then .ok { b with text := b.text ++ s }
    else safeAppendLoop fuel { b with cap := b.cap * 2 } s

/-- `safe_append`. The loop ends when `cap` has been doubled often enough. -/
def safeAppend (s : List UInt8) (b : Buf) : Except Failure Buf := safeAppendLoop (s.length + 2) b s

/-- `%zu`. -/
def decimal (n : ℕ) : List UInt8 := (Nat.toDigits 10 n).map fun c => UInt8.ofNat c.toNat

/-- The texts that `save` appends for the shape of an entry. -/
def shapePieces : List ℕ → List (List UInt8)
  | [] => []
  | d :: ds => decimal d :: ds.flatMap fun d => [ascii ",", decimal d]

/-- The texts that `save` appends for an entry. -/
def entryPieces (e : Entry) : List (List UInt8) :=
  (ascii "\"" ++ e.name ++ ascii "\":\x7b\"dtype\":\"" ++ dtypeToStr e.dtype ++
      ascii "\",\"shape\":[") ::
    (shapePieces e.shape ++
      [ascii "],\"data_offsets\":[" ++ decimal e.offStart ++ ascii "," ++ decimal e.offEnd ++
        ascii "]\x7d"])

/-- The texts that `save` appends for the header. -/
def headerPieces : List Entry → List (List UInt8)
  | [] => [ascii "\x7b", ascii "\x7d"]
  | e :: es =>
    [ascii "\x7b"] ++ entryPieces e ++ (es.flatMap fun e => ascii "," :: entryPieces e) ++
      [ascii "\x7d"]

/-- `SNEPPX_safetensors_save`: the bytes of the file. -/
def save (w : Writer) : Except Failure (List UInt8) := do
  let cap := 256 + w.entries.length * 128
  let hdr ← (headerPieces w.entries).foldlM (fun b s => safeAppend s b) (Buf.mk [] cap cap)
  let headerLen := hdr.text.length
  let pad := (8 - headerLen % 8) % 8
  .ok (leBytes 8 headerLen ++ hdr.text ++ List.replicate pad 0 ++ w.data)

/-! ## The reader -/

/-- `*p`. -/
def peek : List UInt8 → Except Failure UInt8
  | [] => .error .undefined
  | c :: _ => .ok c

/-- `skip_ws`. -/
def skipWs : List UInt8 → Except Failure (List UInt8)
  | [] => .error .undefined
  | c :: p => if c = 0x20 ∨ c = 0x0A ∨ c = 0x09 ∨ c = 0x0D then skipWs p else .ok (c :: p)

/-- The byte that an escape stands for. -/
def unescape (c : UInt8) : UInt8 :=
  if c = 0x6E then 0x0A else if c = 0x74 then 0x09 else if c = 0x72 then 0x0D else c

/-- The loop of `parse_string`, with `room` bytes left in the caller's buffer. -/
def parseStringLoop : ℕ → List UInt8 → Except Failure (List UInt8 × List UInt8)
  | _, [] => .error .undefined
  | room, c :: p =>
    if c = 0x22 then .ok ([], p)
    else if c = 0 ∨ room = 0 then .error .null
    else if c = 0x5C then
      match p with
      | [] => .error .undefined
      | c :: p => do
        let (s, q) ← parseStringLoop (room - 1) p
        .ok (unescape c :: s, q)
    else do
      let (s, q) ← parseStringLoop (room - 1) p
      .ok (c :: s, q)

/-- `parse_string`. The caller reads its buffer as a C string. -/
def parseString (p : List UInt8) (outMax : ℕ) : Except Failure (List UInt8 × List UInt8) := do
  if (← peek p) ≠ 0x22 then .error .null
  else
    let (s, q) ← parseStringLoop (outMax - 1) p.tail
    .ok (s.takeWhile (· ≠ 0), q)

/-- `isspace` in the C locale. -/
def isspace (b : UInt8) : Bool := b == 0x20 || (0x09 ≤ b && b ≤ 0x0D)

/-- `isdigit`. -/
def isdigit (b : UInt8) : Bool := 0x30 ≤ b && b ≤ 0x39

/-- A run of bytes that satisfy a test, and what follows it. -/
def span (f : UInt8 → Bool) : List UInt8 → Except Failure (List UInt8 × List UInt8)
  | [] => .error .undefined
  | c :: p =>
    if f c then do
      let (s, q) ← span f p
      .ok (c :: s, q)
    else .ok ([], c :: p)

/-- The value of a run of decimal digits. -/
def digitsVal (s : List UInt8) : ℕ := s.foldl (fun v c => 10 * v + (c.toNat - 0x30)) 0

/-- `strtol(p, &p, 10)`, where `longMax` is `LONG_MAX`. Without a digit `p` stays where it is. -/
def strtol (longMax : ℕ) (p : List UInt8) : Except Failure (ℤ × List UInt8) := do
  let (_, q) ← span isspace p
  let c ← peek q
  let (s, r) ← span isdigit (if c = 0x2B ∨ c = 0x2D then q.tail else q)
  if s = [] then .ok (0, p)
  else if c = 0x2D then .ok (max (-(longMax : ℤ) - 1) (-(digitsVal s : ℤ)), r)
  else .ok (min (longMax : ℤ) (digitsVal s), r)

/-- The loop of `parse_int_array`. -/
def parseIntArrayLoop (longMax maxN : ℕ) :
    ℕ → List ℕ → List UInt8 → Except Failure (List ℕ × List UInt8)
  | 0, _, _ => .error .undefined
  | fuel + 1, out, p => do
    let p ← skipWs p
    if (← peek p) = 0x5D then .ok (out, p.tail)
    else
      let (v, p) ← strtol longMax p
      let out := if out.length < maxN then out ++ [(v % 2 ^ 64).toNat] else out
      let p ← skipWs p
      let c ← peek p
      if c = 0x2C then parseIntArrayLoop longMax maxN fuel out p.tail
      else if c = 0x5D then .ok (out, p.tail)
      else .error .null

/-- `parse_int_array`. -/
def parseIntArray (longMax : ℕ) (p : List UInt8) (maxN : ℕ) :
    Except Failure (List ℕ × List UInt8) := do
  if (← peek p) ≠ 0x5B then .error .null
  else parseIntArrayLoop longMax maxN p.length [] p.tail

/-- What is left after the text of a string of an unknown value. -/
def skipText : List UInt8 → Except Failure (List UInt8)
  | [] => .error .undefined
  | c :: p => if c = 0x22 then .ok p else if c = 0 then .ok (c :: p) else skipText p

def skipUnknown : ℕ → ℤ → List UInt8 → Except Failure (List UInt8)
  | 0, _, _ => .error .undefined
  | fuel + 1, depth, p => do
    let c ← peek p
    if c = 0x22 then skipUnknown fuel depth (← skipText p.tail)
    else if c = 0x7B ∨ c = 0x5B then skipUnknown fuel (depth + 1) p.tail
    else if c = 0x7D ∨ c = 0x5D then
      if depth - 1 ≤ 0 then .ok p.tail else skipUnknown fuel (depth - 1) p.tail
    else if c = 0x2C ∧ depth = 0 then .ok p.tail
    else if c = 0 then .ok p
    else skipUnknown fuel depth p.tail

/-- The value of a field of an entry; `none` if it cannot be parsed. -/
def parseField (longMax : ℕ) (fld : List UInt8) (e : Entry) (p : List UInt8) :
    Except Failure (Option (Entry × List UInt8)) :=
  if fld = ascii "dtype" then do
    let r ← attempt (parseString p 32)
    .ok (r.map fun (dt, p) => ({ e with dtype := dtypeFromStr dt }, p))
  else if fld = ascii "shape" then do
    let r ← attempt (parseIntArray longMax p 8)
    .ok (r.map fun (tmp, p) => ({ e with shape := tmp }, p))
  else if fld = ascii "data_offsets" then do
    let r ← attempt (parseIntArray longMax p 2)
    .ok (r.map fun (tmp, p) =>
      match tmp with
      | [s, t] => ({ e with offStart := s, offEnd := t }, p)
      | _ => (e, p))
  else do
    let p ← skipUnknown (p.length + 1) 0 p
    .ok (some (e, p))

/-- The loop over the fields of an entry. Whatever cannot be parsed ends it. -/
def parseFields (longMax : ℕ) : ℕ → Entry → List UInt8 → Except Failure (Entry × List UInt8)
  | 0, _, _ => .error .undefined
  | fuel + 1, e, p => do
    let p ← skipWs p
    let c ← peek p
    if c = 0x7D then .ok (e, p.tail)
    else if c = 0x2C then parseFields longMax fuel e p.tail
    else
      match ← attempt (parseString p 64) with
      | none => .ok (e, p)
      | some (fld, af) =>
        let p ← skipWs af
        if (← peek p) ≠ 0x3A then .ok (e, p)
        else
          let p ← skipWs p.tail
          match ← parseField longMax fld e p with
          | none => .ok (e, p)
          | some (e, p) => parseFields longMax fuel e p

/-- The scan for the end of `__metadata__`: the bytes passed over, and what follows. -/
def captureMetadata : ℤ → List UInt8 → Except Failure (List UInt8 × List UInt8)
  | _, [] => .error .undefined
  | depth, c :: p =>
    if c = 0 ∨ (c = 0x7D ∧ depth - 1 = 0) then .ok ([c], p)
    else do
      let depth := if c = 0x7B then depth + 1 else if c = 0x7D then depth - 1 else depth
      let (s, q) ← captureMetadata depth p
      .ok (c :: s, q)

/-- A handle opened for reading. -/
structure Reader where
  buf : List UInt8
  entries : List Entry := []
  metaJson : Option (List UInt8) := none

/-- The loop over the entries of the header. Whatever cannot be parsed ends it. -/
def parseEntries (longMax : ℕ) : ℕ → Reader → List UInt8 → Except Failure Reader
  | 0, _, _ => .error .undefined
  | fuel + 1, h, p => do
    let p ← skipWs p
    let c ← peek p
    if c = 0x7D then .ok h
    else if c = 0x2C then parseEntries longMax fuel h p.tail
    else
      match ← attempt (parseString p 256) with
      | none => .ok h
      | some (key, after) =>
        let p ← skipWs after
        if (← peek p) ≠ 0x3A then .ok h
        else
          let p ← skipWs p.tail
          if key = ascii "__metadata__" then
            let (raw, p) ← captureMetadata 0 p
            parseEntries longMax fuel { h with metaJson := some raw } p
          else if (← peek p) ≠ 0x7B then .ok h
          else
            let (e, p) ← parseFields longMax p.length { name := key } p.tail
            parseEntries longMax fuel { h with entries := h.entries ++ [e] } p

/-- `header_len`, the first eight bytes. -/
def headerLen (buf : List UInt8) : ℕ := leVal (buf.take 8)

/-- `SNEPPX_safetensors_open` for reading, given the bytes of the file. `ftell` fails on a file of
more than `LONG_MAX` bytes. -/
def safetensorsOpen (longMax : ℕ) (file : List UInt8) : Except Failure Reader := do
  if file.length = 0 ∨ longMax < file.length then .error .null
  else if file.length < 8 then .error .null
  else if file.length < (8 + headerLen file) % 2 ^ 64 then .error .null
  else
    let p ← skipWs (file.drop 8)
    if (← peek p) ≠ 0x7B then .error .null
    else parseEntries longMax p.length { buf := file } p.tail

/-- `find_entry`. -/
def findEntry (h : Reader) (name : List UInt8) : Option Entry :=
  h.entries.find? (·.name = name)

/-- `SNEPPX_safetensors_read_tensor`: the data type, the shape and the bytes. -/
def readTensor (h : Reader) (name : List UInt8) : Except Failure (DType × List ℕ × List UInt8) :=
  match findEntry h name with
  | none => .error .null
  | some e =>
    let dataBase := (8 + headerLen h.buf + e.offStart) % 2 ^ 64
    let nbytes := (e.offEnd + 2 ^ 64 - e.offStart) % 2 ^ 64
    if h.buf.length < (dataBase + nbytes) % 2 ^ 64 then .error .null
    else if h.buf.length < dataBase + nbytes then .error .undefined
    else .ok (e.dtype, e.shape, (h.buf.drop dataBase).take nbytes)

end SneppxAlg.Safetensors
