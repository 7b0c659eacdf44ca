import SneppxAlg.Lib.BitArray
import SneppxAlg.Lib.Bytes
import SneppxAlg.Lib.StoringLoops

/-!
# `compress.c`: block floating point and sparse compression

`none` is the return of `-1`, and an access outside of an array.

The sparse codec copies floats and compares them with zero, so they are bit patterns there. Block floating point
computes with them; what it computes is a parameter (`FloatOps`), and the packing of the numbers that come out of it
is `packBlocks`, for blocks of any size.
-/

namespace SneppxAlg.Compress

open Lib.AddingLoops Lib.BitArray Lib.Bytes

/-- `SNEPPXCompressionCodec`. -/
inductive Codec
  | none | bfp4 | bfp8 | sparse
deriving DecidableEq

/-- `metadata`: the shared exponents, or the number of bytes of the bitmap. -/
inductive Metadata
  | exponents (e : ℕ → Int16)
  | bitmapBytes (n : ℕ)

/-- `SNEPPXCompressedBuffer`. -/
structure CompressedBuffer where
  codec : Codec
  compressedData : ℕ → UInt8
  compressedBytes : ℕ
  originalBytes : ℕ
  originalElements : ℕ
  originalDtype : ℤ
  blockSize : ℕ
  metadata : Metadata

/-! ## Block floating point -/

section Bfp

/-- The numbers of a block, counted from its start: `end - start`. -/
def blockLength (bs n b : ℕ) : ℕ := min (b * bs + bs) n - b * bs

/-- `(num_elements + block_size - 1) / block_size`. -/
def numBlocks (n bs : ℕ) : ℕ := (n + bs - 1) / bs

/-- The size of `mantissa_data`. -/
def mantissaBytes (mb bs n : ℕ) : ℕ := numBlocks n bs * bs * mb / 8 + numBlocks n bs

/-- `q & (1 << k)`. -/
def mantissaBit (q : Int32) (k : ℕ) : Bool := q &&& 1 <<< Int32.ofNat k != 0

/-- The loop over the bits of a mantissa. -/
def packMantissa (cells mb pos : ℕ) (q : Int32) : (ℕ → UInt8) → Option (ℕ → UInt8) :=
  forLoop mb fun k => setBitIf cells (mantissaBit q k) (pos + k)

def packBlock (cells mb bs n b : ℕ) (q : ℕ → Int32) : (ℕ → UInt8) → Option (ℕ → UInt8) :=
  forLoop (blockLength bs n b) fun o => packMantissa cells mb ((b * bs + o) * mb) (q (b * bs + o))

/-- The loop over the blocks. A block has an exponent, or it is skipped. -/
def packBlocks (mb bs n : ℕ) (exponent : ℕ → Option Int16) (q : ℕ → Int32) :
    Option ((ℕ → UInt8) × (ℕ → Int16)) :=
  forLoop (numBlocks n bs) (fun b s =>
    match exponent b with
    | none => some (s.1, Function.update s.2 b 0)
    | some e => (packBlock (mantissaBytes mb bs n) mb bs n b q s.1).map fun m => (m, Function.update s.2 b e))
    (0, 0)

/-- The sign is the highest bit of the mantissa. -/
def signExtend (mb : ℕ) (q : Int32) : Int32 :=
  if q &&& 1 <<< Int32.ofNat (mb - 1) != 0 then q ||| ~~~(1 <<< Int32.ofNat mb - 1) else q

/-- A mantissa is read from bit `pos` on. -/
def unpackMantissa (cells mb pos : ℕ) (data : ℕ → UInt8) : Option Int32 :=
  (forLoop mb (fun k q => (testBit cells (pos + k) data).map fun c => if c then q ||| 1 <<< Int32.ofNat k else q)
    0).map (signExtend mb)

/-- The operations on floats: `fabsf`, `>`, `== 0.0f`, the exponent of `frexpf`, `(int)(x * ldexpf(1.0f, k))` and
`(float)q * ldexpf(1.0f, k)`. -/
structure FloatOps (F : Type) where
  zero : F
  fabs : F → F
  gt : F → F → Bool
  isZero : F → Bool
  frexp : F → ℤ
  scaled : F → ℤ → Int32
  unscaled : Int32 → ℤ → F

variable {F : Type} (ops : FloatOps F)

/-- `max_abs` of a block. -/
def maxAbs (src : ℕ → F) (bs n b : ℕ) : F :=
  (List.range (blockLength bs n b)).foldl (fun m o =>
    let a := ops.fabs (src (b * bs + o))
    if ops.gt a m then a else m) ops.zero

def blockExponent (src : ℕ → F) (bs n b : ℕ) : Option ℤ :=
  if ops.isZero (maxAbs ops src bs n b) then none else some (ops.frexp (maxAbs ops src bs n b))

/-- The quantised value is kept within the mantissa. -/
def clamp (mb : ℕ) (q : Int32) : Int32 :=
  let q := if q > 1 <<< Int32.ofNat (mb - 1) - 1 then 1 <<< Int32.ofNat (mb - 1) - 1 else q
  if q < -(1 <<< Int32.ofNat (mb - 1)) then -(1 <<< Int32.ofNat (mb - 1)) else q

/-- The mantissa of a number; it is not computed for the numbers of a block that is zero. -/
def quantised (mb : ℕ) (src : ℕ → F) (bs n i : ℕ) : Int32 :=
  match blockExponent ops src bs n (i / bs) with
  | none => 0
  | some e => clamp mb (ops.scaled (src i) (mb - 1 - e))

/-- The buffer that `bfp_compress` fills in, with the mantissas and the exponents. -/
def bfpBuffer (mb bs srcBytes : ℕ) (dtype : ℤ) (s : (ℕ → UInt8) × (ℕ → Int16)) : CompressedBuffer where
  codec := if mb = 4 then .bfp4 else .bfp8
  compressedData := s.1
  compressedBytes := mantissaBytes mb bs (srcBytes / 4)
  originalBytes := srcBytes
  originalElements := srcBytes / 4
  originalDtype := dtype
  blockSize := bs
  metadata := .exponents s.2

/-- `bfp_compress`; `alloc` says which allocations succeed. -/
def bfpCompress (alloc : ℕ → Bool) (mb : ℕ) (src : ℕ → F) (srcBytes : ℕ) (dtype : ℤ) : Option CompressedBuffer :=
  let n := srcBytes / 4
  let bs := 16
  if srcBytes = 0 then none
  else if !alloc (mantissaBytes mb bs n) || !alloc (numBlocks n bs * 2) then none
  else
    (packBlocks mb bs n (fun b => (blockExponent ops src bs n b).map Int16.ofInt)
      (quantised ops mb src bs n)).map (bfpBuffer mb bs srcBytes dtype)

/-- `bfp_decompress`. -/
def bfpDecompress (src : CompressedBuffer) (dst : ℕ → F) (dstBytes : ℕ) : Option (ℕ → F) :=
  let n := src.originalElements
  let bs := if src.blockSize = 0 then 16 else src.blockSize
  let mb := if src.codec = .bfp4 then 4 else 8
  if dstBytes < src.originalBytes then none
  else
    match src.metadata with
    | .bitmapBytes _ => none
    | .exponents e =>
      forLoop (numBlocks n bs) (fun b => forLoop (blockLength bs n b) fun o fdst =>
        (unpackMantissa src.compressedBytes mb ((b * bs + o) * mb) src.compressedData).bind fun q =>
          storeAt (dstBytes / 4) (b * bs + o) (ops.unscaled q ((e b).toInt - (mb - 1))) fdst) dst

end Bfp

/-! ## Bitmap and values -/

/-- Float number `i` of an array. -/
def float (src : ℕ → UInt8) (i : ℕ) : List UInt8 := item 4 src i

/-- `x != 0.0f`. -/
def nonzero (x : List UInt8) : Bool := leVal x % 2 ^ 31 != 0

def bitmapLoop (src : ℕ → UInt8) (n bitmapBytes : ℕ) : Option ((ℕ → UInt8) × ℕ) :=
  forLoop n (fun i s =>
    if nonzero (float src i) then (setBit bitmapBytes i s.1).map fun m => (m, s.2 + 1) else some s) (0, 0)

def valuesLoop (src bitmap : ℕ → UInt8) (n bitmapBytes count : ℕ) : Option ((ℕ → UInt8) × ℕ) :=
  forLoop n (fun i s => (testBit bitmapBytes i bitmap).bind fun c =>
    if c then (storeBytes (count * 4) (s.2 * 4) (float src i) s.1).map fun v => (v, s.2 + 1) else some s) (0, 0)

/-- `sparse_compress`. -/
def sparseCompress (alloc : ℕ → Bool) (src : ℕ → UInt8) (srcBytes : ℕ) (dtype : ℤ) : Option CompressedBuffer :=
  let n := srcBytes / 4
  let bitmapBytes := (n + 7) / 8
  if srcBytes = 0 then none
  else if !alloc bitmapBytes then none
  else
    (bitmapLoop src n bitmapBytes).bind fun (bitmap, count) =>
      if !alloc (count * 4) then none
      else
        (valuesLoop src bitmap n bitmapBytes count).bind fun (values, _) =>
          if !alloc (bitmapBytes + count * 4) then none
          else some
            { codec := .sparse
              compressedData := fun p => if p < bitmapBytes then bitmap p else values (p - bitmapBytes)
              compressedBytes := bitmapBytes + count * 4
              originalBytes := srcBytes
              originalElements := n
              originalDtype := dtype
              blockSize := 0
              metadata := .bitmapBytes bitmapBytes }

/-- Float number `i` of an array of `cells` bytes. -/
def loadFloat (cells : ℕ) (src : ℕ → UInt8) (i : ℕ) : Option (List UInt8) :=
  if i * 4 + 4 ≤ cells then some (float src i) else none

/-- `sparse_decompress`. -/
def sparseDecompress (src : CompressedBuffer) (dst : ℕ → UInt8) (dstBytes : ℕ) : Option (ℕ → UInt8) :=
  let n := src.originalElements
  if dstBytes < src.originalBytes then none
  else
    match src.metadata with
    | .exponents _ => none
    | .bitmapBytes bitmapBytes =>
      let values := fun p => src.compressedData (bitmapBytes + p)
      (forLoop n (fun i s => (testBit bitmapBytes i src.compressedData).bind fun c =>
        if c then
          (loadFloat (src.compressedBytes - bitmapBytes) values s.2).bind fun x =>
            (storeBytes dstBytes (i * 4) x s.1).map fun d => (d, s.2 + 1)
        else some s) ((fun p => if p < n * 4 then 0 else dst p), 0)).map Prod.fst

end SneppxAlg.Compress
