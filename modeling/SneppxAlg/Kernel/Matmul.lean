import SneppxAlg.Kernel.FloatView
import SneppxAlg.Lib.StoringLoops

/-!
# Matrix products

`SNEPPX_tensor_matmul` of `tensor.c`, for operands with any strides: `tensor_prep_contiguous` makes a copy of an
operand that is not contiguous. The product goes through the batches of the result, takes the number of
each apart, and puts the numbers for the operands together, with the products of the extents *before* each extent.

Arithmetic is that of a commutative semiring. Offsets and the number of batches wrap where the source computes
them in `size_t`.
-/

namespace SneppxAlg.Matmul

open Lib.AddingLoops Lib.Strided
open FloatView
open TensorEngine (Outcome numel extents)

variable {R : Type}

/-! ## Extents -/

/-- The numbers that the loops of the product run over. -/
structure Sizes where
  a1 : Bool
  b1 : Bool
  aM : UInt64
  aK : UInt64
  bN : UInt64
deriving DecidableEq

/-- The sizes of operands that can be multiplied. -/
def sizes (aShape bShape : List UInt64) : Option Sizes :=
  let a1 : Bool := aShape.length = 1
  let b1 : Bool := bShape.length = 1
  if a1 ∧ b1 then none
  else
    let aM := if a1 then 1 else aShape.getD (aShape.length - 2) 0
    let aK := if a1 then aShape.getD 0 0 else aShape.getD (aShape.length - 1) 0
    let bK := if b1 then bShape.getD 0 0 else bShape.getD (bShape.length - 2) 0
    let bN := if b1 then 1 else bShape.getD (bShape.length - 1) 0
    if aK ≠ bK then none else some ⟨a1, b1, aM, aK, bN⟩

/-- The extents of the result behind the leading ones. -/
def Sizes.outDims (s : Sizes) : List UInt64 := (if s.a1 then [] else [s.aM]) ++ (if s.b1 then [] else [s.bN])

/-- The leading extents; a vector has none. -/
def leadOf (shape : List UInt64) : List UInt64 := shape.dropLast.dropLast

/-- The extents aligned at the end, with 1 in front. -/
def padLead (n : ℕ) (lead : List UInt64) : List UInt64 := List.replicate (n - lead.length) 1 ++ lead

/-- One leading extent of the result. -/
def joinExtent (av bv : UInt64) : Option UInt64 :=
  if av ≠ bv ∧ av ≠ 1 ∧ bv ≠ 1 then none else some (if bv < av then av else bv)

/-- The leading extents of the result. -/
def outLead (aLead bLead : List UInt64) : Option (List UInt64) :=
  let n := max aLead.length bLead.length
  ((padLead n aLead).zip (padLead n bLead)).mapM fun p => joinExtent p.1 p.2

/-! ## Offsets -/

/-- The coordinates that an operand uses: those of its own extents, and 0 for an extent of 1. -/
def leadCoords (lead : List UInt64) (coords : List ℕ) : List ℕ :=
  List.zipWith (fun s c => if s = 1 then 0 else c) lead (coords.drop (coords.length - lead.length))

/-- `aoff` and `boff`: each coordinate times the product of the extents before it. -/
def leadOffset (lead : List UInt64) (coords : List ℕ) : ℕ :=
  dot (leadCoords lead coords) (stridesFrom (extents lead) 1)

/-! ## The product -/

variable [CommSemiring R]

/-- One element of the result. -/
def product (a b : View R) (s : Sizes) (aBase bBase i j : ℕ) : Option R :=
  forLoop s.aK.toNat (fun l sum => do
    let x ← a.read (aBase + i * s.aK.toNat + l)
    let y ← b.read (bBase + l * s.bN.toNat + j)
    some (sum + x * y)) 0

/-- One batch. The three loops of the source are this one, with a single row for a vector on the left and a
single column for one on the right. The offsets of the operands are `long`, which must not overflow. -/
def batchLoop (a b : View R) (s : Sizes) (cells aOff bOff batch : ℕ) (rd : ℕ → R) : Option (ℕ → R) :=
  if aOff < 2 ^ 63 ∧ bOff < 2 ^ 63 then
    let aBase := aOff * (s.aM.toNat * s.aK.toNat)
    let bBase := bOff * (s.aK.toNat * s.bN.toNat)
    let cBase := batch * (if s.a1 then 0 else s.aM.toNat) * (if s.b1 then 0 else s.bN.toNat)
    forLoop s.aM.toNat (fun i =>
      forLoop s.bN.toNat fun j rd => do
        let sum ← product a b s aBase bBase i j
        storeAt cells ((cBase + i * s.bN.toNat + j) % 2 ^ 64) sum rd) rd
  else none

/-- The loop over the batches; taking a number apart divides by every extent. -/
def batchesLoop (a b : View R) (s : Sizes) (lead : List UInt64) (cells : ℕ) : (ℕ → R) → Option (ℕ → R) :=
  let batches := if numel lead = 0 then 1 else (numel lead).toNat
  forLoop batches fun batch rd =>
    if 0 ∈ lead then none
    else
      let coords := unflatten (extents lead) batch
      batchLoop a b s cells (leadOffset (leadOf a.shape) coords) (leadOffset (leadOf b.shape) coords) batch rd

/-- `SNEPPX_tensor_matmul`, with the contents of the new tensor a parameter. -/
def matmulOnto (init : ℕ → R) (alloc : ℕ → Bool) (a b : View R) : Outcome (FloatTensor R) :=
  if a.shape.length < 1 ∨ 8 < a.shape.length ∨ b.shape.length < 1 ∨ 8 < b.shape.length then .null
  else
    (Outcome.ofOption (prepContiguous alloc a)).bind fun a =>
      (Outcome.ofOption (prepContiguous alloc b)).bind fun b =>
        match sizes a.shape b.shape with
        | none => .null
        | some s =>
          match outLead (leadOf a.shape) (leadOf b.shape) with
          | none => .null
          | some lead =>
            (tensorZeros alloc (lead ++ s.outDims)).bind fun (result : FloatTensor R) =>
              (Outcome.ofOption (batchesLoop a b s lead result.cells init)).bind fun rd =>
                .ok { result with data := rd }

/-- `SNEPPX_tensor_matmul`; a new tensor is all zeros. -/
def matmul (alloc : ℕ → Bool) (a b : View R) : Outcome (FloatTensor R) := matmulOnto (fun _ => 0) alloc a b

end SneppxAlg.Matmul
