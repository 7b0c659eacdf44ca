import SneppxAlg.Kernel.FloatView
import SneppxAlg.Lib.AddingLoops

/-!
# Convolutions

`SNEPPX_tensor_conv1d` and `SNEPPX_tensor_conv2d` of `tensor.c`, and their backward functions in `ops.c`.

The forward functions give the result the channels of the input, and take as many output channels from the
kernel as its second extent says; they compute positions of the input as `int`. The backward functions take the
output channels from the first extent of the kernel, and compute positions as `size_t`, where
a position in the padding to the left wraps around to a number beyond the input.

All of them read operands and incoming gradients as they lie in memory, whatever their strides are.

Arithmetic is that of a commutative semiring. `size_t` arithmetic wraps. `alloc` says for which numbers of bytes
there is memory for the elements of a new tensor; descriptors and contexts find memory.
-/

namespace SneppxAlg.Convolution

open FloatView Lib.AddingLoops
open TensorEngine (Outcome numel)

variable {R : Type}

/-- `shape[ndim - k]`. -/
def dim (t : View R) (k : ℕ) : Outcome UInt64 :=
  Outcome.ofOption (if k ≤ t.shape.length then t.shape[t.shape.length - k]? else none)

/-! ## Positions -/

/-- The number of positions of the kernel. -/
def outLen (l k stride padding : UInt64) : UInt64 := (l + 2 * padding - k) / stride + 1

/-- The conversion to `int`. -/
@[irreducible] def toInt (i : UInt64) : ℤ := Int.bmod i.toNat (2 ^ 32)

/-- The difference of two `int`. -/
@[irreducible] def subInt (a b : ℤ) : Option ℤ := if -2 ^ 31 ≤ a - b ∧ a - b < 2 ^ 31 then some (a - b) else none

/-- `(int)(pos * stride + k) - (int)padding`. -/
def intPos (stride padding : UInt64) (pos k : ℕ) : Option ℤ :=
  subInt (toInt (UInt64.ofNat pos * stride + UInt64.ofNat k)) (toInt padding)

/-- `inp_pos >= 0 && inp_pos < (int)L`. -/
def Inside (l : UInt64) (q : ℤ) : Prop := 0 ≤ q ∧ q < toInt l

instance (l : UInt64) (q : ℤ) : Decidable (Inside l q) := inferInstanceAs (Decidable (_ ∧ _))

/-- `oh * stride + kh - padding` -/
def sizePos (stride padding : UInt64) (pos k : ℕ) : UInt64 :=
  UInt64.ofNat pos * stride + UInt64.ofNat k - padding

variable [CommSemiring R]

/-! ## `SNEPPX_tensor_conv1d` -/

/-- One round of the innermost loop; the bases are those of the channel in the input and in the kernel. -/
def conv1dTap (input kernel : View R) (l stride padding : UInt64) (inBase kernelBase pos k : ℕ) (sum : R) :
    Option R := do
  let inpPos ← intPos stride padding pos k
  if Inside l inpPos then do
    let x ← input.read (inBase + inpPos.toNat)
    let w ← kernel.read (kernelBase + k)
    some (sum + x * w)
  else some sum

def conv1dLoops (input kernel : View R) (l k stride padding out inChannels kernelChannels batch : UInt64)
    (cells : ℕ) : (ℕ → R) → Option (ℕ → R) :=
  forLoop batch.toNat fun b =>
    forLoop inChannels.toNat fun cIn =>
      forLoop kernelChannels.toNat fun cOut =>
        forLoop out.toNat fun pos rd => do
          let sum ← forLoop k.toNat (conv1dTap input kernel l stride padding
            (b * inChannels.toNat * l.toNat + cIn * l.toNat) (cOut * inChannels.toNat * k.toNat + cIn * k.toNat) pos) 0
          addAt cells ((b * kernelChannels.toNat * out.toNat + cOut * out.toNat + pos) % 2 ^ 64) sum rd

/-- `SNEPPX_tensor_conv1d`. -/
def conv1d (alloc : ℕ → Bool) (input kernel : View R) (stride padding : UInt64) : Outcome (FloatTensor R) :=
  if stride = 0 then .null
  else
    (dim input 1).bind fun l => (dim kernel 1).bind fun k =>
      let out := outLen l k stride padding
      if out = 0 then .null
      else if 16 < input.shape.length then .fault
      else
        (tensorZeros alloc (input.shape.set (input.shape.length - 1) out)).bind fun result =>
          (dim input 2).bind fun inChannels => (dim kernel 2).bind fun kernelChannels =>
            if inChannels * l = 0 then .fault
            else
              let batch := numel input.shape / (inChannels * l)
              Outcome.ofOption do
                let rd ← conv1dLoops input kernel l k stride padding out inChannels kernelChannels batch result.cells
                  result.data
                some { result with data := rd }

/-! ## `SNEPPX_tensor_conv2d` -/

/-- One round of the innermost loop. -/
def conv2dTap (input kernel : View R) (h w kw strideW padW : UInt64) (inBase kernelBase ow kh : ℕ) (ih : ℤ)
    (j : ℕ) (sum : R) : Option R := do
  let iw ← intPos strideW padW ow j
  if Inside h ih ∧ Inside w iw then do
    let x ← input.read (inBase + ih.toNat * w.toNat + iw.toNat)
    let y ← kernel.read (kernelBase + kh * kw.toNat + j)
    some (sum + x * y)
  else some sum

/-- The loop over the rows of the kernel. -/
def conv2dSum (input kernel : View R) (h w kh kw strideH strideW padH padW : UInt64)
    (inBase kernelBase oh ow : ℕ) : R → Option R :=
  forLoop kh.toNat fun i sum => do
    let ih ← intPos strideH padH oh i
    forLoop kw.toNat (conv2dTap input kernel h w kw strideW padW inBase kernelBase ow i ih) sum

def conv2dLoops (input kernel : View R) (h w kh kw strideH strideW padH padW outH outW inChannels outChannels
    batch : UInt64) (cells : ℕ) : (ℕ → R) → Option (ℕ → R) :=
  forLoop batch.toNat fun b =>
    forLoop outChannels.toNat fun co =>
      forLoop inChannels.toNat fun ci =>
        forLoop outH.toNat fun oh =>
          forLoop outW.toNat fun ow rd => do
            let sum ← conv2dSum input kernel h w kh kw strideH strideW padH padW
              (b * inChannels.toNat * h.toNat * w.toNat + ci * h.toNat * w.toNat)
              (co * inChannels.toNat * kh.toNat * kw.toNat + ci * kh.toNat * kw.toNat) oh ow 0
            addAt cells ((b * outChannels.toNat * outH.toNat * outW.toNat + co * outH.toNat * outW.toNat +
              oh * outW.toNat + ow) % 2 ^ 64) sum rd

/-- `SNEPPX_tensor_conv2d`. -/
def conv2d (alloc : ℕ → Bool) (input kernel : View R) (strideH strideW padH padW : UInt64) :
    Outcome (FloatTensor R) :=
  if strideH = 0 ∨ strideW = 0 then .null
  else
    (dim input 2).bind fun h => (dim input 1).bind fun w => (dim kernel 2).bind fun kh => (dim kernel 1).bind fun kw =>
      let outH := outLen h kh strideH padH
      let outW := outLen w kw strideW padW
      if outH = 0 ∨ outW = 0 then .null
      else if 16 < input.shape.length then .fault
      else
        (tensorZeros alloc ((input.shape.set (input.shape.length - 2) outH).set (input.shape.length - 1) outW)).bind
          fun result =>
            (dim input 3).bind fun inChannels => (dim kernel 3).bind fun outChannels =>
              if inChannels * h * w = 0 then .fault
              else
                let batch := numel input.shape / (inChannels * h * w)
                Outcome.ofOption do
                  let rd ← conv2dLoops input kernel h w kh kw strideH strideW padH padW outH outW inChannels
                    outChannels batch result.cells result.data
                  some { result with data := rd }

/-! ## Backward functions -/

/-- `SNEPPXVariable`. -/
structure Variable (R : Type) where
  data : View R
  requiresGrad : Bool
  grad : Option (View R)

/-- `grad_accum`. -/
def gradAccum : Option (View R) → FloatTensor R → View R
  | none, new => asView new
  | some g, new =>
    let n := min (numel g.shape).toNat (numel new.shape).toNat
    { g with data := fun i => if i < n then g.data i + new.data i else g.data i }

/-- The part of a backward function for one operand: a tensor of zeros, the loops, and `grad_accum`. -/
def accumulateGrad (alloc : ℕ → Bool) (v : Variable R) (loops : ℕ → (ℕ → R) → Option (ℕ → R)) :
    Option (Variable R) :=
  if v.requiresGrad then
    match tensorZeros alloc v.data.shape with
    | .ok g => do
      let data ← loops g.cells g.data
      some { v with grad := some (gradAccum v.grad { g with data := data }) }
    | _ => none
  else some v

/-- `shape[0]` to `shape[2]`. -/
def shape3 (t : View R) : Option (UInt64 × UInt64 × UInt64) := do
  some (← t.shape[0]?, ← t.shape[1]?, ← t.shape[2]?)

/-- The loops that both operands of `backward_conv1d` share; `update` gets the numbers of the loops. -/
def backward1dLoops (go : View R) (n k oh kh c l stride padding : UInt64)
    (update : ℕ → ℕ → ℕ → ℕ → ℕ → R → (ℕ → R) → Option (ℕ → R)) : (ℕ → R) → Option (ℕ → R) :=
  forLoop n.toNat fun n =>
    forLoop k.toNat fun k' =>
      forLoop oh.toNat fun o g => do
        let gradVal ← go.read (n * k.toNat * oh.toNat + k' * oh.toNat + o)
        forLoop kh.toNat (fun t g =>
          let ih := sizePos stride padding o t
          if ih < l then forLoop c.toNat (fun cc => update n k' t cc ih.toNat gradVal) g else some g) g

/-- `gid[...] += kd[...] * grad_val`; the loops are those over `n`, `k`, `kh` and `cc`. -/
def updateInput1d (kernel : View R) (c l kh : UInt64) (cells n k t cc ih : ℕ) (gradVal : R) (gid : ℕ → R) :
    Option (ℕ → R) := do
  let w ← kernel.read (k * c.toNat * kh.toNat + cc * kh.toNat + t)
  addAt cells ((n * c.toNat * l.toNat + cc * l.toNat + ih) % 2 ^ 64) (w * gradVal) gid

/-- `gkd[...] += id[...] * grad_val`. -/
def updateKernel1d (input : View R) (c l kh : UInt64) (cells n k t cc ih : ℕ) (gradVal : R) (gkd : ℕ → R) :
    Option (ℕ → R) := do
  let x ← input.read (n * c.toNat * l.toNat + cc * l.toNat + ih)
  addAt cells ((k * c.toNat * kh.toNat + cc * kh.toNat + t) % 2 ^ 64) (x * gradVal) gkd

/-- `backward_conv1d`: the operands with their gradients. -/
def backwardConv1d (alloc : ℕ → Bool) (input kernel : Variable R) (stride padding : UInt64) (go : View R) :
    Option (Variable R × Variable R) := do
  let (n, c, l) ← shape3 input.data
  let (k, _, kh) ← shape3 kernel.data
  let oh := outLen l kh stride padding
  let input' ← accumulateGrad alloc input fun cells =>
    backward1dLoops go n k oh kh c l stride padding (updateInput1d kernel.data c l kh cells)
  let kernel' ← accumulateGrad alloc kernel fun cells =>
    backward1dLoops go n k oh kh c l stride padding (updateKernel1d input.data c l kh cells)
  some (input', kernel')

/-- `shape[0]` to `shape[3]`. -/
def shape4 (t : View R) : Option (UInt64 × UInt64 × UInt64 × UInt64) := do
  some (← t.shape[0]?, ← t.shape[1]?, ← t.shape[2]?, ← t.shape[3]?)

/-- The sizes that the loops of `backward_conv2d` run over. -/
structure Sizes2d where
  n : UInt64
  c : UInt64
  h : UInt64
  w : UInt64
  k : UInt64
  kh : UInt64
  kw : UInt64
  oh : UInt64
  ow : UInt64

/-- The loops that both operands of `backward_conv2d` share. -/
def backward2dLoops (go : View R) (s : Sizes2d) (strideH strideW padH padW : UInt64)
    (update : ℕ → ℕ → ℕ × ℕ → ℕ → ℕ × ℕ → R → (ℕ → R) → Option (ℕ → R)) : (ℕ → R) → Option (ℕ → R) :=
  forLoop s.n.toNat fun n =>
    forLoop s.k.toNat fun k =>
      forLoop s.oh.toNat fun oh =>
        forLoop s.ow.toNat fun ow g => do
          let gradVal ← go.read (n * s.k.toNat * s.oh.toNat * s.ow.toNat + k * s.oh.toNat * s.ow.toNat +
            oh * s.ow.toNat + ow)
          forLoop s.kh.toNat (fun kh g =>
            let ih := sizePos strideH padH oh kh
            if s.h ≤ ih then some g
            else forLoop s.kw.toNat (fun kw g =>
              let iw := sizePos strideW padW ow kw
              if s.w ≤ iw then some g
              else forLoop s.c.toNat (fun cc => update n k (kh, kw) cc (ih.toNat, iw.toNat) gradVal) g) g) g

def Sizes2d.inAt (s : Sizes2d) (n cc : ℕ) (i : ℕ × ℕ) : ℕ :=
  n * s.c.toNat * s.h.toNat * s.w.toNat + cc * s.h.toNat * s.w.toNat + i.1 * s.w.toNat + i.2

def Sizes2d.kernelAt (s : Sizes2d) (k cc : ℕ) (t : ℕ × ℕ) : ℕ :=
  k * s.c.toNat * s.kh.toNat * s.kw.toNat + cc * s.kh.toNat * s.kw.toNat + t.1 * s.kw.toNat + t.2

/-- `gid[...] += kd[...] * grad_val`. -/
def updateInput2d (kernel : View R) (s : Sizes2d) (cells n k : ℕ) (t : ℕ × ℕ) (cc : ℕ) (i : ℕ × ℕ)
    (gradVal : R) (gid : ℕ → R) : Option (ℕ → R) := do
  let w ← kernel.read (s.kernelAt k cc t)
  addAt cells (s.inAt n cc i % 2 ^ 64) (w * gradVal) gid

/-- `gkd[...] += id[...] * grad_val`. -/
def updateKernel2d (input : View R) (s : Sizes2d) (cells n k : ℕ) (t : ℕ × ℕ) (cc : ℕ) (i : ℕ × ℕ)
    (gradVal : R) (gkd : ℕ → R) : Option (ℕ → R) := do
  let x ← input.read (s.inAt n cc i)
  addAt cells (s.kernelAt k cc t % 2 ^ 64) (x * gradVal) gkd

/-- `backward_conv2d`: the operands with their gradients. -/
def backwardConv2d (alloc : ℕ → Bool) (input kernel : Variable R) (strideH strideW padH padW : UInt64)
    (go : View R) : Option (Variable R × Variable R) := do
  let (n, c, h, w) ← shape4 input.data
  let (k, _, kh, kw) ← shape4 kernel.data
  let s : Sizes2d := ⟨n, c, h, w, k, kh, kw, outLen h kh strideH padH, outLen w kw strideW padW⟩
  let input' ← accumulateGrad alloc input fun cells =>
    backward2dLoops go s strideH strideW padH padW (updateInput2d kernel.data s cells)
  let kernel' ← accumulateGrad alloc kernel fun cells =>
    backward2dLoops go s strideH strideW padH padW (updateKernel2d input.data s cells)
  some (input', kernel')

end SneppxAlg.Convolution
