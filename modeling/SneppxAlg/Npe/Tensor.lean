import Mathlib

/-!
# `vm.c`: the tensor kernels of the neural virtual machine

The static `tensor_*` functions that the instructions call. The floating-point operations, the
conversions and the allocator are parameters: nothing proved later depends on what they compute.
The loops, the shapes, the broadcasting rules and the reads and writes are those of the source.

A kernel returns `none` where the C code has no defined behaviour: a read or write outside a data
block, a dimension that the shape array does not have, a division by zero. Otherwise it returns the
tensor, or `NULL` (`some none`) where the source does. Tensors are made by `SNEPPX_tensor_create`
and are contiguous; strides, storage and device play no part in the virtual machine.
-/

namespace SneppxAlg.Npe

/-! ## Floats and memory -/

/-- What the kernels use of `float`, the maths library and the allocator. `lit` is the nearest
float to a decimal constant, `ofBits` reads the bits of an `int` as a float. A request for a block
either fails or gives a block with unspecified contents; no block is larger than `PTRDIFF_MAX`. -/
structure Env (F : Type) where
  lit : ℚ → F
  add : F → F → F
  sub : F → F → F
  mul : F → F → F
  div : F → F → F
  neg : F → F
  gt : F → F → Bool
  ge : F → F → Bool
  eq : F → F → Bool
  exp : F → F
  log : F → F
  sqrt : F → F
  sin : F → F
  cos : F → F
  tanh : F → F
  pow : F → F → F
  ofBits : BitVec 32 → F
  ofSize : ℕ → F
  toSize : F → ℕ
  alloc : ℕ → Option (List F)
  alloc_length : ∀ n l, alloc n = some l → l.length = n
  alloc_large : ∀ n, 2 ^ 61 ≤ n → alloc n = none

/-- A tensor of floats. `size` is the product of the dimensions modulo `2 ^ 64`, and `data` the
block behind it, which is shorter when the byte count wraps around. -/
structure Tensor (F : Type) where
  shape : List ℕ
  size : ℕ
  data : List F
  deriving DecidableEq

variable {F : Type}

/-- A pointer to a tensor, or `NULL`. -/
abbrev Ptr (F : Type) := Option (Tensor F)

namespace Tensor

def ndim (t : Tensor F) : ℕ := t.shape.length

/-- `t->shape[i]`. -/
def dim (t : Tensor F) (i : ℕ) : Option ℕ := t.shape[i]?

/-- `((float*)t->data)[i]`. -/
def get (t : Tensor F) (i : ℕ) : Option F := t.data[i]?

end Tensor

section Kernels

variable (env : Env F)

/-- `SNEPPX_tensor_create` for `SNEPPX_FLOAT32`. -/
def tensorCreate (shape : List ℕ) : Option (Tensor F) :=
  let total := shape.foldl (fun total d => total * d % 2 ^ 64) 1
  let numBytes := total * 4 % 2 ^ 64
  (env.alloc (numBytes / 4)).map fun data => ⟨shape, total, data⟩

/-- The first cells of a block are overwritten. -/
def fill (c : Tensor F) (values : List F) : Option (Ptr F) :=
  if values.length ≤ c.data.length then
    some (some { c with data := values ++ c.data.drop values.length })
  else none

/-- A fresh tensor of the given shape whose first cells are computed by a loop. -/
def build (shape : List ℕ) (values : Option (List F)) : Option (Ptr F) :=
  match tensorCreate env shape with
  | none => some none
  | some c => values.bind (fill c)

/-- `SNEPPX_tensor_zeros`, then the loop. -/
def buildZeros (shape : List ℕ) (values : Option (List F)) : Option (Ptr F) :=
  match tensorCreate env shape with
  | none => some none
  | some c => do
    let _ ← fill c (List.replicate c.size (env.lit 0))
    values.bind (fill c)

/-- A loop over `i < n` that reads as it goes. -/
def forRange {α : Type} (n : ℕ) (f : ℕ → Option α) : Option (List α) := (List.range n).mapM f

/-- A loop over `i < m`, `j < n`, flattened. -/
def forRange2 {α : Type} (m n : ℕ) (f : ℕ → ℕ → Option α) : Option (List α) :=
  (forRange m fun i => forRange n fun j => f i j).map List.flatten

/-- A sum or another accumulation over `i < n`. -/
def accumulate (n : ℕ) (x : F) (f : F → ℕ → Option F) : Option F := (List.range n).foldlM f x

/-! ## Elementwise kernels -/

/-- The elementwise kernels of two operands: equal sizes, or a row added to each row of a matrix. -/
def tensorBinary (f : F → F → F) (a b : Tensor F) : Option (Ptr F) :=
  if a.size = b.size then
    build env a.shape (forRange a.size fun i => do some (f (← a.get i) (← b.get i)))
  else
    match b.shape, a.shape with
    | [n], [m, n'] =>
      if n' = n then
        build env a.shape (forRange2 m n' fun i j => do
          some (f (← a.get (i * n' + j)) (← b.get j)))
      else some none
    | _, _ => some none

/-- `tensor_add`. -/
def tensorAdd : Tensor F → Tensor F → Option (Ptr F) := tensorBinary env env.add

/-- `tensor_sub`. -/
def tensorSub : Tensor F → Tensor F → Option (Ptr F) := tensorBinary env env.sub

/-- `tensor_mul`. -/
def tensorMul : Tensor F → Tensor F → Option (Ptr F) := tensorBinary env env.mul

/-- `tensor_div`: a zero divisor gives zero. -/
def tensorDiv : Tensor F → Tensor F → Option (Ptr F) :=
  tensorBinary env fun x y => if !env.eq y (env.lit 0) then env.div x y else env.lit 0

/-- The elementwise kernels of one operand. -/
def tensorUnary (f : F → F) (a : Tensor F) : Option (Ptr F) :=
  build env a.shape (forRange a.size fun i => (a.get i).map f)

/-- `tensor_relu`. -/
def tensorRelu : Tensor F → Option (Ptr F) :=
  tensorUnary env fun x => if env.gt x (env.lit 0) then x else env.lit 0

/-- `tensor_exp`. -/
def tensorExp : Tensor F → Option (Ptr F) := tensorUnary env env.exp

/-- `tensor_log`. -/
def tensorLog : Tensor F → Option (Ptr F) :=
  tensorUnary env fun x => if env.gt x (env.lit 0) then env.log x else env.lit (-10000000000)

/-- `tensor_sqrt`. -/
def tensorSqrt : Tensor F → Option (Ptr F) :=
  tensorUnary env fun x => if env.ge x (env.lit 0) then env.sqrt x else env.lit 0

/-- `tensor_pow`. -/
def tensorPow (a : Tensor F) (e : F) : Option (Ptr F) := tensorUnary env (fun x => env.pow x e) a

/-- `tensor_sin`. -/
def tensorSin : Tensor F → Option (Ptr F) := tensorUnary env env.sin

/-- `tensor_cos`. -/
def tensorCos : Tensor F → Option (Ptr F) := tensorUnary env env.cos

/-- `tensor_tanh`. -/
def tensorTanh : Tensor F → Option (Ptr F) := tensorUnary env env.tanh

/-- `tensor_sigmoid`. -/
def tensorSigmoid : Tensor F → Option (Ptr F) :=
  tensorUnary env fun x => env.div (env.lit 1) (env.add (env.lit 1) (env.exp (env.neg x)))

/-- `tensor_gelu`. -/
def tensorGelu : Tensor F → Option (Ptr F) :=
  tensorUnary env fun x =>
    let cube := env.mul (env.mul (env.mul (env.lit 0.044715) x) x) x
    let inner := env.tanh (env.mul (env.lit 0.7978845608) (env.add x cube))
    env.mul (env.mul (env.lit 0.5) x) (env.add (env.lit 1) inner)

/-- `tensor_silu`. -/
def tensorSilu : Tensor F → Option (Ptr F) :=
  tensorUnary env fun x => env.div x (env.add (env.lit 1) (env.exp (env.neg x)))

/-- `tensor_dropout`: the rate is not used. -/
def tensorDropout : Tensor F → Option (Ptr F) := tensorUnary env id

/-! ## Rows -/

/-- The kernels that treat the last dimension as rows: `last_dim`, `outer` and the rows' results. -/
def tensorRows (row : ℕ → (ℕ → Option F) → Option (List F)) (a : Tensor F) : Option (Ptr F) := do
  let lastDim ← if a.ndim = 0 then none else a.dim (a.ndim - 1)
  if lastDim = 0 then none
  else
    let outer := a.size / lastDim
    build env a.shape
      ((forRange outer fun o => row lastDim fun i => a.get (o * lastDim + i)).map List.flatten)

/-- One row of `tensor_softmax`. -/
def softmaxRow (lastDim : ℕ) (row : ℕ → Option F) : Option (List F) := do
  let first ← row 0
  let maxv ← (List.range' 1 (lastDim - 1)).foldlM
    (fun m i => (row i).map fun x => if env.gt x m then x else m) first
  let crow ← forRange lastDim fun i => (row i).map fun x => env.exp (env.sub x maxv)
  let sum := crow.foldl env.add (env.lit 0)
  some (crow.map fun x => env.div x sum)

/-- `tensor_softmax`. -/
def tensorSoftmax : Tensor F → Option (Ptr F) := tensorRows env (softmaxRow env)

/-- One row of `tensor_layernorm`. -/
def layernormRow (lastDim : ℕ) (row : ℕ → Option F) : Option (List F) := do
  let xs ← forRange lastDim row
  let mean := env.div (xs.foldl env.add (env.lit 0)) (env.ofSize lastDim)
  let var := xs.foldl (fun v x => env.add v (env.mul (env.sub x mean) (env.sub x mean))) (env.lit 0)
  let var := env.div var (env.ofSize lastDim)
  let std := env.sqrt (env.add var (env.lit 0.00001))
  some (xs.map fun x => env.div (env.sub x mean) std)

/-- `tensor_layernorm`. -/
def tensorLayernorm : Tensor F → Option (Ptr F) := tensorRows env (layernormRow env)

/-! ## Matrices -/

/-- `tensor_matmul`. -/
def tensorMatmul (a b : Tensor F) : Option (Ptr F) := do
  let m ← a.dim 0
  let k ← a.dim 1
  let n ← b.dim 1
  buildZeros env [m, n] (forRange2 m n fun i j =>
    accumulate k (env.lit 0) fun x l => do
      some (env.add x (env.mul (← a.get (i * k + l)) (← b.get (l * n + j)))))

/-- `tensor_attention`: the keys are read as a `dim × seq` matrix. -/
def tensorAttention (q k v : Tensor F) : Option (Ptr F) := do
  let seq ← q.dim 0
  let dim ← q.dim 1
  let kt : Tensor F := ⟨[dim, seq], dim * seq % 2 ^ 64, k.data⟩
  match ← tensorMatmul env q kt with
  | none => some none
  | some scores =>
    let scale := env.sqrt (env.ofSize dim)
    let scaled ← forRange scores.size fun i => (scores.get i).map fun x => env.div x scale
    match ← tensorSoftmax env { scores with data := scaled ++ scores.data.drop scaled.length } with
    | none => some none
    | some attn => tensorMatmul env attn v

/-! ## Convolution and pooling -/

/-- `tensor_conv2d`. The output extents wrap around when the kernel is larger than the input. -/
def tensorConv2d (input kernel : Tensor F) : Option (Ptr F) := do
  let ic ← input.dim 0
  let ih ← input.dim 1
  let iw ← input.dim 2
  let oc ← kernel.dim 0
  let kh ← kernel.dim 1
  let kw ← kernel.dim 2
  let oh := (ih + 2 ^ 64 - kh + 1) % 2 ^ 64
  let ow := (iw + 2 ^ 64 - kw + 1) % 2 ^ 64
  buildZeros env [oc, oh, ow] (forRange2 oc (oh * ow) fun o p =>
    accumulate ic (env.lit 0) fun x i => do
      let h := p / ow
      let w := p % ow
      let s ← accumulate (kh * kw) (env.lit 0) fun s q => do
        let khh := q / kw
        let kww := q % kw
        some (env.add s (env.mul (← input.get (i * ih * iw + (h + khh) * iw + (w + kww)))
          (← kernel.get (o * ic * kh * kw + i * kh * kw + khh * kw + kww))))
      some (env.add x s))

/-- `tensor_pool2d`. -/
def tensorPool2d (a : Tensor F) (poolH poolW : ℕ) : Option (Ptr F) := do
  let c ← a.dim 0
  let h ← a.dim 1
  let w ← a.dim 2
  if poolH = 0 ∨ poolW = 0 then none
  else
    let oh := h / poolH
    let ow := w / poolW
    build env [c, oh, ow] (forRange2 c (oh * ow) fun ch p =>
      accumulate (poolH * poolW) (env.lit (-10000000000)) fun mx q => do
        let v ← a.get (ch * h * w + (p / ow * poolH + q / poolW) * w + (p % ow * poolW + q % poolW))
        some (if env.gt v mx then v else mx))

/-! ## Normalisation, lookup and losses -/

/-- `tensor_batchnorm`. -/
def tensorBatchnorm (a gamma beta : Tensor F) : Option (Ptr F) := do
  let c ← a.dim 1
  let n := a.size / c
  build env a.shape (forRange2 n c fun i ch => do
    let (sum, sq) ← (List.range n).foldlM
      (fun (s : F × F) i' => (a.get (i' * c + ch)).map fun v =>
        (env.add s.1 v, env.add s.2 (env.mul v v))) (env.lit 0, env.lit 0)
    let mean := env.div sum (env.ofSize n)
    let var := env.sub (env.div sq (env.ofSize n)) (env.mul mean mean)
    let std := env.sqrt (env.add var (env.lit 0.00001))
    let x := env.sub (← a.get (i * c + ch)) mean
    some (env.add (env.div (env.mul (← gamma.get ch) x) std) (← beta.get ch)))

/-- `tensor_embedding`. -/
def tensorEmbedding (indices weights : Tensor F) : Option (Ptr F) := do
  let n := indices.size
  let d ← weights.dim 1
  build env [n, d] (forRange2 n d fun i j => do
    weights.get (env.toSize (← indices.get i) * d + j))

/-- `tensor_crossentropy`: a tensor without dimensions. -/
def tensorCrossentropy (pred target : Tensor F) : Option (Ptr F) := do
  let n ← pred.dim 0
  let c ← pred.dim 1
  buildZeros env [] (do
    let ld ← accumulate n (env.lit 0) fun ld i => do
      let t := env.toSize (← target.get i)
      let p ← pred.get (i * c + t)
      let p := if env.gt (env.lit 0.0000001) p then env.lit 0.0000001 else p
      some (env.sub ld (env.log p))
    some [env.div ld (env.ofSize n)])

/-- `tensor_mse`. -/
def tensorMse (pred target : Tensor F) : Option (Ptr F) :=
  buildZeros env [] (do
    let ld ← accumulate pred.size (env.lit 0) fun ld i => do
      let d := env.sub (← pred.get i) (← target.get i)
      some (env.add ld (env.mul d d))
    some [env.div ld (env.ofSize pred.size)])

/-! ## Putting together and cutting -/

/-- `tensor_concat`. The local shape array has one entry, so that more dimensions do not fit. -/
def tensorConcat (a b : Tensor F) : Option (Ptr F) := do
  let a₀ ← a.dim 0
  let b₀ ← b.dim 0
  if a.ndim > 1 then none
  else
    build env [(a₀ + b₀) % 2 ^ 64] (do
      let xs ← forRange a.size a.get
      let ys ← forRange b.size b.get
      some (xs ++ ys))

/-- `tensor_split_half`. -/
def tensorSplitHalf (a : Tensor F) : Option (Ptr F) := do
  let a₀ ← a.dim 0
  if a.ndim > 1 then none
  else build env [a₀ / 2] (forRange (a₀ / 2) a.get)

end Kernels

end SneppxAlg.Npe
