import SneppxAlg.Kernel.GradTensor
import SneppxAlg.Kernel.TapeCheckpoint
import SneppxAlg.Kernel.TensorContiguous
import SneppxAlg.Lib.Scatter

/-!
# `ops.c`: gradients that are views

The backward functions of `transpose`, `reshape` and `concat` make views of the gradient of their
variable: tensors that refer to the same cells. `grad_accum` keeps the first tensor that a variable gets
as its gradient, and adds later ones to it in place, cell by cell from the start of the data on, whatever
the strides are. The other backward functions allocate what they hand over.

The pass is the one of `Graph.backward`, for every program that builds a graph; here the kernels are
those on views (`viewKernels`). What the other backward functions compute, with which strides, and
whether they read the gradient as it lies in memory or a contiguous copy, is a parameter (`Arith`).

The values of a gradient are its elements in index order (`Store.read`). What a backward function should
hand over is `valueBackward`, which knows no cells. Freed cells are not used again; extents are numbers
without bounds.
-/

namespace SneppxAlg.Autodiff

open GradTensor (Dense)
open Lib.Strided

/-! ## Gradients in memory -/

/-- A `SNEPPXTensor` that a gradient pointer points to. -/
structure GradView where
  storage : ℕ
  offset : ℕ
  shape : List ℕ
  strides : List ℕ
  length_eq : strides.length = shape.length

namespace GradView

/-- `size`. -/
def size (h : GradView) : ℕ := h.shape.prod

/-- The cell of the element with number `i` in index order. -/
def cell (h : GradView) (i : ℕ) : ℕ × ℕ := (h.storage, h.offset + dot (unflatten h.shape i) h.strides)

/-- The cell `((float*)data)[i]`. -/
def flat (h : GradView) (i : ℕ) : ℕ × ℕ := (h.storage, h.offset + i)

/-- `SNEPPX_tensor_is_contiguous`. -/
def isContiguous (h : GradView) : Bool := h.strides = packedStrides h.shape

end GradView

/-- The cells of all storages, and the next storage. -/
structure Store (R : Type) where
  cells : ℕ × ℕ → R
  next : ℕ

section Store

variable {R : Type} [CommRing R]

/-- The values of a gradient. -/
def Store.read (m : Store R) (h : GradView) : Dense R := Dense.ofFn h.shape fun i => m.cells (h.cell i)

/-- A tensor that a function allocates: the shape and the strides that it returns it with, and the cells
of its storage. -/
structure NewTensor (R : Type) where
  shape : List ℕ
  strides : List ℕ
  length_eq : strides.length = shape.length
  cells : ℕ → R

def NewTensor.packed (x : Dense R) : NewTensor R :=
  { shape := x.shape, strides := packedStrides x.shape, length_eq := length_packedStrides x.shape
    cells := x.elem }

def NewTensor.values (x : NewTensor R) : Dense R :=
  Dense.ofFn x.shape fun i => x.cells (dot (unflatten x.shape i) x.strides)

def Store.create (m : Store R) (x : NewTensor R) : GradView × Store R :=
  ({ storage := m.next, offset := 0, shape := x.shape, strides := x.strides, length_eq := x.length_eq },
    { cells := fun a => if a.1 = m.next then x.cells a.2 else m.cells a, next := m.next + 1 })

/-! ## Views -/

/-- The axes of `SNEPPX_tensor_transpose`. -/
def swapAxes (n dim1 dim2 : ℕ) : List ℕ := ((List.range n).set dim1 dim2).set dim2 dim1

def permuted (axes l : List ℕ) : List ℕ := axes.map fun a => l.getD a 0

/-- `SNEPPX_tensor_transpose`. -/
def GradView.transpose (h : GradView) (dim1 dim2 : ℕ) : Option GradView :=
  if h.shape.length ≤ dim1 ∨ h.shape.length ≤ dim2 then none
  else some
    { h with
      shape := permuted (swapAxes h.shape.length dim1 dim2) h.shape
      strides := permuted (swapAxes h.shape.length dim1 dim2) h.strides
      length_eq := by simp [permuted] }

/-- `SNEPPX_tensor_narrow`. -/
def GradView.narrow (h : GradView) (dim start size : ℕ) : Option GradView :=
  if h.shape.length ≤ dim then none
  else if h.shape.getD dim 0 < start + size then none
  else some
    { h with
      offset := h.offset + start * h.strides.getD dim 0
      shape := h.shape.set dim size
      length_eq := by simp [h.length_eq] }

/-- `SNEPPX_tensor_reshape` to a shape of the same size: a view, or a copy of the data as it lies in
memory. -/
def Store.reshape (m : Store R) (h : GradView) (shape : List ℕ) : GradView × Store R :=
  if h.isContiguous ∧ h.shape ≠ [] then
    ({ h with shape := shape, strides := packedStrides shape, length_eq := length_packedStrides shape }, m)
  else m.create (.packed (Dense.ofFn shape fun i => m.cells (h.flat i)))

/-! ## The backward functions -/

/-- How a backward function reads the gradient of its variable: the data as it lies in memory, or what
`SNEPPX_tensor_contiguous` makes of it. -/
inductive Reading where
  | data | contiguous

/-- The cell that is read for the element with number `i`. -/
def GradView.address (r : Reading) (h : GradView) (i : ℕ) : ℕ × ℕ :=
  match r with
  | .data => h.flat i
  | .contiguous =>
    if h.isContiguous then h.flat i
    else (h.storage, h.offset + TensorEngine.offsetFrom h.shape.reverse h.strides.reverse i)

def Store.readAs (m : Store R) (r : Reading) (h : GradView) : Dense R :=
  Dense.ofFn h.shape fun i => m.cells (h.address r i)

/-- The forward functions, and the backward functions that allocate what they hand over. -/
structure Arith (R : Type) where
  forward : Op (Dense R) → List (Option (Dense R)) → Option (Dense R)
  contribution : Kernel (Dense R) → Dense R → Option (NewTensor R)
  reading : Kernel (Dense R) → Reading

/-- The computation of a backward function for one operand, from the gradient `out` of its variable. -/
def viewBackward (A : Arith R) (k : Kernel (Dense R)) (out : GradView) (m : Store R) :
    Option GradView × Store R :=
  match k with
  | .transpose dim1 dim2 => (out.transpose dim1.toNat dim2.toNat, m)
  | .narrow dim start length => (out.narrow dim.toNat start.toNat length.toNat, m)
  | .unary .reshape (some a) => ((m.reshape out a.shape).1, (m.reshape out a.shape).2)
  | k =>
    match A.contribution k (m.readAs (A.reading k) out) with
    | none => (none, m)
    | some x => ((m.create x).1, (m.create x).2)

/-- The part of `grad_accum` that adds the tensor `x` to the gradient `g`. -/
def Store.add (m : Store R) (g x : GradView) : Store R :=
  { m with cells := Lib.Scatter.accumulate m.cells g.flat x.flat (min g.size x.size) }

/-- The tensor engine on views. -/
def viewKernels (A : Arith R) : Kernels (Dense R) GradView (Store R) where
  forward := A.forward
  shape t dim := UInt64.ofNat (t.shape.getD dim.toNat 0)
  ones t m := m.create (.packed (Dense.ofFn t.shape fun _ => 1))
  backward := viewBackward A
  add g x m := m.add g x

/-! ## What the backward functions should hand over -/

/-- The contribution to an operand, from the values of the gradient. -/
def valueBackward (A : Arith R) (k : Kernel (Dense R)) (out : Dense R) : Option (Dense R) :=
  match k with
  | .transpose dim1 dim2 =>
    let axes := swapAxes out.shape.length dim1.toNat dim2.toNat
    if out.shape.length ≤ dim1.toNat ∨ out.shape.length ≤ dim2.toNat then none
    else some (Dense.ofFn (permuted axes out.shape) fun i =>
      out.elem (dot (permuted axes (unflatten (permuted axes out.shape) i)) (packedStrides out.shape)))
  | .narrow dim start length =>
    if out.shape.length ≤ dim.toNat then none
    else if out.shape.getD dim.toNat 0 < start.toNat + length.toNat then none
    else some (Dense.ofFn (out.shape.set dim.toNat length.toNat) fun i =>
      out.elem (dot ((unflatten (out.shape.set dim.toNat length.toNat) i).modify dim.toNat
        (· + start.toNat)) (packedStrides out.shape)))
  | .unary .reshape (some a) => some (Dense.ofFn a.shape out.elem)
  | k => (A.contribution k out).map NewTensor.values

/-- A gradient is the index-wise sum of tensors of its shape, and null if there are none. -/
def IsSum (l : List (Dense R)) : Option (Dense R) → Prop
  | none => l = []
  | some y =>
    l ≠ [] ∧ (∀ x ∈ l, x.shape = y.shape) ∧ ∀ i < y.size, y.elem i = (l.map fun x => x.elem i).sum

/-! ## Runs -/

/-- The values of the gradient of a variable. -/
def Session.value (s : Session (Dense R) GradView (Store R)) (u : ℕ) : Option (Dense R) :=
  (s.grads u).map s.mem.read

/-- The contributions to the variable `u` among those of a backward function. -/
def sentTo (A : Arith R) (out : Dense R) (u : ℕ) (l : List (ℕ × Kernel (Dense R))) : List (Dense R) :=
  l.filterMap fun q => if q.1 = u then valueBackward A q.2 out else none

/-- What `w` contributes to `u` if the gradients have the given values: nothing, where `u` is none of its
parents. -/
def Graph.owedBy (A : Arith R) (g : Graph (Dense R) GradView) (value : ℕ → Option (Dense R)) (u w : ℕ) :
    List (Dense R) :=
  if (g.vars w).backwardFn then
    match value w, (g.vars w).context with
    | some out, some c => sentTo A out u (contributions (viewKernels A) g.data g.requiresGrad c)
    | _, _ => []
  else []

/-- The contributions of all variables on the tape to `u`. -/
def Graph.owed (A : Arith R) (g : Graph (Dense R) GradView) (value : ℕ → Option (Dense R)) (u : ℕ) :
    List (Dense R) :=
  g.tape.vars.flatMap (g.owedBy A value u)

/-- The order in which the pass processes the variables. -/
def Graph.order (g : Graph (Dense R) GradView) : List ℕ := (topologicalSort g.tape g.vars).reverse

/-- A state of the pass, after the variables `done`. -/
def Graph.Reached (A : Arith R) (g : Graph (Dense R) GradView) (mem : Store R) (loss : ℕ)
    (done rest : List ℕ) (s : Session (Dense R) GradView (Store R)) : Prop :=
  ∃ x, g.nodes[loss]? = some x ∧ g.order = done ++ rest ∧
    done.foldlM (Session.step (viewKernels A) g) (g.start (viewKernels A) mem loss x) = some s

/-- Processing a variable changes the gradients of its parents only. -/
def FramesParents (A : Arith R) (g : Graph (Dense R) GradView) (mem : Store R) (loss : ℕ) : Prop :=
  ∀ done v rest s s', g.Reached A mem loss done (v :: rest) s →
    s.step (viewKernels A) g v = some s' →
    ∀ u, some u ∉ (g.vars v).parents → s'.value u = s.value u

/-- The pass ends, and the gradient of every variable is the index-wise sum of what it was at the start
and of the contributions of its consumers, as these follow from the gradients at the end. -/
def SumsContributions (A : Arith R) (g : Graph (Dense R) GradView) (mem : Store R) (loss : ℕ) : Prop :=
  ∀ x, g.nodes[loss]? = some x → ∃ s, g.backward (viewKernels A) mem loss = some s ∧
    ∀ u, IsSum (((g.start (viewKernels A) mem loss x).value u).toList ++ g.owed A s.value u) (s.value u)

/-! ## When nothing is shared -/

/-- The backward function reads the elements in index order. -/
def Readable (A : Arith R) (k : Kernel (Dense R)) (out : GradView) : Prop :=
  match k with
  | .transpose _ _ | .narrow _ _ _ => True
  | .unary .reshape (some a) => a.shape.prod = out.size ∧ ∀ i < out.size, out.flat i = out.cell i
  | k => ∀ i < out.size, out.address (A.reading k) i = out.cell i

/-- The tensor `x`, which is made of the gradient `out`, may be added to the gradient `g` of `p`: both
have one shape and lie in memory in index order, and no cell of `g` is a cell of `out` or of the gradient
of another variable. -/
structure Addable (s : Session (Dense R) GradView (Store R)) (out : GradView) (p : ℕ) (g x : GradView) :
    Prop where
  shape : x.shape = g.shape
  inOrder : ∀ i < g.size, g.flat i = g.cell i
  inOrder' : ∀ i < x.size, x.flat i = x.cell i
  apart : ∀ i < out.size, ∀ j < g.size, out.cell i ≠ g.cell j
  others : ∀ u h, u ≠ p → s.grads u = some h → ∀ i < h.size, ∀ j < g.size, h.cell i ≠ g.cell j

/-- The condition on one contribution. -/
def SendMeets (A : Arith R) (out : GradView) (s : Session (Dense R) GradView (Store R))
    (q : ℕ × Kernel (Dense R)) : Prop :=
  Readable A q.2 out ∧ ∀ g x, s.grads q.1 = some g → (viewBackward A q.2 out s.mem).1 = some x →
    Addable s out q.1 g x

/-- The condition on the contributions of a backward function. -/
def SendsMeet (A : Arith R) (out : GradView) (s : Session (Dense R) GradView (Store R)) :
    List (ℕ × Kernel (Dense R)) → Prop
  | [] => True
  | q :: l => SendMeets A out s q ∧ SendsMeet A out (Session.send (viewKernels A) out s q) l

/-- The condition on one round of the pass; a context that shares the array of the parents is freed
together with it. -/
def StepMeets (A : Arith R) (g : Graph (Dense R) GradView) (s : Session (Dense R) GradView (Store R))
    (v : ℕ) : Prop :=
  ∀ c out, s.pending v = some (c, out) → c.freesParents = false ∧
    SendsMeet A out s (contributions (viewKernels A) g.data g.requiresGrad c)

/-- All rounds of the pass meet the condition. -/
def RunMeets (A : Arith R) (g : Graph (Dense R) GradView) (mem : Store R) (loss : ℕ) : Prop :=
  ∀ done v rest s, g.Reached A mem loss done (v :: rest) s → StepMeets A g s v

end Store

end SneppxAlg.Autodiff
