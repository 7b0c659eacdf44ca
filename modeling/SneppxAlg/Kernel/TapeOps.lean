import SneppxAlg.Kernel.Tape

/-!
# `ops.c`: the operations that build the tape

An operation computes its result, saves in a context what its backward function will read, and records
the new variable on the tape. While the tape is checkpointing, `SNEPPX_tape_record` frees the context
again; the backward pass then calls `recompute_ctx`, which has the parents and the parameters of the
variable only.

The arithmetic of the tensors is a parameter (`Kernels`): here it matters which backward kernel is
called, on which operands, for which variable. Views share their storage with the tensor they were made
of and `grad_accum` adds in place, so that gradients are handles into a store. Floats are passed on as
their bits. A variable is recorded at most once. Allocations succeed.
-/

namespace SneppxAlg.Autodiff

/-- A pointer to a variable. -/
abbrev Ptr : Type := Option ℕ

/-- The operations whose context is `{ a }`. -/
inductive UnaryOp
  | neg | relu | gelu | silu | sigmoid | tanh | exp | log | reshape | sqrt | abs
  | sin | cos | tan | asin | acos | atan | sinh | cosh
  deriving DecidableEq

/-- The operations whose context is `{ a, dim }`. -/
inductive DimOp
  | cumsum | cumprod | softmax | sum | mean | logSoftmax | var | std
  deriving DecidableEq

/-- The operations whose context is `{ a, b }`. -/
inductive BinaryOp
  | add | sub | mul | div | matmul | minimum | maximum
  | mseLoss | embedding | crossEntropy | nllLoss | bceLoss
  deriving DecidableEq

/-- The operations without a gradient. -/
inductive ZeroGradOp
  | eq | ne | lt | le | gt | ge | sign | floor | ceil | round | trunc
  deriving DecidableEq

/-- The losses and the embedding have no gradient for their second operand. -/
def BinaryOp.second : BinaryOp → Bool
  | add | sub | mul | div | matmul | minimum | maximum => true
  | mseLoss | embedding | crossEntropy | nllLoss | bceLoss => false

/-- A call of one of the operations, with its operands. -/
inductive Op (T : Type)
  | unary (op : UnaryOp) (a : ℕ)
  | reshape (a : ℕ) (shape : List UInt64)
  | alongDim (op : DimOp) (a : ℕ) (dim : UInt64)
  | binary (op : BinaryOp) (a b : ℕ)
  | pow (a b : ℕ)
  | fakeQuant (a : ℕ) (scale : UInt32) (bits : Int32)
  | transpose (a : ℕ) (dim1 dim2 : UInt64)
  | dropout (a : ℕ) (rate seed : UInt32)
  | layerNorm (a : ℕ) (gamma beta : Ptr) (eps : UInt32)
  | conv1d (input kernel : ℕ) (stride padding : UInt64)
  | conv2d (input kernel : ℕ) (strideH strideW padH padW : UInt64)
  | concat (vars : List ℕ) (dim : UInt64)
  | rope (a : ℕ) (cosTable : T)
  | batchNorm (a gamma beta runningMean runningVar : ℕ) (eps : UInt32)
  | zeroGrad (op : ZeroGradOp) (operands : List ℕ)

/-- The contexts. A concatenation has its own copy of the list of variables, or the array of the parents
itself (`owned = false`). -/
inductive Ctx (T : Type)
  | unary (op : UnaryOp) (a : Ptr)
  | alongDim (op : DimOp) (a : Ptr) (dim : UInt64)
  | binary (op : BinaryOp) (a b : Ptr)
  | pow (a b : Ptr) (result : Option T)
  | fakeQuant (a : Ptr) (scale : UInt32) (bits : Int32)
  | transpose (a : Ptr) (dim1 dim2 : UInt64)
  | dropout (a : Ptr) (rate seed : UInt32)
  | layerNorm (a gamma beta : Ptr) (eps : UInt32)
  | conv1d (input kernel : Ptr) (stride padding : UInt64)
  | conv2d (input kernel : Ptr) (strideH strideW padH padW : UInt64)
  | concat (owned : Bool) (vars : List Ptr) (dim : UInt64) (sizes : Option (List UInt64))
  | rope (a : Ptr) (cosTable : Option T)
  | batchNorm (a gamma beta runningMean runningVar : Ptr) (eps : UInt32)

/-- The computations of the backward functions, each for the operand at place `k` where there are
several. -/
inductive Kernel (T : Type)
  | unary (op : UnaryOp) (a : Option T)
  | alongDim (op : DimOp) (a : Option T) (dim : UInt64)
  | binary (op : BinaryOp) (k : ℕ) (a b : Option T)
  | powBase (a b : Option T)
  | powExponent (a b : Option T) (result : T)
  | copy
  | transpose (dim1 dim2 : UInt64)
  | dropout (a : Option T) (rate seed : UInt32)
  | layerNorm (k : ℕ) (a gamma beta : Option T) (eps : UInt32)
  | conv1d (k : ℕ) (input kernel : Option T) (stride padding : UInt64)
  | conv2d (k : ℕ) (input kernel : Option T) (strideH strideW padH padW : UInt64)
  | narrow (dim start length : UInt64)
  | rope (cosTable : T)
  | batchNorm (k : ℕ) (a gamma beta : Option T) (eps : UInt32)

/-- The tensor engine: `T` are the tensors of the variables, `H` the handles of gradients in a store
`M`. A null result is `none`. -/
structure Kernels (T H M : Type) where
  forward : Op T → List (Option T) → Option T
  shape : T → UInt64 → UInt64
  ones : T → M → H × M
  backward : Kernel T → H → M → Option H × M
  add : H → H → M → M

/-! ## The contexts of the operations -/

section Contexts

variable {T : Type}

/-- The operands, in the order of the arguments. -/
def Op.operands : Op T → List Ptr
  | .unary _ a | .reshape a _ | .alongDim _ a _ | .fakeQuant a _ _ | .transpose a _ _ | .dropout a _ _
  | .rope a _ => [some a]
  | .binary _ a b | .pow a b | .conv1d a b _ _ | .conv2d a b _ _ _ _ => [some a, some b]
  | .layerNorm a gamma beta _ => [some a, gamma, beta]
  | .concat vars _ | .zeroGrad _ vars => vars.map some
  | .batchNorm a gamma beta mean var _ => [some a, some gamma, some beta, some mean, some var]

/-- The operands by which `rg` is computed. -/
def Op.gradOperands : Op T → List Ptr
  | .unary _ a | .reshape a _ | .alongDim _ a _ | .fakeQuant a _ _ | .transpose a _ _ | .dropout a _ _
  | .rope a _ => [some a]
  | .binary op a b => if op.second then [some a, some b] else [some a]
  | .pow a b | .conv1d a b _ _ | .conv2d a b _ _ _ _ => [some a, some b]
  | .layerNorm a gamma beta _ => [some a, gamma, beta]
  | .concat vars _ => vars.map some
  | .batchNorm a gamma beta _ _ _ => [some a, some gamma, some beta]
  | .zeroGrad _ _ => []

/-- The argument of `set_parents`. -/
def Op.parents : Op T → List Ptr
  | .unary _ a | .reshape a _ | .alongDim _ a _ | .fakeQuant a _ _ | .transpose a _ _ | .dropout a _ _
  | .rope a _ => [some a]
  | .binary _ a b | .pow a b | .conv1d a b _ _ | .conv2d a b _ _ _ _ => [some a, some b]
  | .layerNorm a gamma beta _ => [some a, gamma, beta]
  | .concat vars _ => vars.map some
  | .batchNorm a gamma beta _ _ _ => [some a, some gamma, some beta]
  | .zeroGrad _ _ => []

/-- The parameters of the new variable, up to `param_count`. A float is stored in the low half of a
word. -/
def Op.params : Op T → List UInt64
  | .alongDim _ _ dim | .concat _ dim => [dim]
  | .transpose _ dim1 dim2 => [dim1, dim2]
  | .dropout _ rate seed => [rate.toUInt64, seed.toUInt64]
  | .layerNorm _ _ _ eps | .batchNorm _ _ _ _ _ eps => [eps.toUInt64]
  | .conv1d _ _ stride padding => [stride, padding]
  | .conv2d _ _ strideH strideW padH padW => [strideH, strideW, padH, padW]
  | .unary _ _ | .reshape _ _ | .binary _ _ _ | .pow _ _ | .fakeQuant _ _ _ | .rope _ _
  | .zeroGrad _ _ => []

/-- The context that the operation saves, for its result; `shape` is the shape of an operand. -/
def Op.savedCtx (shape : ℕ → UInt64 → UInt64) (result : T) : Op T → Option (Ctx T)
  | .unary op a => some (.unary op (some a))
  | .reshape a _ => some (.unary .reshape (some a))
  | .alongDim op a dim => some (.alongDim op (some a) dim)
  | .binary op a b => some (.binary op (some a) (some b))
  | .pow a b => some (.pow (some a) (some b) (some result))
  | .fakeQuant a scale bits => some (.fakeQuant (some a) scale bits)
  | .transpose a dim1 dim2 => some (.transpose (some a) dim1 dim2)
  | .dropout a rate seed => some (.dropout (some a) rate seed)
  | .layerNorm a gamma beta eps => some (.layerNorm (some a) gamma beta eps)
  | .conv1d input kernel stride padding => some (.conv1d (some input) (some kernel) stride padding)
  | .conv2d input kernel strideH strideW padH padW =>
    some (.conv2d (some input) (some kernel) strideH strideW padH padW)
  | .concat vars dim => some (.concat true (vars.map some) dim (some (vars.map (shape · dim))))
  | .rope a cosTable => some (.rope (some a) (some cosTable))
  | .batchNorm a gamma beta mean var eps =>
    some (.batchNorm (some a) (some gamma) (some beta) (some mean) (some var) eps)
  | .zeroGrad _ _ => none

/-- The `recompute_ctx` functions. -/
inductive RecomputeFn
  | unary (op : UnaryOp) | alongDim (op : DimOp) | binary (op : BinaryOp)
  | pow | fakeQuant | transpose | dropout | layerNorm | conv1d | conv2d | concat | rope | batchNorm

/-- The `recompute_ctx` of the new variable. -/
def Op.recomputeFn : Op T → Option RecomputeFn
  | .unary op _ => some (.unary op)
  | .reshape _ _ => some (.unary .reshape)
  | .alongDim op _ _ => some (.alongDim op)
  | .binary op _ _ => some (.binary op)
  | .pow _ _ => some .pow
  | .fakeQuant _ _ _ => some .fakeQuant
  | .transpose _ _ _ => some .transpose
  | .dropout _ _ _ => some .dropout
  | .layerNorm _ _ _ _ => some .layerNorm
  | .conv1d _ _ _ _ => some .conv1d
  | .conv2d _ _ _ _ _ _ => some .conv2d
  | .concat _ _ => some .concat
  | .rope _ _ => some .rope
  | .batchNorm _ _ _ _ _ _ => some .batchNorm
  | .zeroGrad _ _ => none

/-- `0.5f` and `1e-5f`. -/
def defaultRate : UInt32 := 0x3F000000
def defaultEps : UInt32 := 0x3727C5AC

/-- The context that a `recompute_ctx` function builds of the parents and the parameters. -/
def RecomputeFn.ctx (fn : RecomputeFn) (parents : List Ptr) (params : List UInt64) : Ctx T :=
  let parent := fun k => parents.getD k none
  match fn with
  | .unary op => .unary op (parent 0)
  | .alongDim op => .alongDim op (parent 0) (params.getD 0 0)
  | .binary op => .binary op (parent 0) (parent 1)
  | .pow => .pow (parent 0) (parent 1) none
  | .fakeQuant => .fakeQuant (parent 0) 0 0
  | .transpose => .transpose (parent 0) (params.getD 0 0) (params.getD 1 1)
  | .dropout =>
    .dropout (parent 0) ((params[0]?.map UInt64.toUInt32).getD defaultRate) (params.getD 1 0).toUInt32
  | .layerNorm =>
    .layerNorm (parent 0) (parent 1) (parent 2) ((params[0]?.map UInt64.toUInt32).getD defaultEps)
  | .conv1d => .conv1d (parent 0) (parent 1) (params.getD 0 1) (params.getD 1 0)
  | .conv2d =>
    .conv2d (parent 0) (parent 1) (params.getD 0 1) (params.getD 1 1) (params.getD 2 0) (params.getD 3 0)
  | .concat => .concat false parents (params.getD 0 0) none
  | .rope => .rope (parent 0) none
  | .batchNorm =>
    .batchNorm (parent 0) (parent 1) (parent 2) none none
      ((params[0]?.map UInt64.toUInt32).getD defaultEps)

end Contexts

/-! ## The backward functions -/

section Backward

variable {T H M : Type} (K : Kernels T H M) (data : Ptr → Option T) (requiresGrad : Ptr → Bool)

/-- The computation of a backward function for one operand, if it requires a gradient. -/
def sendTo (p : Ptr) (k : Kernel T) : List (ℕ × Kernel T) :=
  match p with
  | none => []
  | some v => if requiresGrad p then [(v, k)] else []

/-- The loop of `backward_concat`: `sizes` are the saved extents, if there are any, and `offset` is where
the next slice starts. -/
def concatContributions (dim : UInt64) : UInt64 → List Ptr → Option (List UInt64) → List (ℕ × Kernel T)
  | _, [], _ => []
  | _, none :: _, _ => []
  | offset, some v :: vars, sizes =>
    let size := match sizes with
      | some l => l.headD 0
      | none => ((data (some v)).map (K.shape · dim)).getD 0
    sendTo requiresGrad (some v) (.narrow dim offset size)
      ++ concatContributions dim (offset + size) vars (sizes.map List.tail)

/-- What the backward function with a context computes, and for which variables. -/
def contributions : Ctx T → List (ℕ × Kernel T)
  | .unary op a => sendTo requiresGrad a (.unary op (data a))
  | .alongDim op a dim => sendTo requiresGrad a (.alongDim op (data a) dim)
  | .binary op a b =>
    sendTo requiresGrad a (.binary op 0 (data a) (data b))
      ++ if op.second then sendTo requiresGrad b (.binary op 1 (data a) (data b)) else []
  | .pow a b result =>
    sendTo requiresGrad a (.powBase (data a) (data b))
      ++ match result with
        | some r => sendTo requiresGrad b (.powExponent (data a) (data b) r)
        | none => []
  | .fakeQuant a _ _ => sendTo requiresGrad a .copy
  | .transpose a dim1 dim2 => sendTo requiresGrad a (.transpose dim1 dim2)
  | .dropout a rate seed => sendTo requiresGrad a (.dropout (data a) rate seed)
  | .layerNorm a gamma beta eps =>
    sendTo requiresGrad a (.layerNorm 0 (data a) (data gamma) (data beta) eps)
      ++ sendTo requiresGrad gamma (.layerNorm 1 (data a) (data gamma) (data beta) eps)
      ++ sendTo requiresGrad beta (.layerNorm 2 (data a) (data gamma) (data beta) eps)
  | .conv1d input kernel stride padding =>
    sendTo requiresGrad input (.conv1d 0 (data input) (data kernel) stride padding)
      ++ sendTo requiresGrad kernel (.conv1d 1 (data input) (data kernel) stride padding)
  | .conv2d input kernel strideH strideW padH padW =>
    sendTo requiresGrad input (.conv2d 0 (data input) (data kernel) strideH strideW padH padW)
      ++ sendTo requiresGrad kernel (.conv2d 1 (data input) (data kernel) strideH strideW padH padW)
  | .concat _ vars dim sizes => concatContributions K data requiresGrad dim 0 vars sizes
  | .rope a cosTable =>
    match cosTable with
    | some table => sendTo requiresGrad a (.rope table)
    | none => []
  | .batchNorm a gamma beta _ _ eps =>
    sendTo requiresGrad a (.batchNorm 0 (data a) (data gamma) (data beta) eps)
      ++ sendTo requiresGrad gamma (.batchNorm 1 (data a) (data gamma) (data beta) eps)
      ++ sendTo requiresGrad beta (.batchNorm 2 (data a) (data gamma) (data beta) eps)

/-- `free_ctx` frees the array of the parents. -/
def Ctx.freesParents : Ctx T → Bool
  | .concat owned _ _ _ => !owned
  | _ => false

end Backward

/-! ## Building a graph -/

/-- A variable with its tensors. -/
structure Node (T H : Type) where
  data : T
  grad : Option H
  requiresGrad : Bool
  var : Variable (Ctx T)

/-- The variables made so far, each at the address of its place, with the tape and the depth of
`SNEPPX_no_grad_enter`. -/
structure Graph (T H : Type) where
  nodes : List (Node T H)
  tape : Tape
  checkpointing : Bool
  noGradDepth : ℕ

/-- The variables of `SNEPPX_variable_create`. -/
def newVariable {C : Type} : Variable C :=
  { parents := [], backwardFn := false, backwardCtx := none, checkpointed := false, recomputeCtx := none }

/-- The part of `SNEPPX_tape_record` while checkpointing. -/
def Variable.checkpoint {C : Type} (x : Variable C) : Variable C :=
  if x.backwardCtx.isSome && x.recomputeCtx.isSome then
    { x with checkpointed := true, backwardCtx := none }
  else x

/-- The variable of an operation that requires a gradient. -/
def Op.gradVariable {T : Type} (shape : ℕ → UInt64 → UInt64) (result : T) (op : Op T) : Variable (Ctx T) :=
  { parents := op.parents
    backwardFn := (op.savedCtx shape result).isSome
    backwardCtx := op.savedCtx shape result
    checkpointed := false
    recomputeCtx := op.recomputeFn.map fun fn => fn.ctx op.parents op.params }

/-- The comparisons and the steps record their result also where gradients are off. -/
def Op.alwaysRecords {T : Type} : Op T → Bool
  | .zeroGrad _ _ => true
  | _ => false

/-- The arguments that are refused whatever the operands are. -/
def Op.accepted {T : Type} : Op T → Bool
  | .concat vars _ => !vars.isEmpty
  | _ => true

section Build

variable {T H M : Type}

def Graph.empty : Graph T H :=
  { nodes := [], tape := ⟨[], List.nodup_nil⟩, checkpointing := false, noGradDepth := 0 }

def Graph.noGrad (g : Graph T H) : Bool := 0 < g.noGradDepth

def Graph.data (g : Graph T H) (p : Ptr) : Option T := p.bind fun v => g.nodes[v]?.map Node.data

def Graph.requiresGrad (g : Graph T H) (p : Ptr) : Bool :=
  (p.bind fun v => g.nodes[v]?.map Node.requiresGrad).getD false

def Graph.vars (g : Graph T H) (v : ℕ) : Variable (Ctx T) :=
  (g.nodes[v]?.map Node.var).getD newVariable

def Graph.grads (g : Graph T H) : Grads fun _ => H := fun v => g.nodes[v]?.bind Node.grad

/-- A pointer is null or points to a variable. -/
def Graph.valid (g : Graph T H) (p : Ptr) : Bool := p.all (· < g.nodes.length)

/-- `SNEPPX_tape_record`. -/
def Graph.tapeRecord (g : Graph T H) (v : ℕ) : Graph T H :=
  if h : v ∈ g.tape.vars then g
  else
    { g with
      tape := ⟨g.tape.vars ++ [v], List.nodup_append.2 ⟨g.tape.nodup, List.nodup_singleton v,
        fun _ ha _ hb he => h (List.mem_singleton.1 hb ▸ he ▸ ha)⟩⟩
      nodes := if g.checkpointing then
        g.nodes.modify v fun x => { x with var := x.var.checkpoint } else g.nodes }

def Graph.newNode (K : Kernels T H M) (g : Graph T H) (op : Op T) (result : T) : Node T H :=
  let rg := op.gradOperands.any g.requiresGrad && !g.noGrad
  { data := result
    grad := none
    requiresGrad := rg
    var := if rg then
        op.gradVariable (fun a dim => ((g.data (some a)).map (K.shape · dim)).getD 0) result
      else newVariable }

/-- An operation; `taped` tells whether its tape is not null. -/
def Graph.apply (K : Kernels T H M) (g : Graph T H) (op : Op T) (taped : Bool) : Graph T H :=
  if op.accepted && op.operands.all g.valid then
    match K.forward op (op.operands.map g.data) with
    | none => g
    | some result =>
      let g' := { g with nodes := g.nodes ++ [g.newNode K op result] }
      if taped && (op.alwaysRecords || !g.noGrad) then g'.tapeRecord g.nodes.length else g'
  else g

/-- What a program that builds a graph does. -/
inductive Cmd (T H : Type)
  | create (data : T) (grad : Option H) (requiresGrad : Bool)
  | apply (op : Op T) (taped : Bool)
  | record (v : ℕ)
  | checkpointBegin
  | checkpointEnd
  | noGradEnter
  | noGradExit

/-- One command. -/
def Graph.exec (K : Kernels T H M) (g : Graph T H) : Cmd T H → Graph T H
  | .create data grad rg =>
    { g with nodes := g.nodes ++ [⟨data, grad, rg && !g.noGrad, newVariable⟩] }
  | .apply op taped => g.apply K op taped
  | .record v => if v < g.nodes.length then g.tapeRecord v else g
  | .checkpointBegin => { g with checkpointing := true }
  | .checkpointEnd => { g with checkpointing := false }
  | .noGradEnter => { g with noGradDepth := g.noGradDepth + 1 }
  | .noGradExit => { g with noGradDepth := g.noGradDepth - 1 }

def build (K : Kernels T H M) (prog : List (Cmd T H)) : Graph T H := prog.foldl (Graph.exec K) Graph.empty

def Cmd.isCheckpoint : Cmd T H → Bool
  | .checkpointBegin | .checkpointEnd => true
  | _ => false

/-- The program without its checkpoints. -/
def plain (prog : List (Cmd T H)) : List (Cmd T H) := prog.filter fun c => !c.isCheckpoint

/-! ## The backward pass -/

/-- The state of the pass, with the store of the gradients. -/
structure Session (T H M : Type) extends Heap (fun _ => H) (Ctx T) where
  mem : M

/-- `grad_accum`. -/
def Session.gradAccum (K : Kernels T H M) (s : Session T H M) (p : ℕ) (new : Option H) : Session T H M :=
  match new with
  | none => s
  | some x =>
    match s.grads p with
    | some y => { s with mem := K.add y x s.mem }
    | none => { s with grads := Function.update s.grads p (some x) }

/-- One computation of a backward function. -/
def Session.send (K : Kernels T H M) (out : H) (s : Session T H M) (q : ℕ × Kernel T) : Session T H M :=
  let r := K.backward q.2 out s.mem
  Session.gradAccum K { s with mem := r.2 } q.1 r.1

/-- One round of the loop of `tape_backward`. After `free_ctx` it reads the array of the parents: `none`
where this array was freed. -/
def Session.step (K : Kernels T H M) (g : Graph T H) (s : Session T H M) (v : ℕ) :
    Option (Session T H M) :=
  match s.pending v with
  | none => some s
  | some (c, out) =>
    if c.freesParents && !(s.vars v).parents.isEmpty then none
    else
      let t := (contributions K g.data g.requiresGrad c).foldl (Session.send K out) s
      some { t with
        vars := Function.update t.vars v { t.vars v with backwardCtx := none }
        calls := t.calls ++ [v] }

/-- The state in which the loop starts. -/
def Graph.start (K : Kernels T H M) (g : Graph T H) (mem : M) (loss : ℕ) (x : Node T H) :
    Session T H M :=
  let seed := K.ones x.data mem
  { toHeap := backwardStart g.vars g.grads loss seed.1, mem := seed.2 }

/-- `SNEPPX_tape_backward`. -/
def Graph.backward (K : Kernels T H M) (g : Graph T H) (mem : M) (loss : ℕ) : Option (Session T H M) :=
  match g.nodes[loss]? with
  | none => some { vars := g.vars, grads := g.grads, calls := [], mem := mem }
  | some x =>
    (topologicalSort g.tape g.vars).reverse.foldlM (Session.step K g) (g.start K mem loss x)

end Build

end SneppxAlg.Autodiff
