import SneppxAlg.Npe.Tensor

/-!
# `vm.c`, `program.c`: programs and the virtual machine

Sixteen registers that own tensors, a flat memory of floats, and a dispatch loop. A register is
`NULL`, owns a tensor, or still points to one that was destroyed: the in-place forms of most
instructions destroy the old tensor before they read their operands, and a refused `LOAD` leaves
the old pointer behind. Using such a pointer is undefined, as is everything else that is `none`
here.

The execution trace and the recording of opcodes for the profile influence nothing that is computed
and are left out, and so are the training parameters of a program.
-/

namespace SneppxAlg.Npe

/-! ## Instructions -/

/-- `SNEPPXNPEOpCode`; `other` stands for all other values of the `int`. -/
inductive Opcode
  | nop | load | store | add | sub | mul | div | matmul | relu | softmax | layernorm | attention
  | branch | halt | neg | exp | log | sqrt | pow | sin | cos | tanh | sigmoid | gelu | silu
  | dropout | conv2d | pool2d | batchnorm | embedding | crossentropy | mse | concat | split
  | other (n : ℤ)
  deriving DecidableEq

/-- `SNEPPXNPEInstruction`, less `shape_b`, which the virtual machine does not read. -/
structure Instr where
  opcode : Opcode
  destReg : BitVec 32
  srcRegA : BitVec 32
  srcRegB : BitVec 32
  immediate : BitVec 32
  shapeA0 : BitVec 32
  shapeA1 : BitVec 32
  deriving DecidableEq

/-- The register that an `int` names, if it lies between 0 and 15. -/
def reg (r : BitVec 32) : Option (Fin 16) := if h : r.toNat < 16 then some ⟨r.toNat, h⟩ else none

/-- The conversion of an `int` to `size_t`. -/
def toSize (x : BitVec 32) : ℕ := (x.signExtend 64).toNat

/-! ## States -/

variable {F : Type}

/-- What a register holds. -/
inductive Reg (F : Type)
  | null
  | live (t : Tensor F)
  | freed

/-- `SNEPPX_npe_program`, less its instructions. -/
structure State (F : Type) where
  pc : ℕ
  regs : Fin 16 → Reg F
  mem : List F

namespace State

/-- The register file with register `d` set. -/
def setReg (s : State F) (d : Fin 16) (r : Reg F) : State F :=
  { s with regs := Function.update s.regs d r }

/-- `prog->pc++`. -/
def next (s : State F) : State F := { s with pc := s.pc + 1 }

end State

/-- The register contents for a pointer returned by a kernel. -/
def Reg.ofPtr : Ptr F → Reg F
  | some t => .live t
  | none => .null

/-- `if (r) SNEPPX_tensor_destroy(r)`: the pointer stays in the register. -/
def Reg.destroy : Reg F → Option (Reg F)
  | .null => some .null
  | .live _ => some .freed
  | .freed => none

/-- The tensor behind a register that was found not to be `NULL`. -/
def Reg.deref : Reg F → Option (Tensor F)
  | .live t => some t
  | _ => none

/-- The test `prog->registers[r]`. -/
def Reg.isSet : Reg F → Bool
  | .null => false
  | _ => true

/-! ## Execution of one instruction -/

section Exec

variable (env : Env F)

/-- The registers of a list of operands, if all of them are in range and set. -/
def operands (s : State F) : List (BitVec 32) → Option (List (Fin 16))
  | [] => some []
  | r :: rs =>
    match reg r, operands s rs with
    | some i, some is => if (s.regs i).isSet then some (i :: is) else none
    | _, _ => none

/-- The common shape of the computing instructions: when the destination is in range and the
operands are set, the destination is destroyed, then the kernel runs on the operands. -/
def compute (s : State F) (dest : BitVec 32) (srcs : List (BitVec 32))
    (kernel : State F → List (Fin 16) → Option (Option (Reg F))) : Option (State F) :=
  match reg dest, operands s srcs with
  | some d, some is => do
    let old ← (s.regs d).destroy
    let s' := s.setReg d old
    match ← kernel s' is with
    | some r => some (s'.setReg d r).next
    | none => some s'.next
  | _, _ => some s.next

/-- A kernel of one operand. -/
def unary (f : Tensor F → Option (Ptr F)) (s : State F) :
    List (Fin 16) → Option (Option (Reg F))
  | [a] => do
    let p ← f (← (s.regs a).deref)
    some (some (Reg.ofPtr p))
  | _ => none

/-- A kernel of two operands. -/
def binary (f : Tensor F → Tensor F → Option (Ptr F)) (s : State F) :
    List (Fin 16) → Option (Option (Reg F))
  | [a, b] => do
    let p ← f (← (s.regs a).deref) (← (s.regs b).deref)
    some (some (Reg.ofPtr p))
  | _ => none

/-- A kernel whose third operand is the register that the immediate names; when it is not set, the
destination is not assigned. -/
def ternary (imm : BitVec 32) (f : Tensor F → Tensor F → Tensor F → Option (Ptr F)) (s : State F) :
    List (Fin 16) → Option (Option (Reg F))
  | [a, b] =>
    match reg imm with
    | none => some none
    | some i =>
      if (s.regs i).isSet then do
        let p ← f (← (s.regs a).deref) (← (s.regs b).deref) (← (s.regs i).deref)
        some (some (Reg.ofPtr p))
      else some none
  | _ => none

/-- The bias operand of a fused `MATMUL`: `tensor_add` with the register in the low byte. -/
def addBias (s : State F) (imm : BitVec 32) (mm : Tensor F) : Option (Ptr F) :=
  match reg (imm &&& 0xFF) with
  | none => some (some mm)
  | some i =>
    if (s.regs i).isSet then do
      let bias ← (s.regs i).deref
      tensorAdd env mm bias
    else some (some mm)

/-- What a `MATMUL` does to its product, by the flag bits of the immediate. -/
def matmulTail (s : State F) (imm : BitVec 32) (mm : Tensor F) : Option (Ptr F) :=
  if imm &&& 0x20000000 ≠ 0 then do
    match ← addBias env s imm mm with
    | some mm => tensorRelu env mm
    | none => some none
  else if imm &&& 0x80000000 ≠ 0 then tensorRelu env mm
  else if imm &&& 0x40000000 ≠ 0 then addBias env s imm mm
  else some (some mm)

/-- `SNEPPX_MATMUL`: the destination is destroyed last. -/
def execMatmul (s : State F) (inst : Instr) : Option (State F) :=
  match reg inst.destReg, operands s [inst.srcRegA, inst.srcRegB] with
  | some d, some [a, b] => do
    let mm ← tensorMatmul env (← (s.regs a).deref) (← (s.regs b).deref)
    let mm ← match mm with
      | some mm => matmulTail env s inst.immediate mm
      | none => some none
    let _ ← (s.regs d).destroy
    some (s.setReg d (Reg.ofPtr mm)).next
  | _, _ => some s.next

/-- The extent of a `LOAD`. -/
def loadSize (inst : Instr) : ℕ :=
  let size := if 0 < inst.shapeA0.toInt then toSize inst.shapeA0 else 1
  if 0 < inst.shapeA1.toInt then size * toSize inst.shapeA1 % 2 ^ 64 else size

/-- The shape of a `LOAD`. -/
def loadShape (inst : Instr) : List ℕ :=
  if 0 < inst.shapeA1.toInt then [toSize inst.shapeA0, toSize inst.shapeA1] else [loadSize inst]

/-- `SNEPPX_LOAD`; the flag says that the instruction was refused. -/
def execLoad (s : State F) (inst : Instr) : Option (State F × Bool) :=
  match reg inst.destReg with
  | none => some (s, true)
  | some d => do
    let old ← (s.regs d).destroy
    let s := s.setReg d old
    let sizeK := loadSize inst
    let addr := toSize inst.immediate
    if (addr + sizeK) % 2 ^ 64 > s.mem.length then some (s, true)
    else
      match tensorCreate env (loadShape inst) with
      | none => some ((s.setReg d .null).next, false)
      | some t =>
        if addr + sizeK ≤ s.mem.length ∧ sizeK ≤ t.data.length then
          let data := (s.mem.drop addr).take sizeK ++ t.data.drop sizeK
          some ((s.setReg d (.live { t with data := data })).next, false)
        else none

/-- `SNEPPX_STORE`. -/
def execStore (s : State F) (inst : Instr) : Option (State F × Bool) :=
  match operands s [inst.srcRegA] with
  | some [a] => do
    let t ← (s.regs a).deref
    let addr := toSize inst.immediate
    if (addr + t.size) % 2 ^ 64 > s.mem.length then some (s, true)
    else if addr + t.size ≤ s.mem.length ∧ t.size ≤ t.data.length then
      let mem := s.mem.take addr ++ t.data.take t.size ++ s.mem.drop (addr + t.size)
      some (State.next { s with mem := mem }, false)
    else none
  | _ => some (s, true)

/-- `SNEPPX_BRANCH`. -/
def execBranch (s : State F) (inst : Instr) : Option (State F) :=
  match operands s [inst.srcRegA] with
  | some [a] => do
    let t ← (s.regs a).deref
    let x ← t.get 0
    if env.gt x (env.lit 0) then some { s with pc := toSize inst.immediate } else some s.next
  | _ => some s.next

/-- The extents of a `POOL2D`, 2 for a zero half of the immediate. -/
def poolSize (half : BitVec 16) : ℕ := if half = 0 then 2 else half.toNat

/-- The `switch` of `SNEPPX_npe_vm_step`. The flag says that the machine stops: at `HALT`, or at a
refused memory access. -/
def exec (s : State F) (inst : Instr) : Option (State F × Bool) :=
  let go (s : Option (State F)) := s.map fun s => (s, false)
  let d := inst.destReg
  let a := inst.srcRegA
  let b := inst.srcRegB
  let imm := inst.immediate
  match inst.opcode with
  | .nop | .neg | .other _ => go (some s.next)
  | .halt => some (s, true)
  | .load => execLoad env s inst
  | .store => execStore s inst
  | .branch => go (execBranch env s inst)
  | .matmul => go (execMatmul env s inst)
  | .add => go (compute s d [a, b] (binary (tensorAdd env)))
  | .sub => go (compute s d [a, b] (binary (tensorSub env)))
  | .mul => go (compute s d [a, b] (binary (tensorMul env)))
  | .div => go (compute s d [a, b] (binary (tensorDiv env)))
  | .conv2d => go (compute s d [a, b] (binary (tensorConv2d env)))
  | .embedding => go (compute s d [a, b] (binary (tensorEmbedding env)))
  | .crossentropy => go (compute s d [a, b] (binary (tensorCrossentropy env)))
  | .mse => go (compute s d [a, b] (binary (tensorMse env)))
  | .concat => go (compute s d [a, b] (binary (tensorConcat env)))
  | .attention => go (compute s d [a, b] (ternary imm (tensorAttention env)))
  | .batchnorm => go (compute s d [a, b] (ternary imm (tensorBatchnorm env)))
  | .relu => go (compute s d [a] (unary (tensorRelu env)))
  | .softmax => go (compute s d [a] (unary (tensorSoftmax env)))
  | .layernorm => go (compute s d [a] (unary (tensorLayernorm env)))
  | .exp => go (compute s d [a] (unary (tensorExp env)))
  | .log => go (compute s d [a] (unary (tensorLog env)))
  | .sqrt => go (compute s d [a] (unary (tensorSqrt env)))
  | .pow => go (compute s d [a] (unary fun t => tensorPow env t (env.ofBits imm)))
  | .sin => go (compute s d [a] (unary (tensorSin env)))
  | .cos => go (compute s d [a] (unary (tensorCos env)))
  | .tanh => go (compute s d [a] (unary (tensorTanh env)))
  | .sigmoid => go (compute s d [a] (unary (tensorSigmoid env)))
  | .gelu => go (compute s d [a] (unary (tensorGelu env)))
  | .silu => go (compute s d [a] (unary (tensorSilu env)))
  | .dropout => go (compute s d [a] (unary (tensorDropout env)))
  | .pool2d => go (compute s d [a] (unary fun t =>
      tensorPool2d env t (poolSize (imm.extractLsb' 16 16)) (poolSize (imm.extractLsb' 0 16))))
  | .split => go (compute s d [a] (unary (tensorSplitHalf env)))

/-! ## Runs -/

/-- `SNEPPX_npe_vm_step`; the flag is the return value. -/
def step (code : List Instr) (s : State F) : Option (State F × Bool) :=
  match code[s.pc]? with
  | none => some (s, true)
  | some inst => (exec env s inst).map fun (s', stop) => (s', stop || decide (code.length ≤ s'.pc))

/-- The loop of `SNEPPX_npe_vm_run` with `n` steps left; the flag says that none was left. -/
def loop (code : List Instr) : ℕ → State F → Option (State F × Bool)
  | 0, s => some (s, true)
  | n + 1, s =>
    match step env code s with
    | none => none
    | some (s', true) => some (s', false)
    | some (s', false) => loop code n s'

/-- `last_reg`: the highest register that is set. -/
def lastReg (regs : Fin 16 → Reg F) : Option (Fin 16) :=
  (List.finRange 16).reverse.find? fun i => (regs i).isSet

/-- A copy of a tensor: a fresh one of the same shape, with the cells copied. -/
def copyTensor (t : Tensor F) : Option (Ptr F) := build env t.shape (forRange t.size t.get)

theorem neZero_registers : NeZero 16 := ⟨by decide⟩

attribute [local instance] neZero_registers

/-- The state in which the loop starts: register 0 holds a copy of the input. -/
def start (regs : Fin 16 → Reg F) (mem : List F) (input : Tensor F) : Option (State F) := do
  let _ ← (regs 0).destroy
  let r ← copyTensor env input
  some ⟨0, Function.update regs 0 (Reg.ofPtr r), mem⟩

/-- What a run leaves behind: the output tensor, the returned status, and the machine. -/
structure Result (F : Type) where
  output : Ptr F
  status : ℤ
  final : State F

/-- The end of `SNEPPX_npe_vm_run`. -/
def finish (s : State F) (exhausted : Bool) : Option (Result F) :=
  match lastReg s.regs with
  | none => some ⟨none, 1, s⟩
  | some r => do
    let out ← copyTensor env (← (s.regs r).deref)
    some ⟨out, if exhausted then 2 else 0, s⟩

/-- `SNEPPX_npe_vm_run` on a program with the given instructions, registers and memory. -/
def run (code : List Instr) (stepLimit : ℕ) (regs : Fin 16 → Reg F) (mem : List F)
    (input : Tensor F) : Option (Result F) := do
  let s ← start env regs mem input
  let (s, exhausted) ← loop env code stepLimit s
  finish env s exhausted

end Exec

end SneppxAlg.Npe
