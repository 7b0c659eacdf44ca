import SneppxAlg.Npe.Vm

/-!
# `compiler.c`, `jit_pipeline.c`, `verify.c`: the passes over programs

Each pass goes once over the instructions and appends to a new program. None appends more than it
reads, so that the array of the new program, which is as long as that of the old one, never
overflows. The new program comes from `SNEPPX_npe_program_create`: its memory is zero and its
registers are `NULL`, whatever those of the old one hold.
-/

namespace SneppxAlg.Npe

variable {F : Type}

/-! ## Programs -/

/-- `SNEPPXNPEProgram`. -/
structure Program (F : Type) where
  code : List Instr
  regs : Fin 16 → Reg F
  mem : List F

/-- `SNEPPX_npe_program_create`, with the instructions that are appended later. -/
def Program.create (env : Env F) (code : List Instr) : Program F :=
  ⟨code, fun _ => .null, List.replicate 65536 (env.lit 0)⟩

/-- `SNEPPX_npe_vm_run` on a loaded program. -/
def Program.run (env : Env F) (p : Program F) (stepLimit : ℕ) (input : Tensor F) :
    Option (Result F) :=
  Npe.run env p.code stepLimit p.regs p.mem input

/-! ## Dead code -/

/-- `reg_used`: the register is named as a source, or as the destination of an instruction that has
an effect beside it. -/
def regUsed (code : List Instr) (r : Fin 16) : Bool :=
  code.any fun inst =>
    reg inst.srcRegA = some r || reg inst.srcRegB = some r ||
      ((inst.opcode = .store || inst.opcode = .halt || inst.opcode = .branch) &&
        reg inst.destReg = some r)

/-- The instructions that `jit_dce` appends. -/
def keeps (code : List Instr) (inst : Instr) : Bool :=
  inst.opcode = .load || inst.opcode = .store || inst.opcode = .halt || inst.opcode = .branch ||
    (reg inst.destReg).any (regUsed code)

/-- `SNEPPX_npe_jit_dce`. -/
def jitDce (code : List Instr) : List Instr := code.filter (keeps code)

/-! ## Constant folding -/

/-- `reg_const` and `reg_value`: the value of a register that is taken for constant. -/
abbrev Consts (F : Type) := Fin 16 → Option F

section Fold

variable (env : Env F) (memory : List F)

/-- The instruction that replaces a folded one. -/
def foldedTo (inst : Instr) : Instr := { inst with opcode := .load, immediate := 0 }

/-- The register `dest_reg` used as an index into the two arrays; out of range it is undefined. -/
def setConst (consts : Consts F) (inst : Instr) (v : Option F) : Option (Consts F) :=
  (reg inst.destReg).map fun d => Function.update consts d v

/-- The value that an arithmetic instruction folds to, if its operands are constant. Sources out of
range are undefined. -/
def foldValue (consts : Consts F) (inst : Instr) : Option (Option F) :=
  let two (f : F → F → Option F) : Option (Option F) := do
    match consts (← reg inst.srcRegA) with
    | none => some none
    | some x =>
      match consts (← reg inst.srcRegB) with
      | none => some none
      | some y => some (f x y)
  let one (f : F → F) : Option (Option F) := do
    some ((consts (← reg inst.srcRegA)).map f)
  match inst.opcode with
  | .mul => two fun x y => some (env.mul x y)
  | .add => two fun x y => some (env.add x y)
  | .sub => two fun x y => some (env.sub x y)
  | .div => two fun x y => if env.eq y (env.lit 0) then none else some (env.div x y)
  | .relu => one fun x => if env.gt x (env.lit 0) then x else env.lit 0
  | .exp => one env.exp
  | .neg => one env.neg
  | _ => some none

/-- One instruction of `jit_constant_fold`: the constants after it, and what is appended. -/
def foldStep (consts : Consts F) (inst : Instr) : Option (Consts F × Instr) := do
  if inst.opcode = .load then
    let v := if 0 ≤ inst.immediate.toInt then memory[inst.immediate.toNat]? else none
    some (← setConst consts inst v, inst)
  else
    match ← foldValue env consts inst with
    | some v => some (← setConst consts inst (some v), foldedTo inst)
    | none =>
      if inst.opcode = .store ∨ inst.opcode = .halt then some (consts, inst)
      else
        match reg inst.destReg with
        | some d => some (Function.update consts d none, inst)
        | none => some (consts, inst)

/-- The loop of `jit_constant_fold`. -/
def foldLoop (consts : Consts F) : List Instr → Option (List Instr)
  | [] => some []
  | inst :: code => do
    let (consts, inst) ← foldStep env memory consts inst
    some (inst :: (← foldLoop consts code))

/-- `SNEPPX_npe_jit_constant_fold`. -/
def jitConstantFold (code : List Instr) : Option (List Instr) :=
  foldLoop env memory (fun _ => none) code

end Fold

/-! ## Fusion -/

/-- `inst.immediate |= flag`. -/
def withFlag (inst : Instr) (flag : BitVec 32) : Instr :=
  { inst with immediate := inst.immediate ||| flag }

/-- The bias register goes to the low byte of the immediate. -/
def withBias (inst : Instr) (bias : BitVec 32) : Instr :=
  { inst with immediate := (inst.immediate &&& 0xFFFFFF00) ||| (bias &&& 0xFF) }

/-- `next` is an instruction of the given kind that reads what `inst` wrote. -/
def follows (op : Opcode) (inst next : Instr) : Bool :=
  next.opcode = op && next.srcRegA = inst.destReg

/-- The group that `jit_fuse` finds at the head of a program: how many instructions after the first
it swallows, and what it appends. -/
def fuseAt (inst : Instr) (rest : List Instr) : ℕ × Instr :=
  match rest with
  | [] => (0, inst)
  | next :: rest =>
    let triple := match rest with
      | next2 :: _ => follows .add inst next && follows .relu next next2
      | [] => false
    if inst.opcode = .matmul && triple then
      (2, withBias (withFlag inst 0x20000000) next.srcRegB)
    else if inst.opcode = .matmul && follows .relu inst next then (1, withFlag inst 0x80000000)
    else if inst.opcode = .add && follows .relu inst next then (1, withFlag inst 0x80000000)
    else if inst.opcode = .matmul && follows .add inst next then
      (1, withBias (withFlag inst 0x40000000) next.srcRegB)
    else (0, inst)

/-- `SNEPPX_npe_jit_fuse`. -/
def jitFuse : List Instr → List Instr
  | [] => []
  | inst :: rest => (fuseAt inst rest).2 :: jitFuse (rest.drop (fuseAt inst rest).1)
termination_by code => code.length

/-! ## Hot programs -/

/-- `SNEPPXNPEJITProfile`, as far as the passes read it. -/
structure Profile where
  opFrequency : Fin 32 → ℕ
  hotThreshold : ℕ

/-- `max_freq` of `jit_compile`. -/
def Profile.maxFreq (prof : Profile) : ℕ := (List.finRange 32).foldl (fun m i => max m (prof.opFrequency i)) 0

/-- The loop of `jit_compile`: `NOP`s are dropped, and a `RELU` after a `MATMUL` is merged. -/
def compileLoop : List Instr → List Instr
  | [] => []
  | inst :: rest =>
    if inst.opcode = .nop then compileLoop rest
    else
      match rest with
      | next :: rest' =>
        if inst.opcode = .matmul && follows .relu inst next then
          withFlag inst 0x80000000 :: compileLoop rest'
        else inst :: compileLoop (next :: rest')
      | [] => [inst]
termination_by code => code.length

/-- `SNEPPX_npe_jit_compile`: `none` for a profile that is not hot. -/
def jitCompile (prof : Profile) (code : List Instr) : Option (List Instr) :=
  if prof.maxFreq < prof.hotThreshold then none else some (compileLoop code)

/-- The chain of passes in `SNEPPX_npe_jit_optimize`, on the instructions. -/
def optimizeCode (env : Env F) (prof : Option Profile) (memory : List F) (code : List Instr) :
    Option (List Instr) := do
  let folded ← jitConstantFold env memory (jitDce code)
  let fused := jitFuse folded
  match prof with
  | some prof => some ((jitCompile prof fused).getD fused)
  | none => some fused

/-- `SNEPPX_npe_jit_optimize`, called with the memory of the program as in
`SNEPPX_npe_vm_optimize`. -/
def jitOptimize (env : Env F) (prof : Option Profile) (p : Program F) : Option (Program F) :=
  (optimizeCode env prof p.mem p.code).map (Program.create env)

/-! ## Verification -/

/-- The checks of `SNEPPX_npe_verify_program` that decide its result; the other messages are
warnings. -/
def verifyProgram (p : Program F) : Bool :=
  p.code.all (fun inst =>
    decide (-1 ≤ inst.destReg.toInt) && decide (inst.destReg.toInt < 16) &&
    (!(inst.opcode = .load || inst.opcode = .store) ||
      (decide (0 ≤ inst.immediate.toInt) && decide (toSize inst.immediate < p.mem.length))) &&
    (!(inst.opcode = .branch) ||
      (decide (0 ≤ inst.immediate.toInt) && decide (toSize inst.immediate < p.code.length)))) &&
  !p.code.isEmpty

end SneppxAlg.Npe
