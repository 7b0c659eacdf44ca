import Mathlib.Data.UInt
import Mathlib.Logic.Function.Basic
import Mathlib.Tactic.IntervalCases

/-!
# `vm.cpp`: bytecode with encrypted opcodes

A program is a sequence of four-byte instructions. `encrypt_bytecode` exclusive-ors the opcode byte
of each of them with a byte of the key, and `vm_execute` undoes that before the dispatch. But the
validation and the test for `HALT` look at the byte as it stands in the program. And the main loop
adds 4 to the instruction pointer after every handler, also after one that has set it, so that a
jump that is taken continues behind its target.

`execute_encrypted` says what remains: when the encrypted program passes the validation, and no step
of the run of the plain program is a taken jump or stands on a byte that only one of the two programs
takes for `HALT`, then both runs are the same.

The table of handlers is in the clear while a program runs, so its encryption and the indirection
play no part. The `double` operations are parameters. A rotation by 0 shifts by 64 on the other side,
which is taken as a shift by 0; no opcode that the validation accepts rotates.
-/

namespace SneppxAlg.ObfuscationVm

/-! ## States -/

/-- What the handlers use of `double`; `large x` is `fabs(x) > 1e-300`. -/
structure Floats (D : Type) where
  zero : D
  add : D → D → D
  sub : D → D → D
  mul : D → D → D
  div : D → D → D
  large : D → Bool

variable {D : Type}

/-- `SNEPPXObfVMState`; the top of the stack is the head of the list. -/
structure VMState (D : Type) where
  regs : ℕ → UInt64
  fregs : ℕ → D
  stack : List UInt64
  mem : ℕ → UInt8
  ip : ℕ
  running : Bool
  flags : UInt64

/-- The numbers of registers, of `double` registers and of bytes of memory. -/
def numRegs : ℕ := 256

def numFregs : ℕ := 8

def memSize : ℕ := 65536

def VMState.init (fl : Floats D) : VMState D where
  regs := fun _ => 0
  fregs := fun _ => fl.zero
  stack := []
  mem := fun _ => 0
  ip := 0
  running := true
  flags := 0

namespace VMState

def reg (s : VMState D) (op : UInt8) : UInt64 := s.regs op.toNat

def setReg (s : VMState D) (op : UInt8) (v : UInt64) : VMState D :=
  { s with regs := Function.update s.regs op.toNat v }

def setFreg (s : VMState D) (i : ℕ) (v : D) : VMState D :=
  { s with fregs := Function.update s.fregs i v }

end VMState

/-! ## Handlers -/

/-- `SNEPPXObfHandlerFunc`. -/
abbrev Handler (D : Type) := VMState D → UInt8 → UInt8 → VMState D

def handlerNop : Handler D := fun s _ _ => s

/-- The handlers that combine two registers into the first. -/
def handlerArith (f : UInt64 → UInt64 → UInt64) : Handler D :=
  fun s op1 op2 => s.setReg op1 (f (s.reg op1) (s.reg op2))

def handlerAdd : Handler D := handlerArith (· + ·)
def handlerSub : Handler D := handlerArith (· - ·)
def handlerMul : Handler D := handlerArith (· * ·)
def handlerXorOp : Handler D := handlerArith (· ^^^ ·)
def handlerAnd : Handler D := handlerArith (· &&& ·)
def handlerOr : Handler D := handlerArith (· ||| ·)
def handlerMovReg : Handler D := handlerArith fun _ b => b
def handlerInc : Handler D := handlerArith fun a _ => a + 1
def handlerDec : Handler D := handlerArith fun a _ => a - 1
def handlerNot : Handler D := handlerArith fun a _ => ~~~a
def handlerStore : Handler D := handlerArith fun a _ => a

def handlerRotl : Handler D := handlerArith fun val b =>
  (val <<< (b &&& 63)) ||| (val >>> (64 - (b &&& 63)))

def handlerRotr : Handler D := handlerArith fun val b =>
  (val >>> (b &&& 63)) ||| (val <<< (64 - (b &&& 63)))

def handlerDiv : Handler D := fun s op1 op2 =>
  if s.reg op2 ≠ 0 then s.setReg op1 (s.reg op1 / s.reg op2) else s

def handlerLoad : Handler D := fun s op1 op2 => s.setReg op1 op2.toUInt64

def handlerLoad64 : Handler D := fun s op1 op2 =>
  s.setReg op1 ((op2.toUInt64 <<< 8) ||| op2.toUInt64)

def handlerPush : Handler D := fun s op1 _ => { s with stack := s.reg op1 :: s.stack }

def handlerPop : Handler D := fun s op1 _ =>
  match s.stack with
  | [] => s
  | v :: rest => { s.setReg op1 v with stack := rest }

def handlerJmp : Handler D := fun s op1 _ => { s with ip := (s.reg op1).toNat }

def handlerCall : Handler D := fun s op1 _ =>
  { s with stack := .ofNat (s.ip + 4) :: s.stack, ip := (s.reg op1).toNat }

def handlerRet : Handler D := fun s _ _ =>
  match s.stack with
  | [] => s
  | v :: rest => { s with ip := v.toNat, stack := rest }

def handlerCmp : Handler D := fun s op1 op2 =>
  { s with flags := if s.reg op1 = s.reg op2 then 0 else if s.reg op1 < s.reg op2 then 1 else 2 }

/-- The conditional jumps, to the instruction whose number is in the register. -/
def handlerJcc (cond : UInt64 → Bool) : Handler D := fun s op1 _ =>
  if cond s.flags ∧ s.reg op1 < 256 then { s with ip := (s.reg op1 * 4).toNat } else s

def handlerJz : Handler D := handlerJcc (· = 0)
def handlerJnz : Handler D := handlerJcc (· ≠ 0)
def handlerJle : Handler D := handlerJcc (· ≤ 1)
def handlerJg : Handler D := handlerJcc (· = 2)
def handlerJge : Handler D := handlerJcc (· ≥ 1)

/-- The handlers that combine two `double` registers into the first. -/
def handlerFloat (f : D → D → D) : Handler D := fun s op1 op2 =>
  let idx1 := op1.toNat % 8
  let idx2 := op2.toNat % 8
  s.setFreg idx1 (f (s.fregs idx1) (s.fregs idx2))

def handlerFadd (fl : Floats D) : Handler D := handlerFloat fl.add
def handlerFsub (fl : Floats D) : Handler D := handlerFloat fl.sub
def handlerFmul (fl : Floats D) : Handler D := handlerFloat fl.mul
def handlerFdiv (fl : Floats D) : Handler D :=
  handlerFloat fun a b => if fl.large b then fl.div a b else a

def handlerMread : Handler D := fun s op1 op2 =>
  let addr := (s.reg op1).toNat
  if addr < memSize then s.setReg (op2 % 8) (s.mem addr).toUInt64 else s

def handlerMwrite : Handler D := fun s op1 op2 =>
  let addr := (s.reg op1).toNat
  if addr < memSize then
    { s with mem := Function.update s.mem addr (s.reg (op2 % 8)).toUInt8 }
  else s

def handlerEnter : Handler D := fun s _ op2 =>
  let count := op2.toNat % 8 + 1
  { s with stack := (List.range count).foldl (fun stack i => s.regs i :: stack) s.stack }

/-- One turn of the loop of `handler_leave`. -/
def leaveStep (s : VMState D) (i : ℕ) : VMState D :=
  match s.stack with
  | [] => s
  | v :: rest => { s with regs := Function.update s.regs i v, stack := rest }

def handlerLeave : Handler D := fun s _ op2 =>
  let count := op2.toNat % 8 + 1
  (List.range count).reverse.foldl leaveStep s

/-- `handler_swap` and `handler_xchg`. -/
def handlerSwap : Handler D := fun s op1 op2 => (s.setReg op1 (s.reg op2)).setReg op2 (s.reg op1)

def handlerTest : Handler D := fun s op1 op2 =>
  let result := s.reg op1 &&& s.reg op2
  { s with flags := if result = 0 then 0 else if result &&& 0x8000000000000000 ≠ 0 then 1 else 2 }

def handlerPushf : Handler D := fun s _ _ => { s with stack := s.flags :: s.stack }

def handlerPopf : Handler D := fun s _ _ =>
  match s.stack with
  | [] => s
  | v :: rest => { s with flags := v, stack := rest }

def handlers (fl : Floats D) : List (Handler D) :=
  [handlerNop, handlerAdd, handlerSub, handlerMul, handlerDiv, handlerLoad, handlerStore,
    handlerPush, handlerPop, handlerJmp, handlerCall, handlerRet, handlerCmp, handlerJz, handlerJnz,
    handlerXorOp, handlerFadd fl, handlerFsub fl, handlerFmul fl, handlerFdiv fl, handlerMread,
    handlerMwrite, handlerEnter, handlerLeave, handlerSwap, handlerAnd, handlerOr, handlerInc,
    handlerDec, handlerNot, handlerRotl, handlerRotr, handlerLoad64, handlerJle, handlerJg,
    handlerJge, handlerMovReg, handlerSwap, handlerTest, handlerPushf, handlerPopf]

def dispatch (fl : Floats D) (opcode : UInt8) : Handler D :=
  (handlers fl).getD opcode.toNat handlerNop

/-! ## Programs -/

/-- `opcode_xor_key_`: 32 bytes. -/
abbrev Key := ℕ → UInt8

/-- The byte of the key for the instruction that contains offset `i`. -/
def Key.at (key : Key) (i : ℕ) : UInt8 := key (i / 4 % 32)

def HALT : UInt8 := 0xFF

/-- The byte of a program at an offset below its length. -/
def byteAt (bytecode : List UInt8) (i : ℕ) : UInt8 := bytecode.getD i 0

def validOpcode (opcode : UInt8) : Bool := opcode ≤ 0x1A || opcode = HALT

def validateBytecode (bytecode : List UInt8) : Bool :=
  bytecode ≠ [] && bytecode.length % 4 = 0 && bytecode.length ≤ 1048576 &&
    (List.range (bytecode.length / 4)).all fun j => validOpcode (byteAt bytecode (4 * j))

def encryptBytecode (key : Key) (bytecode : List UInt8) : List UInt8 :=
  bytecode.mapIdx fun i b => if i % 4 = 0 then b ^^^ key.at i else b

/-- `resolve_opcode`; the flag is `per_opcode_key_encrypted_`. -/
def resolveOpcode (encrypted : Bool) (key : Key) (raw : UInt8) (ip : ℕ) : UInt8 :=
  if encrypted then raw ^^^ key.at ip else raw

/-- A turn of the main loop either ends it or leads to the next. -/
inductive Turn (D : Type) where
  | done (s : VMState D)
  | next (s : VMState D)

/-- One turn of the main loop of `vm_execute`. -/
def turn (fl : Floats D) (encrypted : Bool) (key : Key) (bytecode : List UInt8) (s : VMState D) :
    Turn D :=
  if s.running ∧ s.ip < bytecode.length ∧ s.ip + 4 ≤ bytecode.length then
    let raw := byteAt bytecode s.ip
    let op1 := byteAt bytecode (s.ip + 1)
    let op2 := byteAt bytecode (s.ip + 2)
    if raw = HALT then .done { s with running := false }
    else
      let s := dispatch fl (resolveOpcode encrypted key raw s.ip) s op1 op2
      .next { s with ip := (s.ip + 4) % 2 ^ 64 }
  else .done s

/-- The main loop, given up after `fuel` turns. -/
def loop (fl : Floats D) (encrypted : Bool) (key : Key) (bytecode : List UInt8) :
    ℕ → VMState D → Option (VMState D)
  | 0, _ => none
  | fuel + 1, s =>
    match turn fl encrypted key bytecode s with
    | .done s => some s
    | .next s => loop fl encrypted key bytecode fuel s

/-- `vm_execute`: what it returns, and the state that it leaves. -/
def vmExecute (fl : Floats D) (encrypted : Bool) (key : Key) (bytecode : List UInt8)
    (old : VMState D) (fuel : ℕ) : Option (Bool × VMState D) :=
  if validateBytecode bytecode then
    (loop fl encrypted key bytecode fuel (.init fl)).map fun s => (true, s)
  else some (false, old)

/-! ## Jumps and register accesses -/

/-- The target of a conditional jump that is taken. -/
def jccTarget (cond : UInt64 → Bool) (s : VMState D) (op1 : UInt8) : Option ℕ :=
  if cond s.flags ∧ s.reg op1 < 256 then some (s.reg op1 * 4).toNat else none

/-- The target of a jump, if the handler with the number `n` is one and takes it. -/
def jumpTarget (n : ℕ) (s : VMState D) (op1 : UInt8) : Option ℕ :=
  match n with
  | 9 | 10 => some (s.reg op1).toNat
  | 11 => s.stack.head?.map UInt64.toNat
  | 13 => jccTarget (· = 0) s op1
  | 14 => jccTarget (· ≠ 0) s op1
  | 33 => jccTarget (· ≤ 1) s op1
  | 34 => jccTarget (· = 2) s op1
  | 35 => jccTarget (· ≥ 1) s op1
  | _ => none

/-- The states agree on all registers and all bytes of memory that exist. -/
structure SameFile (s t : VMState D) : Prop where
  regs : ∀ i < numRegs, s.regs i = t.regs i
  fregs : ∀ i < numFregs, s.fregs i = t.fregs i
  mem : ∀ i < memSize, s.mem i = t.mem i
  stack : s.stack = t.stack
  ip : s.ip = t.ip
  running : s.running = t.running
  flags : s.flags = t.flags

/-- A handler that reads and writes only registers and bytes that exist. -/
structure InFile (h : Handler D) : Prop where
  reads : ∀ s t op1 op2, SameFile s t → SameFile (h s op1 op2) (h t op1 op2)
  regs : ∀ s op1 op2 i, numRegs ≤ i → (h s op1 op2).regs i = s.regs i
  fregs : ∀ s op1 op2 i, numFregs ≤ i → (h s op1 op2).fregs i = s.fregs i
  mem : ∀ s op1 op2 i, memSize ≤ i → (h s op1 op2).mem i = s.mem i

section Handlers

variable {s t : VMState D} {op op1 op2 : UInt8}

theorem toNat_lt_numRegs (op : UInt8) : op.toNat < numRegs := op.toNat_lt

theorem SameFile.reg (h : SameFile s t) (op : UInt8) : s.reg op = t.reg op :=
  h.regs _ (toNat_lt_numRegs op)

theorem update_congr {β : Type} {f g : ℕ → β} {n : ℕ} (h : ∀ i < n, f i = g i) (j : ℕ) (v : β) :
    ∀ i < n, Function.update f j v i = Function.update g j v i := by
  intro i hi
  by_cases hij : i = j
  · subst hij
    rw [Function.update_self, Function.update_self]
  · rw [Function.update_of_ne hij, Function.update_of_ne hij, h i hi]

theorem update_of_le {β : Type} (f : ℕ → β) {n i j : ℕ} (hj : j < n) (hi : n ≤ i) (v : β) :
    Function.update f j v i = f i :=
  Function.update_of_ne (by omega) ..

theorem SameFile.setReg (h : SameFile s t) (op : UInt8) (v : UInt64) :
    SameFile (s.setReg op v) (t.setReg op v) :=
  { h with regs := update_congr h.regs _ v }

theorem inFile_nop : InFile (handlerNop : Handler D) :=
  ⟨fun _ _ _ _ h => h, fun _ _ _ _ _ => rfl, fun _ _ _ _ _ => rfl, fun _ _ _ _ _ => rfl⟩

/-- Handlers that write one register with what they read from the registers that exist. -/
theorem inFile_setReg {h : Handler D} (dst : VMState D → UInt8 → UInt8 → UInt8)
    (val : VMState D → UInt8 → UInt8 → Option UInt64)
    (heq : ∀ s op1 op2, h s op1 op2 = match val s op1 op2 with
      | some v => s.setReg (dst s op1 op2) v
      | none => s)
    (hcongr : ∀ s t op1 op2, SameFile s t →
      val s op1 op2 = val t op1 op2 ∧ dst s op1 op2 = dst t op1 op2) : InFile h where
  reads := by
    intro s t op1 op2 hst
    obtain ⟨hval, hdst⟩ := hcongr s t op1 op2 hst
    rw [heq, heq, hval, hdst]
    cases val t op1 op2 with
    | some v => exact hst.setReg _ v
    | none => exact hst
  regs := by
    intro s op1 op2 i hi
    rw [heq]
    cases val s op1 op2 with
    | some v => exact update_of_le _ (toNat_lt_numRegs _) hi v
    | none => rfl
  fregs := by
    intro s op1 op2 i _
    rw [heq]
    cases val s op1 op2 <;> rfl
  mem := by
    intro s op1 op2 i _
    rw [heq]
    cases val s op1 op2 <;> rfl

theorem inFile_arith (f : UInt64 → UInt64 → UInt64) : InFile (handlerArith f : Handler D) :=
  inFile_setReg (fun _ op1 _ => op1) (fun s op1 op2 => some (f (s.reg op1) (s.reg op2)))
    (fun _ _ _ => rfl) fun s t op1 op2 h => by rw [h.reg, h.reg]; exact ⟨rfl, rfl⟩

theorem inFile_div : InFile (handlerDiv : Handler D) :=
  inFile_setReg (fun _ op1 _ => op1)
    (fun s op1 op2 => if s.reg op2 ≠ 0 then some (s.reg op1 / s.reg op2) else none)
    (fun s op1 op2 => by unfold handlerDiv; split_ifs <;> rfl)
    fun s t op1 op2 h => by rw [h.reg, h.reg]; exact ⟨rfl, rfl⟩

theorem inFile_load : InFile (handlerLoad : Handler D) :=
  inFile_setReg (fun _ op1 _ => op1) (fun _ _ op2 => some op2.toUInt64) (fun _ _ _ => rfl)
    fun _ _ _ _ _ => ⟨rfl, rfl⟩

theorem inFile_load64 : InFile (handlerLoad64 : Handler D) :=
  inFile_setReg (fun _ op1 _ => op1)
    (fun _ _ op2 => some ((op2.toUInt64 <<< 8) ||| op2.toUInt64)) (fun _ _ _ => rfl)
    fun _ _ _ _ _ => ⟨rfl, rfl⟩

theorem inFile_mread : InFile (handlerMread : Handler D) :=
  inFile_setReg (fun _ _ op2 => op2 % 8)
    (fun s op1 _ => if (s.reg op1).toNat < memSize then some (s.mem (s.reg op1).toNat).toUInt64
      else none)
    (fun s op1 op2 => by unfold handlerMread; dsimp only; split_ifs <;> rfl)
    fun s t op1 op2 h => by
      rw [h.reg]
      split_ifs with ha
      · rw [h.mem _ ha]
        exact ⟨rfl, rfl⟩
      · exact ⟨rfl, rfl⟩

/-- Handlers that change only the stack, the instruction pointer and the flags. -/
theorem inFile_control {h : Handler D}
    (heq : ∀ s op1 op2, (h s op1 op2).regs = s.regs ∧ (h s op1 op2).fregs = s.fregs ∧
      (h s op1 op2).mem = s.mem)
    (hcongr : ∀ s t op1 op2, SameFile s t → (h s op1 op2).stack = (h t op1 op2).stack ∧
      (h s op1 op2).ip = (h t op1 op2).ip ∧ (h s op1 op2).running = (h t op1 op2).running ∧
      (h s op1 op2).flags = (h t op1 op2).flags) : InFile h where
  reads := by
    intro s t op1 op2 hst
    obtain ⟨hstack, hip, hrun, hflags⟩ := hcongr s t op1 op2 hst
    obtain ⟨hs₁, hs₂, hs₃⟩ := heq s op1 op2
    obtain ⟨ht₁, ht₂, ht₃⟩ := heq t op1 op2
    refine ⟨?_, ?_, ?_, hstack, hip, hrun, hflags⟩
    · rw [hs₁, ht₁]
      exact hst.regs
    · rw [hs₂, ht₂]
      exact hst.fregs
    · rw [hs₃, ht₃]
      exact hst.mem
  regs := fun s op1 op2 i _ => by rw [(heq s op1 op2).1]
  fregs := fun s op1 op2 i _ => by rw [(heq s op1 op2).2.1]
  mem := fun s op1 op2 i _ => by rw [(heq s op1 op2).2.2]

theorem inFile_push : InFile (handlerPush : Handler D) :=
  inFile_control (fun _ _ _ => ⟨rfl, rfl, rfl⟩) fun s t op1 op2 h => by
    simp [handlerPush, h.reg, h.stack, h.ip, h.running, h.flags]

theorem inFile_jmp : InFile (handlerJmp : Handler D) :=
  inFile_control (fun _ _ _ => ⟨rfl, rfl, rfl⟩) fun s t op1 op2 h => by
    simp [handlerJmp, h.reg, h.stack, h.running, h.flags]

theorem inFile_call : InFile (handlerCall : Handler D) :=
  inFile_control (fun _ _ _ => ⟨rfl, rfl, rfl⟩) fun s t op1 op2 h => by
    simp [handlerCall, h.reg, h.stack, h.ip, h.running, h.flags]

theorem inFile_ret : InFile (handlerRet : Handler D) :=
  inFile_control
    (fun s _ _ => by unfold handlerRet; split <;> exact ⟨rfl, rfl, rfl⟩) fun s t op1 op2 h => by
    unfold handlerRet
    rw [h.stack]
    split <;> simp [h.stack, h.ip, h.running, h.flags]

theorem inFile_cmp : InFile (handlerCmp : Handler D) :=
  inFile_control (fun _ _ _ => ⟨rfl, rfl, rfl⟩) fun s t op1 op2 h => by
    simp [handlerCmp, h.reg, h.stack, h.ip, h.running]

theorem inFile_test : InFile (handlerTest : Handler D) :=
  inFile_control (fun _ _ _ => ⟨rfl, rfl, rfl⟩) fun s t op1 op2 h => by
    simp [handlerTest, h.reg, h.stack, h.ip, h.running]

theorem inFile_jcc (cond : UInt64 → Bool) : InFile (handlerJcc cond : Handler D) :=
  inFile_control
    (fun s _ _ => by unfold handlerJcc; split_ifs <;> exact ⟨rfl, rfl, rfl⟩) fun s t op1 op2 h => by
    unfold handlerJcc
    rw [h.reg, h.flags]
    split_ifs <;> simp [h.stack, h.ip, h.running, h.flags]

theorem inFile_pushf : InFile (handlerPushf : Handler D) :=
  inFile_control (fun _ _ _ => ⟨rfl, rfl, rfl⟩) fun s t op1 op2 h => by
    simp [handlerPushf, h.stack, h.ip, h.running, h.flags]

theorem inFile_popf : InFile (handlerPopf : Handler D) :=
  inFile_control
    (fun s _ _ => by unfold handlerPopf; split <;> exact ⟨rfl, rfl, rfl⟩) fun s t op1 op2 h => by
    unfold handlerPopf
    rw [h.stack]
    split <;> simp [h.stack, h.ip, h.running, h.flags]

theorem inFile_enter : InFile (handlerEnter : Handler D) :=
  inFile_control (fun _ _ _ => ⟨rfl, rfl, rfl⟩) fun s t op1 op2 h => by
    refine ⟨?_, h.ip, h.running, h.flags⟩
    simp only [handlerEnter]
    rw [h.stack]
    refine List.foldl_ext _ _ _ fun stack i hi => ?_
    have hlt : i < op2.toNat % 8 + 1 := List.mem_range.mp hi
    rw [h.regs i (by unfold numRegs; omega)]

theorem inFile_pop : InFile (handlerPop : Handler D) where
  reads := by
    intro s t op1 op2 h
    unfold handlerPop
    rw [h.stack]
    split
    · exact h
    · next v rest _ => exact { h.setReg op1 v with stack := rfl }
  regs := by
    intro s op1 op2 i hi
    unfold handlerPop
    split
    · rfl
    · exact update_of_le _ (toNat_lt_numRegs _) hi _
  fregs := by
    intro s op1 op2 i _
    unfold handlerPop
    split <;> rfl
  mem := by
    intro s op1 op2 i _
    unfold handlerPop
    split <;> rfl

theorem inFile_swap : InFile (handlerSwap : Handler D) where
  reads := by
    intro s t op1 op2 h
    unfold handlerSwap
    rw [h.reg, h.reg]
    exact (h.setReg op1 _).setReg op2 _
  regs := by
    intro s op1 op2 i hi
    exact (update_of_le _ (toNat_lt_numRegs op2) hi _).trans
      (update_of_le _ (toNat_lt_numRegs op1) hi _)
  fregs := fun _ _ _ _ _ => rfl
  mem := fun _ _ _ _ _ => rfl

theorem inFile_float (f : D → D → D) : InFile (handlerFloat f) where
  reads := by
    intro s t op1 op2 h
    have hlt : ∀ op : UInt8, op.toNat % 8 < numFregs := fun op => Nat.mod_lt _ (by decide)
    refine { h with fregs := ?_ }
    simp only [handlerFloat, VMState.setFreg]
    rw [h.fregs _ (hlt op1), h.fregs _ (hlt op2)]
    exact update_congr h.fregs _ _
  regs := fun _ _ _ _ _ => rfl
  fregs := fun s op1 op2 i hi => update_of_le _ (Nat.mod_lt _ (by decide)) hi _
  mem := fun _ _ _ _ _ => rfl

theorem inFile_mwrite : InFile (handlerMwrite : Handler D) where
  reads := by
    intro s t op1 op2 h
    simp only [handlerMwrite]
    rw [h.reg op1, h.reg (op2 % 8)]
    split_ifs
    · exact { h with mem := update_congr h.mem _ _ }
    · exact h
  regs := by
    intro s op1 op2 i _
    simp only [handlerMwrite]
    split_ifs <;> rfl
  fregs := by
    intro s op1 op2 i _
    simp only [handlerMwrite]
    split_ifs <;> rfl
  mem := by
    intro s op1 op2 i hi
    simp only [handlerMwrite]
    split_ifs with ha
    · exact update_of_le _ ha hi _
    · rfl

theorem leaveStep_sameFile (h : SameFile s t) (i : ℕ) : SameFile (leaveStep s i) (leaveStep t i) := by
  unfold leaveStep
  rw [h.stack]
  split
  · exact h
  · exact { h with regs := update_congr h.regs _ _, stack := rfl }

theorem foldl_leaveStep_sameFile (l : List ℕ) (h : SameFile s t) :
    SameFile (l.foldl leaveStep s) (l.foldl leaveStep t) := by
  induction l generalizing s t with
  | nil => exact h
  | cons i l ih => exact ih (leaveStep_sameFile h i)

/-- The loop of `handler_leave` writes the registers of its list only. -/
theorem foldl_leaveStep (l : List ℕ) (s : VMState D) :
    (l.foldl leaveStep s).fregs = s.fregs ∧ (l.foldl leaveStep s).mem = s.mem ∧
      (l.foldl leaveStep s).ip = s.ip ∧ ∀ i ∉ l, (l.foldl leaveStep s).regs i = s.regs i := by
  induction l generalizing s with
  | nil => exact ⟨rfl, rfl, rfl, fun _ _ => rfl⟩
  | cons j l ih =>
    have hstep : (leaveStep s j).fregs = s.fregs ∧ (leaveStep s j).mem = s.mem ∧
        (leaveStep s j).ip = s.ip ∧ ∀ i ≠ j, (leaveStep s j).regs i = s.regs i := by
      unfold leaveStep
      split
      · exact ⟨rfl, rfl, rfl, fun _ _ => rfl⟩
      · exact ⟨rfl, rfl, rfl, fun i hi => Function.update_of_ne hi ..⟩
    obtain ⟨h₁, h₂, h₃, h₄⟩ := ih (leaveStep s j)
    refine ⟨h₁.trans hstep.1, h₂.trans hstep.2.1, h₃.trans hstep.2.2.1, fun i hi => ?_⟩
    rw [List.mem_cons, not_or] at hi
    exact (h₄ i hi.2).trans (hstep.2.2.2 i hi.1)

theorem inFile_leave : InFile (handlerLeave : Handler D) where
  reads := fun s t _ _ h => foldl_leaveStep_sameFile _ h
  regs := by
    intro s op1 op2 i hi
    refine (foldl_leaveStep _ s).2.2.2 i ?_
    rw [List.mem_reverse, List.mem_range]
    unfold numRegs at hi
    omega
  fregs := fun s _ _ i _ => congrFun (foldl_leaveStep _ s).1 i
  mem := fun s _ _ i _ => congrFun (foldl_leaveStep _ s).2.1 i

/-- No handler accesses a register or a byte of memory that does not exist. -/
theorem inFile_handlers (fl : Floats D) : ∀ h ∈ handlers fl, InFile h := by
  simp only [handlers, List.forall_mem_cons, List.not_mem_nil, false_imp_iff, implies_true, and_true]
  refine ⟨inFile_nop, inFile_arith _, inFile_arith _, inFile_arith _, inFile_div, inFile_load,
    inFile_arith _, inFile_push, inFile_pop, inFile_jmp, inFile_call, inFile_ret, inFile_cmp,
    inFile_jcc _, inFile_jcc _, inFile_arith _, inFile_float _, inFile_float _, inFile_float _,
    inFile_float _, inFile_mread, inFile_mwrite, inFile_enter, inFile_leave, inFile_swap,
    inFile_arith _, inFile_arith _, inFile_arith _, inFile_arith _, inFile_arith _, inFile_arith _,
    inFile_arith _, inFile_load64, inFile_jcc _, inFile_jcc _, inFile_jcc _, inFile_arith _,
    inFile_swap, inFile_test, inFile_pushf, inFile_popf⟩

theorem inFile_dispatch (fl : Floats D) (opcode : UInt8) : InFile (dispatch fl opcode) := by
  unfold dispatch
  rw [List.getD_eq_getElem?_getD]
  cases h : (handlers fl)[opcode.toNat]? with
  | none => exact inFile_nop
  | some handler => exact inFile_handlers fl handler (List.mem_of_getElem? h)

end Handlers

/-! ## The instruction pointer -/

section Ip

variable (s : VMState D) (op1 op2 : UInt8)

theorem handlerJcc_ip (cond : UInt64 → Bool) :
    (handlerJcc cond s op1 op2).ip = (jccTarget cond s op1).getD s.ip := by
  unfold handlerJcc jccTarget
  split_ifs <;> rfl

theorem handlerRet_ip :
    (handlerRet s op1 op2).ip = (s.stack.head?.map UInt64.toNat).getD s.ip := by
  unfold handlerRet
  split
  · next h => rw [h]; rfl
  · next h => rw [h]; rfl

theorem handlerDiv_ip : (handlerDiv s op1 op2).ip = s.ip := by
  unfold handlerDiv
  split_ifs <;> rfl

theorem handlerPop_ip : (handlerPop s op1 op2).ip = s.ip := by
  unfold handlerPop
  split <;> rfl

theorem handlerPopf_ip : (handlerPopf s op1 op2).ip = s.ip := by
  unfold handlerPopf
  split <;> rfl

theorem handlerMread_ip : (handlerMread s op1 op2).ip = s.ip := by
  simp only [handlerMread]
  split_ifs <;> rfl

theorem handlerMwrite_ip : (handlerMwrite s op1 op2).ip = s.ip := by
  simp only [handlerMwrite]
  split_ifs <;> rfl

theorem handlerLeave_ip : (handlerLeave s op1 op2).ip = s.ip := (foldl_leaveStep _ s).2.2.1

/-- The handlers leave the instruction pointer at the target of a jump that is taken, and where it
was otherwise. -/
theorem dispatch_ip (fl : Floats D) (opcode : UInt8) :
    (dispatch fl opcode s op1 op2).ip = (jumpTarget opcode.toNat s op1).getD s.ip := by
  unfold dispatch
  rcases Nat.lt_or_ge opcode.toNat 41 with hlt | hge
  · interval_cases opcode.toNat
    case «4» => exact handlerDiv_ip s op1 op2
    case «8» => exact handlerPop_ip s op1 op2
    case «11» => exact handlerRet_ip s op1 op2
    case «13» => exact handlerJcc_ip s op1 op2 (· = 0)
    case «14» => exact handlerJcc_ip s op1 op2 (· ≠ 0)
    case «33» => exact handlerJcc_ip s op1 op2 (· ≤ 1)
    case «34» => exact handlerJcc_ip s op1 op2 (· = 2)
    case «35» => exact handlerJcc_ip s op1 op2 (· ≥ 1)
    case «20» => exact handlerMread_ip s op1 op2
    case «21» => exact handlerMwrite_ip s op1 op2
    case «23» => exact handlerLeave_ip s op1 op2
    case «40» => exact handlerPopf_ip s op1 op2
    all_goals rfl
  · have hnone : (handlers fl).getD opcode.toNat handlerNop = handlerNop := by
      rw [List.getD_eq_getElem?_getD, List.getElem?_eq_none (by simpa [handlers] using hge)]
      rfl
    have htarget : jumpTarget opcode.toNat s op1 = none := by
      unfold jumpTarget
      split <;> first | omega | rfl
    rw [hnone, htarget]
    rfl

end Ip

/-! ## Runs -/

section Runs

variable (fl : Floats D) (key : Key) (bytecode : List UInt8)

/-- The states at the head of the main loop. -/
inductive Reached (encrypted : Bool) : VMState D → Prop where
  | init : Reached encrypted (.init fl)
  | next {s s' : VMState D} : Reached encrypted s →
      turn fl encrypted key bytecode s = .next s' → Reached encrypted s'

/-- The main loop executes an instruction in this state. -/
def Active (s : VMState D) : Prop :=
  s.running = true ∧ s.ip < bytecode.length ∧ s.ip + 4 ≤ bytecode.length

/-- The target of the jump that the next instruction takes, if it does. -/
def nextTarget (encrypted : Bool) (s : VMState D) : Option ℕ :=
  if byteAt bytecode s.ip = HALT then none
  else jumpTarget (resolveOpcode encrypted key (byteAt bytecode s.ip) s.ip).toNat s
    (byteAt bytecode (s.ip + 1))

/-- A jump that is taken leads to its target. -/
def JumpLands (encrypted : Bool) (s : VMState D) : Prop :=
  Active bytecode s → ∀ target, nextTarget key bytecode encrypted s = some target →
    ∃ s', turn fl encrypted key bytecode s = .next s' ∧ s'.ip = target

/-- The next instruction of the plain program takes no jump, and its opcode byte is `HALT` in both
programs or in neither. -/
def Straight (s : VMState D) : Prop :=
  Active bytecode s → nextTarget key bytecode false s = none ∧
    (byteAt (encryptBytecode key bytecode) s.ip = HALT ↔ byteAt bytecode s.ip = HALT)

end Runs

section Lockstep

variable {fl : Floats D} {key : Key} {bytecode : List UInt8} {s s' : VMState D}

@[simp] theorem length_encryptBytecode :
    (encryptBytecode key bytecode).length = bytecode.length := by
  simp [encryptBytecode]

theorem byteAt_encryptBytecode {i : ℕ} (hi : i < bytecode.length) :
    byteAt (encryptBytecode key bytecode) i =
      if i % 4 = 0 then byteAt bytecode i ^^^ key.at i else byteAt bytecode i := by
  simp [byteAt, encryptBytecode, List.getD_eq_getElem?_getD, hi]

theorem length_le_of_validate (h : validateBytecode bytecode = true) :
    bytecode.length ≤ 1048576 ∧ bytecode.length % 4 = 0 := by
  simp only [validateBytecode, Bool.and_eq_true, decide_eq_true_eq] at h
  exact ⟨h.1.2, h.1.1.2⟩

/-- An instruction that takes no jump goes on with the next instruction. -/
theorem turn_next_ip (hlen : bytecode.length ≤ 1048576) (hs : Straight key bytecode s)
    (h : turn fl false key bytecode s = .next s') :
    s.ip < bytecode.length ∧ s'.ip = s.ip + 4 := by
  unfold turn at h
  split at h
  · next hact =>
    have htarget := (hs hact).1
    dsimp only at h
    split at h
    · cases h
    · next hhalt =>
      rw [nextTarget, if_neg hhalt] at htarget
      obtain rfl := Turn.next.inj h
      refine ⟨hact.2.1, ?_⟩
      dsimp only
      rw [dispatch_ip, htarget, Option.getD_none]
      omega
  · cases h

theorem encrypted_operand {i : ℕ} (hi : i < bytecode.length) (hmod : i % 4 ≠ 0) :
    byteAt (encryptBytecode key bytecode) i = byteAt bytecode i := by
  rw [byteAt_encryptBytecode hi, if_neg hmod]

theorem encrypted_opcode {i : ℕ} (hi : i < bytecode.length) (hmod : i % 4 = 0) :
    resolveOpcode true key (byteAt (encryptBytecode key bytecode) i) i =
      resolveOpcode false key (byteAt bytecode i) i := by
  rw [byteAt_encryptBytecode hi, if_pos hmod]
  simp [resolveOpcode, UInt8.xor_assoc]

/-- The two programs take the same turn. -/
theorem turn_encrypted (hip : s.ip % 4 = 0) (hs : Straight key bytecode s) :
    turn fl true key (encryptBytecode key bytecode) s = turn fl false key bytecode s := by
  unfold turn
  rw [length_encryptBytecode]
  by_cases hact : Active bytecode s
  · have hcond : s.running = true ∧ s.ip < bytecode.length ∧ s.ip + 4 ≤ bytecode.length := hact
    rw [if_pos hcond, if_pos hcond,
      encrypted_operand (show s.ip + 1 < bytecode.length by omega) (by omega),
      encrypted_operand (show s.ip + 2 < bytecode.length by omega) (by omega)]
    simp only [encrypted_opcode hcond.2.1 hip, (hs hact).2]
  · have hcond : ¬ (s.running = true ∧ s.ip < bytecode.length ∧ s.ip + 4 ≤ bytecode.length) := hact
    rw [if_neg hcond, if_neg hcond]

/-- In the encrypted program no jump is taken either. -/
theorem nextTarget_encrypted (hip : s.ip % 4 = 0) (hact : Active bytecode s)
    (hs : Straight key bytecode s) :
    nextTarget key (encryptBytecode key bytecode) true s = none := by
  have hlt : s.ip + 4 ≤ bytecode.length := hact.2.2
  have htarget := (hs hact).1
  unfold nextTarget at htarget ⊢
  rw [encrypted_operand (show s.ip + 1 < bytecode.length by omega) (by omega),
    encrypted_opcode hact.2.1 hip]
  simpa only [(hs hact).2] using htarget

section Straight

variable (hlen : bytecode.length ≤ 1048576)
  (hs : ∀ s, Reached fl key bytecode false s → Straight key bytecode s)

include hlen hs

/-- In a run without jumps the instruction pointer stays on instructions. -/
theorem Reached.ip_mod (h : Reached fl key bytecode false s) : s.ip % 4 = 0 := by
  induction h with
  | init => rfl
  | next hr hturn ih =>
    rw [(turn_next_ip hlen (hs _ hr) hturn).2]
    omega

theorem Reached.of_encrypted (h : Reached fl key (encryptBytecode key bytecode) true s) : Reached fl key bytecode false s := by
  induction h with
  | init => exact .init
  | next _ hturn ih =>
    rw [turn_encrypted (Reached.ip_mod hlen hs ih) (hs _ ih)] at hturn
    exact .next ih hturn

theorem loop_encrypted (fuel : ℕ) (h : Reached fl key bytecode false s) :
    loop fl true key (encryptBytecode key bytecode) fuel s = loop fl false key bytecode fuel s := by
  induction fuel generalizing s with
  | zero => rfl
  | succ fuel ih =>
    simp only [loop, turn_encrypted (Reached.ip_mod hlen hs h) (hs s h)]
    cases hturn : turn fl false key bytecode s with
    | done s' => rfl
    | next s' => exact ih (.next h hturn)

/-- A run without jumps comes to its end, within as many turns as the program has bytes. -/
theorem loop_terminates (n : ℕ) (hn : bytecode.length - s.ip ≤ n)
    (h : Reached fl key bytecode false s) :
    ∃ final, ∀ fuel, n < fuel → loop fl false key bytecode fuel s = some final := by
  induction n generalizing s with
  | zero =>
    refine ⟨s, fun fuel hfuel => ?_⟩
    obtain ⟨fuel, rfl⟩ := Nat.exists_eq_add_one_of_ne_zero hfuel.ne'
    have hdone : turn fl false key bytecode s = .done s := if_neg (by omega)
    simp [loop, hdone]
  | succ n ih =>
    cases hturn : turn fl false key bytecode s with
    | done s' =>
      refine ⟨s', fun fuel hfuel => ?_⟩
      obtain ⟨fuel, rfl⟩ := Nat.exists_eq_add_one_of_ne_zero (Nat.ne_zero_of_lt hfuel)
      simp [loop, hturn]
    | next s' =>
      obtain ⟨-, hip⟩ := turn_next_ip hlen (hs s h) hturn
      obtain ⟨final, hfinal⟩ := ih (by omega) (.next h hturn)
      refine ⟨final, fun fuel hfuel => ?_⟩
      obtain ⟨fuel, rfl⟩ := Nat.exists_eq_add_one_of_ne_zero (Nat.ne_zero_of_lt hfuel)
      simpa [loop, hturn] using hfinal fuel (by omega)

end Straight

end Lockstep

/-- **The encrypted program runs as the plain one,** if it is accepted and every step of the plain run
is straight: both runs come to an end, with the same result. Jumps land where they should, because
none is taken, and no handler leaves the registers. -/
theorem execute_encrypted (fl : Floats D) (key : Key) (bytecode : List UInt8)
    (hplain : validateBytecode bytecode = true)
    (hcipher : validateBytecode (encryptBytecode key bytecode) = true)
    (hs : ∀ s, Reached fl key bytecode false s → Straight key bytecode s) :
    (∃ final, ∀ old fuel, bytecode.length < fuel →
        vmExecute fl false key bytecode old fuel = some (true, final) ∧
        vmExecute fl true key (encryptBytecode key bytecode) old fuel = some (true, final)) ∧
      (∀ s, Reached fl key bytecode false s → JumpLands fl key bytecode false s) ∧
      (∀ s, Reached fl key (encryptBytecode key bytecode) true s →
        JumpLands fl key (encryptBytecode key bytecode) true s) ∧
      ∀ opcode, InFile (dispatch fl opcode) := by
  have hlen : bytecode.length ≤ 1048576 := (length_le_of_validate hplain).1
  refine ⟨?_, ?_, ?_, inFile_dispatch fl⟩
  · obtain ⟨final, hfinal⟩ := loop_terminates hlen hs bytecode.length (Nat.sub_le _ _) .init
    refine ⟨final, fun old fuel hfuel => ?_⟩
    rw [vmExecute, vmExecute, if_pos hplain, if_pos hcipher, loop_encrypted hlen hs fuel .init,
      hfinal fuel hfuel]
    exact ⟨rfl, rfl⟩
  · intro s hr hact target ht
    rw [(hs s hr hact).1] at ht
    cases ht
  · intro s hr hact target ht
    have hr' : Reached fl key bytecode false s := hr.of_encrypted hlen hs
    have hact' : Active bytecode s := by simpa [Active] using hact
    rw [nextTarget_encrypted (hr'.ip_mod hlen hs) hact' (hs s hr')] at ht
    cases ht

/-! ## Two programs -/

def intFloats : Floats ℤ := ⟨0, (· + ·), (· - ·), (· * ·), (· / ·), fun x => x ≠ 0⟩

/-- Loads a register and halts. -/
def loadProgram : List UInt8 := [5, 0, 7, 0, 0xFF, 0, 0, 0]

/-- A key that changes the first opcode only. -/
def firstKey (k : UInt8) : Key := fun j => if j = 0 then k else 0

def loaded : VMState ℤ :=
  { VMState.init intFloats with regs := Function.update (fun _ => 0) 0 7, ip := 4 }

theorem reached_loadProgram {key : Key} {s : VMState ℤ}
    (h : Reached intFloats key loadProgram false s) : s = .init intFloats ∨ s = loaded := by
  induction h with
  | init => exact .inl rfl
  | next _ hturn ih =>
    obtain rfl | rfl := ih
    · exact .inr (Turn.next.inj hturn).symm
    · cases hturn

theorem execute_encrypted_loadProgram :
    validateBytecode loadProgram = true ∧ ∃ final, ∀ old fuel, loadProgram.length < fuel →
      vmExecute intFloats false (firstKey 1) loadProgram old fuel = some (true, final) ∧
      vmExecute intFloats true (firstKey 1) (encryptBytecode (firstKey 1) loadProgram) old fuel =
        some (true, final) := by
  refine ⟨by decide, (execute_encrypted intFloats (firstKey 1) loadProgram (by decide) (by decide)
    fun s hr _ => ?_).1⟩
  obtain rfl | rfl := reached_loadProgram hr
  · exact ⟨rfl, by decide⟩
  · exact ⟨rfl, by decide⟩

/-- Loads the offset of the third instruction, and jumps to it. -/
def jumpProgram : List UInt8 := [5, 0, 8, 0, 9, 0, 0, 0, 0xFF, 0, 0, 0, 0xFF, 0, 0, 0]

/-- The jump goes on behind its target, and a program that loads a register is rejected when it is
encrypted with another key. -/
theorem jump_behind_target :
    validateBytecode jumpProgram = true ∧
      (∃ s, Reached intFloats (firstKey 0) jumpProgram false s ∧
        ¬ JumpLands intFloats (firstKey 0) jumpProgram false s) ∧
      validateBytecode loadProgram = true ∧
      vmExecute intFloats true (firstKey 0x80) (encryptBytecode (firstKey 0x80) loadProgram) loaded
        9 = some (false, loaded) := by
  refine ⟨by decide, ⟨_, .next .init rfl, fun hlands => ?_⟩, by decide, rfl⟩
  obtain ⟨s', hturn, hip⟩ := hlands ⟨rfl, by decide, by decide⟩ 8 rfl
  obtain rfl := Turn.next.inj hturn
  exact absurd hip (by decide)

end SneppxAlg.ObfuscationVm
