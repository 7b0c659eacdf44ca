import SneppxAlg.Lib.Segments
import SneppxAlg.Npe.Passes

/-!
# One step of a program and of its rewriting

Every pass over programs keeps some instructions, drops some and replaces some by others. Two
machines, one with the old and one with the new program, are compared up to what is *stale*: a
dropped instruction leaves its destination stale, because the register holds something else in the
new machine, and so does a register or a memory cell that differed from the beginning. A kept
instruction that reads nothing stale takes both machines the same step.
-/

namespace SneppxAlg.Npe

open Lib.Segments (getElem?_splice)

variable {F : Type}

/-! ## What an instruction reads -/

/-- How an instruction finds its operands. -/
inductive Form
  | skip | halt | load | store | branch | matmul | unary | binary | ternary
  deriving DecidableEq

def Opcode.form : Opcode → Form
  | .nop | .neg | .other _ => .skip
  | .halt => .halt
  | .load => .load
  | .store => .store
  | .branch => .branch
  | .matmul => .matmul
  | .add | .sub | .mul | .div | .conv2d | .embedding | .crossentropy | .mse | .concat => .binary
  | .attention | .batchnorm => .ternary
  | .relu | .softmax | .layernorm | .exp | .log | .sqrt | .pow | .sin | .cos | .tanh | .sigmoid
  | .gelu | .silu | .dropout | .pool2d | .split => .unary

/-- The operands that decide whether a computing instruction does anything. -/
def Instr.sources (inst : Instr) : List (BitVec 32) :=
  match inst.opcode.form with
  | .skip | .halt | .load => []
  | .store | .branch | .unary => [inst.srcRegA]
  | .matmul | .binary | .ternary => [inst.srcRegA, inst.srcRegB]

/-- The fused forms of `MATMUL` that read a bias. -/
def hasBias (imm : BitVec 32) : Prop :=
  imm &&& 0x20000000 ≠ 0 ∨ (imm &&& 0x80000000 = 0 ∧ imm &&& 0x40000000 ≠ 0)

instance (imm : BitVec 32) : Decidable (hasBias imm) := by unfold hasBias; infer_instance

/-- The register that an `int` names is set. -/
def named (s : State F) (x : BitVec 32) : Bool := (reg x).any fun i => (s.regs i).isSet

/-- All registers that a step reads. When the third operand of an `ATTENTION` or a `BATCHNORM` is
not set, the destination keeps its old pointer, and that counts as reading it. -/
def reads (s : State F) (inst : Instr) : List (BitVec 32) :=
  inst.sources ++
    match inst.opcode.form with
    | .matmul => if hasBias inst.immediate then [inst.immediate &&& 0xFF] else []
    | .ternary => inst.immediate :: if named s inst.immediate then [] else [inst.destReg]
    | _ => []

/-- A `LOAD` that is refused. -/
def refused (s : State F) (inst : Instr) : Prop :=
  s.mem.length < (toSize inst.immediate + loadSize inst) % 2 ^ 64

instance (s : State F) (inst : Instr) : Decidable (refused s inst) := by
  unfold refused; infer_instance

/-- The register that a step assigns. -/
def touched (s : State F) (inst : Instr) : Option (Fin 16) :=
  match inst.opcode.form with
  | .load => if refused s inst then none else reg inst.destReg
  | .matmul | .unary | .binary | .ternary =>
    if (operands s inst.sources).isSome then reg inst.destReg else none
  | _ => none

/-- The cells that a step reads. -/
def loaded (s : State F) (inst : Instr) : Set ℕ :=
  if inst.opcode = .load ∧ ¬ refused s inst then
    {j | toSize inst.immediate ≤ j ∧ j < toSize inst.immediate + loadSize inst}
  else ∅

/-- The cells that a step writes. -/
def stored (s : State F) (inst : Instr) : Set ℕ :=
  match inst.opcode, operands s [inst.srcRegA] with
  | .store, some [a] =>
    {j | ∃ t, (s.regs a).deref = some t ∧
      (toSize inst.immediate + t.size) % 2 ^ 64 ≤ s.mem.length ∧
      toSize inst.immediate ≤ j ∧ j < toSize inst.immediate + t.size}
  | _, _ => ∅

/-- The step is a `BRANCH` that is taken. -/
def taken (env : Env F) (s : State F) (inst : Instr) : Prop :=
  inst.opcode = .branch ∧ ∃ a t x, operands s [inst.srcRegA] = some [a] ∧
    (s.regs a).deref = some t ∧ t.get 0 = some x ∧ env.gt x (env.lit 0) = true

/-! ## What a pass does with each instruction -/

/-- The fate of an instruction: kept, dropped because it is taken for dead, replaced by another, or
swallowed by the one that replaces an earlier instruction. -/
inductive Fate
  | keep | drop | swap | gone
  deriving DecidableEq

/-- How many instructions of the new program an instruction of the old one accounts for. -/
def Fate.size : Fate → ℕ
  | .keep | .swap => 1
  | .drop | .gone => 0

/-- The index in the new program at which the image of instruction `i` stands, or would stand. -/
def place (φ : List Fate) (i : ℕ) : ℕ := ((φ.take i).map Fate.size).sum

/-- An instruction whose only effect is on its destination register. -/
def Instr.pure (inst : Instr) : Prop :=
  inst.opcode ≠ .load ∧ inst.opcode ≠ .store ∧ inst.opcode ≠ .halt ∧ inst.opcode ≠ .branch

/-- `code'` is what becomes of `code` when its instructions have the fates `φ`. -/
inductive Aligned : List Fate → List Instr → List Instr → Prop
  | nil : Aligned [] [] []
  | keep {φ c c'} (inst : Instr) : Aligned φ c c' → Aligned (.keep :: φ) (inst :: c) (inst :: c')
  | drop {φ c c'} (inst : Instr) : inst.pure → Aligned φ c c' → Aligned (.drop :: φ) (inst :: c) c'
  | swap {φ c c'} (inst inst' : Instr) :
      Aligned φ c c' → Aligned (.swap :: φ) (inst :: c) (inst' :: c')
  | gone {φ c c'} (inst : Instr) : Aligned φ c c' → Aligned (.gone :: φ) (inst :: c) c'

@[simp] theorem place_zero (φ : List Fate) : place φ 0 = 0 := rfl

@[simp] theorem place_cons_succ (f : Fate) (φ : List Fate) (i : ℕ) :
    place (f :: φ) (i + 1) = f.size + place φ i := by
  simp [place]

theorem place_succ {φ : List Fate} {i : ℕ} {f : Fate} (h : φ[i]? = some f) :
    place φ (i + 1) = place φ i + f.size := by
  rw [place, place, List.take_add_one, h]
  simp

namespace Aligned

variable {φ : List Fate} {code code' : List Instr}

theorem length_eq (h : Aligned φ code code') : φ.length = code.length := by
  induction h with
  | nil => rfl
  | keep _ _ ih | drop _ _ _ ih | swap _ _ _ ih | gone _ _ ih =>
    rw [List.length_cons, List.length_cons, ih]

theorem place_length (h : Aligned φ code code') : place φ code.length = code'.length := by
  induction h with
  | nil => rfl
  | keep _ _ ih | swap _ _ _ ih =>
    rw [List.length_cons, List.length_cons, place_cons_succ, ih, Fate.size, Nat.add_comm]
  | drop _ _ _ ih | gone _ _ ih => rw [List.length_cons, place_cons_succ, ih, Fate.size, Nat.zero_add]

theorem length_le (h : Aligned φ code code') : code'.length ≤ code.length := by
  induction h with
  | nil => exact le_rfl
  | keep _ _ ih | swap _ _ _ ih => exact Nat.succ_le_succ ih
  | drop _ _ _ ih | gone _ _ ih => exact Nat.le_succ_of_le ih

/-- The image of a kept instruction is that instruction. -/
theorem get_keep (h : Aligned φ code code') {i : ℕ} (hi : φ[i]? = some .keep) :
    code'[place φ i]? = code[i]? := by
  induction h generalizing i with
  | nil => simp at hi
  | keep inst h ih =>
    cases i with
    | zero => rfl
    | succ i =>
      rw [place_cons_succ, Fate.size, Nat.add_comm 1, List.getElem?_cons_succ,
        List.getElem?_cons_succ]
      exact ih (by simpa using hi)
  | swap inst inst' h ih =>
    cases i with
    | zero => simp at hi
    | succ i =>
      rw [place_cons_succ, Fate.size, Nat.add_comm 1, List.getElem?_cons_succ,
        List.getElem?_cons_succ]
      exact ih (by simpa using hi)
  | drop inst _ h ih | gone inst h ih =>
    cases i with
    | zero => simp at hi
    | succ i =>
      rw [place_cons_succ, Fate.size, Nat.zero_add, List.getElem?_cons_succ]
      exact ih (by simpa using hi)

theorem get_drop (h : Aligned φ code code') {i : ℕ} {inst : Instr} (hi : φ[i]? = some .drop)
    (hc : code[i]? = some inst) : inst.pure := by
  induction h generalizing i with
  | nil => simp at hi
  | keep _ _ ih | swap _ _ _ ih | gone _ _ ih =>
    cases i with
    | zero => simp at hi
    | succ i => exact ih (by simpa using hi) (by simpa using hc)
  | drop _ hp _ ih =>
    cases i with
    | zero =>
      obtain rfl : _ = inst := by simpa using hc
      exact hp
    | succ i => exact ih (by simpa using hi) (by simpa using hc)

end Aligned

/-! ## Execution by form -/

section Exec

variable (env : Env F)

/-- The result of an instruction that does not stop the machine. -/
def continues (s : Option (State F)) : Option (State F × Bool) := s.map fun s => (s, false)

theorem continues_eq_some {s : Option (State F)} {s' : State F} {stop : Bool} :
    continues s = some (s', stop) ↔ s = some s' ∧ stop = false := by
  cases s with
  | none => simp [continues]
  | some a => simp [continues, eq_comm]

/-- What `exec` does, by the form of the instruction. -/
theorem exec_form (inst : Instr) :
    match inst.opcode.form with
    | .skip => ∀ s : State F, exec env s inst = some (s.next, false)
    | .halt => ∀ s : State F, exec env s inst = some (s, true)
    | .load => ∀ s : State F, exec env s inst = execLoad env s inst
    | .store => ∀ s : State F, exec env s inst = execStore s inst
    | .branch => ∀ s : State F, exec env s inst = continues (execBranch env s inst)
    | .matmul => ∀ s : State F, exec env s inst = continues (execMatmul env s inst)
    | .unary => ∃ f, ∀ s : State F,
        exec env s inst = continues (compute s inst.destReg [inst.srcRegA] (unary f))
    | .binary => ∃ f, ∀ s : State F,
        exec env s inst =
          continues (compute s inst.destReg [inst.srcRegA, inst.srcRegB] (binary f))
    | .ternary => ∃ f, ∀ s : State F,
        exec env s inst = continues
          (compute s inst.destReg [inst.srcRegA, inst.srcRegB] (ternary inst.immediate f)) := by
  cases h : inst.opcode <;> simp only [Opcode.form] <;> first
    | (intro s; simp only [exec, h]; done)
    | (intro s; simp only [exec, h]; rfl)
    | exact ⟨_, fun s => by simp only [exec, h]; rfl⟩

/-! ## Agreement of two machines -/

/-- What may differ between the two machines, and how many steps the new one has saved. -/
structure Stale where
  regs : Finset (Fin 16)
  cells : Set ℕ
  skipped : ℕ

/-- The two machines agree on all that is not stale. -/
structure Agree (σ : Stale) (s t : State F) : Prop where
  regs : ∀ i ∉ σ.regs, s.regs i = t.regs i
  length : s.mem.length = t.mem.length
  cells : ∀ j ∉ σ.cells, s.mem[j]? = t.mem[j]?

/-- No stale register of the new machine dangles. -/
def Intact (σ : Stale) (t : State F) : Prop := ∀ i ∈ σ.regs, t.regs i ≠ .freed

/-- The registers named by a list of operands are not stale. -/
def Fresh (σ : Stale) (xs : List (BitVec 32)) : Prop := ∀ x ∈ xs, ∀ i, reg x = some i → i ∉ σ.regs

/-- What is stale after a kept instruction. -/
def Stale.keep (σ : Stale) (s : State F) (inst : Instr) : Stale :=
  { σ with
    regs := σ.regs \ (touched s inst).toFinset
    cells := σ.cells \ stored s inst }

/-- What is stale after a dropped instruction. -/
def Stale.drop (σ : Stale) (s : State F) (inst : Instr) : Stale :=
  { σ with
    regs := σ.regs ∪ (touched s inst).toFinset
    skipped := σ.skipped + 1 }

/-- How the program counters of the two machines move. -/
inductive Moves (inst : Instr) (s t s' t' : State F) : Bool → Prop
  | stop : s'.pc = s.pc → t'.pc = t.pc → Moves inst s t s' t' true
  | next : s'.pc = s.pc + 1 → t'.pc = t.pc + 1 → Moves inst s t s' t' false
  | jump : taken env s inst → s'.pc = toSize inst.immediate → t'.pc = toSize inst.immediate →
      Moves inst s t s' t' false

variable {env} {σ : Stale} {s t s' : State F} {inst : Instr} {stop : Bool}

theorem Fresh.regs_eq {xs : List (BitVec 32)} (h : Fresh σ xs) (ha : Agree σ s t) {x : BitVec 32}
    (hx : x ∈ xs) {i : Fin 16} (hi : reg x = some i) : s.regs i = t.regs i :=
  ha.regs i (h x hx i hi)

theorem operands_congr {xs : List (BitVec 32)}
    (h : ∀ x ∈ xs, ∀ i, reg x = some i → s.regs i = t.regs i) :
    operands s xs = operands t xs := by
  induction xs with
  | nil => rfl
  | cons x xs ih =>
    have ih := ih fun y hy => h y (List.mem_cons_of_mem x hy)
    rw [operands, operands, ih]
    cases hr : reg x with
    | none => rfl
    | some i =>
      cases operands t xs with
      | none => rfl
      | some is => simp only [h x List.mem_cons_self i hr]

theorem mem_operands {xs : List (BitVec 32)} {is : List (Fin 16)} (h : operands s xs = some is) :
    ∀ i ∈ is, ∃ x ∈ xs, reg x = some i := by
  induction xs generalizing is with
  | nil =>
    obtain rfl : [] = is := by simpa [operands] using h
    simp
  | cons x xs ih =>
    rw [operands] at h
    cases hr : reg x with
    | none => simp [hr] at h
    | some r =>
      cases ho : operands s xs with
      | none => simp [hr, ho] at h
      | some rs =>
        simp only [hr, ho] at h
        split at h
        · obtain rfl := Option.some.inj h
          intro i hi
          rcases List.mem_cons.mp hi with rfl | hi
          · exact ⟨x, List.mem_cons_self, hr⟩
          · obtain ⟨y, hy, hyr⟩ := ih ho i hi
            exact ⟨y, List.mem_cons_of_mem x hy, hyr⟩
        · simp at h

theorem setReg_regs_eq {D : Finset (Fin 16)} (h : ∀ i ∉ D, s.regs i = t.regs i) (d : Fin 16)
    {r r' : Reg F} (hr : d ∉ D → r = r') :
    ∀ i ∉ D, (s.setReg d r).regs i = (t.setReg d r').regs i := by
  intro i hi
  by_cases hd : i = d
  · subst hd
    simp [State.setReg, hr hi]
  · simp [State.setReg, hd, h i hi]

/-- After both have put the same value into a register, they agree on it too. -/
theorem setReg_regs_eq_sdiff {D : Finset (Fin 16)} (h : ∀ i ∉ D, s.regs i = t.regs i) (d : Fin 16)
    (r : Reg F) : ∀ i ∉ D \ (some d).toFinset, (s.setReg d r).regs i = (t.setReg d r).regs i := by
  intro i hi
  by_cases hd : i = d
  · subst hd
    simp [State.setReg]
  · have hD : i ∉ D := by
      intro hD
      exact hd (by simpa [hD, eq_comm] using hi)
    simp [State.setReg, hd, h i hD]

theorem destroy_of_ne_freed {r : Reg F} (h : r ≠ .freed) : ∃ r', r.destroy = some r' := by
  cases r with
  | null => exact ⟨_, rfl⟩
  | live t => exact ⟨_, rfl⟩
  | freed => exact absurd rfl h

/-- Both machines can destroy the tensor in a register when one of them can. -/
theorem Agree.destroy (ha : Agree σ s t) (hi : Intact σ t) {d : Fin 16} {old : Reg F}
    (ho : (s.regs d).destroy = some old) :
    ∃ old', (t.regs d).destroy = some old' ∧ (d ∉ σ.regs → old = old') := by
  by_cases hd : d ∈ σ.regs
  · obtain ⟨old', h⟩ := destroy_of_ne_freed (hi d hd)
    exact ⟨old', h, fun h => absurd hd h⟩
  · exact ⟨old, by rw [← ha.regs d hd, ho], fun _ => rfl⟩

/-- The kernel of an instruction computes the same in two machines that agree on its operands. -/
def Respects (σ : Stale) (K : State F → List (Fin 16) → Option (Option (Reg F))) : Prop :=
  ∀ s t : State F, ∀ is, (∀ i ∉ σ.regs, s.regs i = t.regs i) → (∀ i ∈ is, i ∉ σ.regs) →
    K s is = K t is

theorem respects_unary (f : Tensor F → Option (Ptr F)) : Respects σ (unary f) := by
  intro s t is h hm
  match is with
  | [a] => simp only [unary, h a (hm a (by simp))]
  | [] | _ :: _ :: _ => rfl

theorem respects_binary (f : Tensor F → Tensor F → Option (Ptr F)) : Respects σ (binary f) := by
  intro s t is h hm
  match is with
  | [a, b] => simp only [binary, h a (hm a (by simp)), h b (hm b (by simp))]
  | [] | [_] | _ :: _ :: _ :: _ => rfl

theorem respects_ternary {imm : BitVec 32} (hf : Fresh σ [imm])
    (f : Tensor F → Tensor F → Tensor F → Option (Ptr F)) : Respects σ (ternary imm f) := by
  intro s t is h hm
  match is with
  | [a, b] =>
    cases hr : reg imm with
    | none => simp only [ternary, hr]
    | some i =>
      have hi : i ∉ σ.regs := hf imm (by simp) i hr
      simp only [ternary, hr, h a (hm a (by simp)), h b (hm b (by simp)), h i hi]
  | [] | [_] | _ :: _ :: _ :: _ => rfl

/-- A kept computing instruction: the two machines agree on its result. -/
theorem compute_keep {dest : BitVec 32} {srcs : List (BitVec 32)}
    {K : State F → List (Fin 16) → Option (Option (Reg F))} (ha : Agree σ s t) (hi : Intact σ t)
    (hf : Fresh σ srcs) (hK : Respects σ K)
    (hn : ∀ d old is, reg dest = some d → (s.regs d).destroy = some old →
      K (s.setReg d old) is = some none → d ∉ σ.regs)
    (hs : compute s dest srcs K = some s') :
    ∃ t', compute t dest srcs K = some t' ∧
      (∀ i ∉ σ.regs \ (if (operands s srcs).isSome then reg dest else none).toFinset,
        s'.regs i = t'.regs i) ∧
      (∀ i ∈ σ.regs \ (if (operands s srcs).isSome then reg dest else none).toFinset,
        t'.regs i = t.regs i) ∧
      s'.mem = s.mem ∧ t'.mem = t.mem ∧ s'.pc = s.pc + 1 ∧ t'.pc = t.pc + 1 := by
  have hop : operands s srcs = operands t srcs := operands_congr fun x hx i hr => hf.regs_eq ha hx hr
  cases hd : reg dest with
  | none =>
    simp only [compute, hd] at hs ⊢
    obtain rfl := Option.some.inj hs
    refine ⟨t.next, rfl, ?_, fun _ _ => rfl, rfl, rfl, rfl, rfl⟩
    intro i h
    exact ha.regs i (by simpa using h)
  | some d =>
    cases ho : operands s srcs with
    | none =>
      simp only [compute, hd, ho] at hs
      obtain rfl := Option.some.inj hs
      refine ⟨t.next, by simp only [compute, hd, ← hop, ho], ?_, fun _ _ => rfl, rfl, rfl, rfl, rfl⟩
      intro i h
      exact ha.regs i (by simpa using h)
    | some is =>
      have hm : ∀ i ∈ is, i ∉ σ.regs := by
        intro i hi
        obtain ⟨x, hx, hr⟩ := mem_operands ho i hi
        exact hf x hx i hr
      simp only [compute, hd, ho, Option.bind_eq_bind, Option.bind_eq_some_iff] at hs
      obtain ⟨old, hold, res, hres, hs⟩ := hs
      obtain ⟨old', hold', heq⟩ := ha.destroy hi hold
      have hagree := setReg_regs_eq ha.regs d heq
      rw [hK _ _ is hagree hm] at hres
      simp only [compute, hd, ← hop, ho, Option.bind_eq_bind, hold', Option.bind_some, hres]
      cases res with
      | none =>
        have hnd := hn d old is hd hold (by rw [hK _ _ is hagree hm, hres])
        obtain rfl := Option.some.inj hs
        refine ⟨_, rfl, ?_, ?_, rfl, rfl, rfl, rfl⟩
        · intro i h
          refine hagree i fun hin => ?_
          have : i = d := by simpa [hin, eq_comm] using h
          exact hnd (this ▸ hin)
        · intro i h
          have hid : i ≠ d := by rintro rfl; simp at h
          simp [State.next, State.setReg, hid]
      | some r =>
        obtain rfl := Option.some.inj hs
        refine ⟨_, rfl, ?_, ?_, rfl, rfl, rfl, rfl⟩
        · exact setReg_regs_eq_sdiff hagree d r
        · intro i h
          have hid : i ≠ d := by rintro rfl; simp at h
          simp [State.next, State.setReg, hid]

/-- One step of both machines on a kept instruction. -/
structure KeptStep (env : Env F) (σ : Stale) (inst : Instr) (s t s' t' : State F) (stop : Bool) :
    Prop where
  agree : Agree (σ.keep s inst) s' t'
  intact : stop = false → Intact (σ.keep s inst) t'
  moves : Moves env inst s t s' t' stop

/-- A kept instruction that does nothing but assign a register. -/
theorem KeptStep.of_regs {t' : State F} (ha : Agree σ s t) (hi : Intact σ t)
    (hst : stored s inst = ∅)
    (hr : ∀ i ∉ σ.regs \ (touched s inst).toFinset, s'.regs i = t'.regs i)
    (ht : ∀ i ∈ σ.regs \ (touched s inst).toFinset, t'.regs i = t.regs i)
    (hsm : s'.mem = s.mem) (htm : t'.mem = t.mem) (hsp : s'.pc = s.pc + 1)
    (htp : t'.pc = t.pc + 1) : KeptStep env σ inst s t s' t' false where
  agree :=
    { regs := hr
      length := by rw [hsm, htm, ha.length]
      cells := by
        intro j hj
        rw [hsm, htm]
        exact ha.cells j (by simpa [Stale.keep, hst] using hj) }
  intact := by
    intro _ i hm
    rw [ht i hm]
    exact hi i (Finset.mem_sdiff.mp hm).1
  moves := .next hsp htp

/-- A kept instruction that changes nothing. -/
theorem KeptStep.of_skip (ha : Agree σ s t) (hi : Intact σ t) (ht : touched s inst = none)
    (hst : stored s inst = ∅) : KeptStep env σ inst s t s.next t.next false :=
  .of_regs ha hi hst (fun i h => ha.regs i (by simpa [ht] using h)) (fun _ _ => rfl) rfl rfl rfl rfl

/-- A kept instruction that stops the machine where it is. -/
theorem KeptStep.of_stop (ha : Agree σ s t) (ht : touched s inst = none)
    (hst : stored s inst = ∅) : KeptStep env σ inst s t s t true where
  agree :=
    { regs := fun i h => ha.regs i (by simpa [Stale.keep, ht] using h)
      length := ha.length
      cells := fun j h => ha.cells j (by simpa [Stale.keep, hst] using h) }
  intact := by intro h; cases h
  moves := .stop rfl rfl

theorem stored_of_form (h : inst.opcode.form ≠ .store) : stored s inst = ∅ := by
  cases ho : inst.opcode <;> simp [stored, ho]
  simp [ho, Opcode.form] at h

theorem addBias_congr {imm : BitVec 32} (mm : Tensor F)
    (h : ∀ i, reg (imm &&& 0xFF) = some i → s.regs i = t.regs i) :
    addBias env s imm mm = addBias env t imm mm := by
  unfold addBias
  cases hr : reg (imm &&& 0xFF) with
  | none => rfl
  | some i => simp only [h i hr]

theorem matmulTail_congr {imm : BitVec 32} (mm : Tensor F)
    (h : hasBias imm → ∀ i, reg (imm &&& 0xFF) = some i → s.regs i = t.regs i) :
    matmulTail env s imm mm = matmulTail env t imm mm := by
  unfold matmulTail
  by_cases h2 : imm &&& 0x20000000 ≠ 0
  · rw [if_pos h2, if_pos h2, addBias_congr mm (h (.inl h2))]
  rw [if_neg h2, if_neg h2]
  by_cases h8 : imm &&& 0x80000000 ≠ 0
  · rw [if_pos h8, if_pos h8]
  rw [if_neg h8, if_neg h8]
  by_cases h4 : imm &&& 0x40000000 ≠ 0
  · rw [if_pos h4, if_pos h4, addBias_congr mm (h (.inr ⟨not_not.mp h8, h4⟩))]
  · rw [if_neg h4, if_neg h4]

theorem operands_pair {x y : BitVec 32} {is : List (Fin 16)} (h : operands s [x, y] = some is) :
    ∃ a b, is = [a, b] ∧ reg x = some a ∧ reg y = some b := by
  cases hx : reg x with
  | none => simp [operands, hx] at h
  | some a =>
    cases hy : reg y with
    | none => simp [operands, hx, hy] at h
    | some b =>
      simp only [operands, hx, hy] at h
      by_cases hb : (s.regs b).isSet
      · by_cases ha : (s.regs a).isSet
        · simp only [hb, ha, if_true, Option.some.injEq] at h
          exact ⟨a, b, h.symm, rfl, rfl⟩
        · simp [hb, ha] at h
      · simp [hb] at h

theorem operands_single {x : BitVec 32} {is : List (Fin 16)} (h : operands s [x] = some is) :
    ∃ a, is = [a] ∧ reg x = some a := by
  cases hx : reg x with
  | none => simp [operands, hx] at h
  | some a =>
    simp only [operands, hx] at h
    by_cases ha : (s.regs a).isSet
    · simp only [ha, if_true, Option.some.injEq] at h
      exact ⟨a, h.symm, rfl⟩
    · simp [ha] at h

theorem execMatmul_tail {d : Fin 16} {imm : BitVec 32} {mm : Ptr F}
    (h : (match mm with
      | some mm => (matmulTail env s imm mm).bind fun mm =>
          (s.regs d).destroy.bind fun _ => some (s.setReg d (Reg.ofPtr mm)).next
      | none => (some none).bind fun mm =>
          (s.regs d).destroy.bind fun _ => some (s.setReg d (Reg.ofPtr mm)).next) = some s') :
    ∃ tail old, (match mm with
      | some mm => matmulTail env s imm mm
      | none => some none) = some tail ∧ (s.regs d).destroy = some old ∧
      (s.setReg d (Reg.ofPtr tail)).next = s' := by
  cases mm with
  | none =>
    simp only [Option.bind_some, Option.bind_eq_some_iff, Option.some.injEq] at h
    obtain ⟨old, hold, h⟩ := h
    exact ⟨none, old, rfl, hold, h⟩
  | some mm =>
    simp only [Option.bind_eq_some_iff, Option.some.injEq] at h
    obtain ⟨tail, htail, old, hold, h⟩ := h
    exact ⟨tail, old, htail, hold, h⟩

theorem execMatmul_keep (hfm : inst.opcode.form = .matmul) (ha : Agree σ s t) (hi : Intact σ t)
    (hf : Fresh σ (reads s inst)) (hs : execMatmul env s inst = some s') :
    ∃ t', execMatmul env t inst = some t' ∧ KeptStep env σ inst s t s' t' false := by
  have hst : stored s inst = ∅ := stored_of_form (by simp [hfm])
  have hsrc : inst.sources = [inst.srcRegA, inst.srcRegB] := by simp [Instr.sources, hfm]
  have hfs : Fresh σ [inst.srcRegA, inst.srcRegB] := by
    intro x hx
    exact hf x (by rw [reads, hsrc]; exact List.mem_append_left _ hx)
  have hbias : hasBias inst.immediate → ∀ i, reg (inst.immediate &&& 0xFF) = some i →
      s.regs i = t.regs i := by
    intro hb i hr
    exact hf.regs_eq ha (x := inst.immediate &&& 0xFF) (by simp [reads, hfm, hb]) hr
  have hop := operands_congr fun x hx i hr => hfs.regs_eq ha hx hr
  cases hd : reg inst.destReg with
  | none =>
    simp only [execMatmul, hd] at hs ⊢
    obtain rfl := Option.some.inj hs
    exact ⟨t.next, rfl, .of_skip ha hi (by simp [touched, hfm, hd]) hst⟩
  | some d =>
    cases ho : operands s [inst.srcRegA, inst.srcRegB] with
    | none =>
      simp only [execMatmul, hd, ho] at hs
      obtain rfl := Option.some.inj hs
      exact ⟨t.next, by simp only [execMatmul, hd, ← hop, ho],
        .of_skip ha hi (by simp [touched, hfm, hsrc, ho]) hst⟩
    | some is =>
      obtain ⟨a, b, rfl, hra, hrb⟩ := operands_pair ho
      have hea : s.regs a = t.regs a := hfs.regs_eq ha (by simp) hra
      have heb : s.regs b = t.regs b := hfs.regs_eq ha (by simp) hrb
      have ht : touched s inst = some d := by simp [touched, hfm, hsrc, ho, hd]
      simp only [execMatmul, hd, ho, Option.bind_eq_bind, Option.bind_eq_some_iff] at hs
      obtain ⟨x, hx, y, hy, mm, hmm, hs⟩ := hs
      obtain ⟨tail, old, htail, hold, rfl⟩ := execMatmul_tail hs
      obtain ⟨old', hold', -⟩ := ha.destroy hi hold
      rw [hea] at hx
      rw [heb] at hy
      refine ⟨(t.setReg d (Reg.ofPtr tail)).next, ?_, ?_⟩
      · simp only [execMatmul, hd, ← hop, ho, Option.bind_eq_bind, hx, hy, hmm, Option.bind_some]
        cases mm with
        | none =>
          obtain rfl := Option.some.inj htail
          simp [hold']
        | some mm =>
          simp only [matmulTail_congr mm hbias] at htail
          simp only [htail, hold', Option.bind_some]
      · refine .of_regs ha hi hst ?_ ?_ rfl rfl rfl rfl
        · rw [ht]
          exact setReg_regs_eq_sdiff ha.regs d _
        · intro i h
          have hid : i ≠ d := by rintro rfl; simp [ht] at h
          simp [State.next, State.setReg, hid]

theorem drop_take_congr {α : Type*} {l l' : List α} {a k : ℕ}
    (h : ∀ j, a ≤ j → j < a + k → l[j]? = l'[j]?) : (l.drop a).take k = (l'.drop a).take k := by
  refine List.ext_getElem? fun i => ?_
  by_cases hi : i < k
  · rw [List.getElem?_take_of_lt hi, List.getElem?_take_of_lt hi, List.getElem?_drop,
      List.getElem?_drop]
    exact h _ (Nat.le_add_right a i) (by omega)
  · rw [List.getElem?_take, List.getElem?_take, if_neg hi, if_neg hi]

theorem form_load : inst.opcode.form = .load ↔ inst.opcode = .load := by
  cases inst.opcode <;> simp [Opcode.form]

theorem form_store : inst.opcode.form = .store ↔ inst.opcode = .store := by
  cases inst.opcode <;> simp [Opcode.form]

theorem form_branch : inst.opcode.form = .branch ↔ inst.opcode = .branch := by
  cases inst.opcode <;> simp [Opcode.form]

theorem execLoad_keep (hfm : inst.opcode = .load) (ha : Agree σ s t) (hi : Intact σ t)
    (hc : Disjoint (loaded s inst) σ.cells) (hs : execLoad env s inst = some (s', stop)) :
    ∃ t', execLoad env t inst = some (t', stop) ∧ KeptStep env σ inst s t s' t' stop := by
  have hst : stored s inst = ∅ := stored_of_form (by simp [hfm, Opcode.form])
  cases hd : reg inst.destReg with
  | none =>
    simp only [execLoad, hd, Option.some.injEq, Prod.mk.injEq] at hs ⊢
    obtain ⟨rfl, rfl⟩ := hs
    exact ⟨t, ⟨rfl, rfl⟩, .of_stop ha (by simp [touched, hfm, Opcode.form, hd]) hst⟩
  | some d =>
    simp only [execLoad, hd, Option.bind_eq_bind, Option.bind_eq_some_iff] at hs
    obtain ⟨old, hold, hs⟩ := hs
    obtain ⟨old', hold', heq⟩ := ha.destroy hi hold
    simp only [execLoad, hd, Option.bind_eq_bind, hold', Option.bind_some]
    have hlen : (t.setReg d old').mem.length = (s.setReg d old).mem.length := ha.length.symm
    rw [hlen]
    by_cases hr : (toSize inst.immediate + loadSize inst) % 2 ^ 64 > (s.setReg d old).mem.length
    · have ht : touched s inst = none := by
        have : refused s inst := hr
        simp [touched, hfm, Opcode.form, this]
      rw [if_pos hr] at hs ⊢
      obtain ⟨rfl, rfl⟩ := Prod.mk.inj (Option.some.inj hs)
      refine ⟨_, rfl, ⟨⟨?_, ha.length, ?_⟩, fun h => (by cases h), .stop rfl rfl⟩⟩
      · intro i h
        exact setReg_regs_eq ha.regs d heq i (by simpa [Stale.keep, ht] using h)
      · intro j h
        exact ha.cells j (by simpa [Stale.keep, hst] using h)
    · have hnr : ¬ refused s inst := hr
      have ht : touched s inst = some d := by simp [touched, hfm, Opcode.form, hnr, hd]
      rw [if_neg hr] at hs ⊢
      have hregs : ∀ r : Reg F, ∀ i ∉ σ.regs \ (touched s inst).toFinset,
          ((s.setReg d old).setReg d r).next.regs i =
            ((t.setReg d old').setReg d r).next.regs i := by
        rw [ht]
        exact fun r => setReg_regs_eq_sdiff (setReg_regs_eq ha.regs d heq) d r
      have hkept : ∀ r : Reg F, ∀ i ∈ σ.regs \ (touched s inst).toFinset,
          ((t.setReg d old').setReg d r).next.regs i = t.regs i := by
        intro r i h
        have hid : i ≠ d := by rintro rfl; simp [ht] at h
        simp [State.next, State.setReg, hid]
      cases hcr : tensorCreate env (loadShape inst) with
      | none =>
        simp only [hcr, Option.some.injEq, Prod.mk.injEq] at hs ⊢
        obtain ⟨rfl, rfl⟩ := hs
        exact ⟨_, ⟨rfl, rfl⟩, .of_regs ha hi hst (hregs _) (hkept _) rfl rfl rfl rfl⟩
      | some x =>
        simp only [hcr] at hs ⊢
        have hdata : (t.mem.drop (toSize inst.immediate)).take (loadSize inst) =
            (s.mem.drop (toSize inst.immediate)).take (loadSize inst) := by
          refine drop_take_congr fun j h1 h2 => (ha.cells j fun hj => ?_).symm
          refine Set.disjoint_left.mp hc ?_ hj
          rw [loaded, if_pos ⟨hfm, hnr⟩]
          exact ⟨h1, h2⟩
        by_cases hg : toSize inst.immediate + loadSize inst ≤ (s.setReg d old).mem.length ∧
            loadSize inst ≤ x.data.length
        · rw [if_pos hg] at hs ⊢
          obtain ⟨rfl, rfl⟩ := Prod.mk.inj (Option.some.inj hs)
          refine ⟨_, ?_, .of_regs ha hi hst (hregs _) (hkept _) rfl rfl rfl rfl⟩
          have hm : (t.setReg d old').mem = t.mem := rfl
          have hm' : (s.setReg d old).mem = s.mem := rfl
          rw [hm, hm', hdata]
        · rw [if_neg hg] at hs
          cases hs

theorem execStore_keep (hfm : inst.opcode = .store) (ha : Agree σ s t) (hi : Intact σ t)
    (hf : Fresh σ (reads s inst)) (hs : execStore s inst = some (s', stop)) :
    ∃ t', execStore t inst = some (t', stop) ∧ KeptStep env σ inst s t s' t' stop := by
  have hfs : Fresh σ [inst.srcRegA] := by
    intro x hx
    exact hf x (by simpa [reads, Instr.sources, hfm, Opcode.form] using hx)
  have hop := operands_congr fun x hx i hr => hfs.regs_eq ha hx hr
  have ht : touched s inst = none := by simp [touched, hfm, Opcode.form]
  cases ho : operands s [inst.srcRegA] with
  | none =>
    simp only [execStore, ho, Option.some.injEq, Prod.mk.injEq] at hs
    obtain ⟨rfl, rfl⟩ := hs
    exact ⟨t, by simp only [execStore, ← hop, ho], .of_stop ha ht (by simp [stored, hfm, ho])⟩
  | some is =>
    obtain ⟨a, rfl, hra⟩ := operands_single ho
    have hea : s.regs a = t.regs a := hfs.regs_eq ha (by simp) hra
    simp only [execStore, ho, Option.bind_eq_bind, Option.bind_eq_some_iff] at hs
    obtain ⟨x, hx, hs⟩ := hs
    have hmem : ∀ j, j ∈ stored s inst ↔ (toSize inst.immediate + x.size) % 2 ^ 64 ≤ s.mem.length ∧
        toSize inst.immediate ≤ j ∧ j < toSize inst.immediate + x.size := by
      intro j
      simp only [stored, hfm, ho, hx, Set.mem_ofPred_eq, Option.some.injEq, exists_eq_left']
    have hx' := hx
    rw [hea] at hx'
    simp only [execStore, ← hop, ho, Option.bind_eq_bind, hx', Option.bind_some, ← ha.length]
    by_cases hr : (toSize inst.immediate + x.size) % 2 ^ 64 > s.mem.length
    · rw [if_pos hr] at hs ⊢
      obtain ⟨rfl, rfl⟩ := Prod.mk.inj (Option.some.inj hs)
      refine ⟨_, rfl, ⟨⟨?_, ha.length, ?_⟩, fun h => (by cases h), .stop rfl rfl⟩⟩
      · exact fun i h => ha.regs i (by simpa [Stale.keep, ht] using h)
      · intro j h
        have hj : j ∉ stored s inst := fun hj => absurd ((hmem j).mp hj).1 (not_le.mpr hr)
        exact ha.cells j fun hc => h ⟨hc, hj⟩
    · rw [if_neg hr] at hs ⊢
      by_cases hg : toSize inst.immediate + x.size ≤ s.mem.length ∧ x.size ≤ x.data.length
      · rw [if_pos hg] at hs ⊢
        obtain ⟨rfl, rfl⟩ := Prod.mk.inj (Option.some.inj hs)
        have hl : (x.data.take x.size).length = x.size := by
          rw [List.length_take, min_eq_left hg.2]
        refine ⟨_, rfl, ⟨⟨?_, ?_, ?_⟩, fun _ => ?_, .next rfl rfl⟩⟩
        · exact fun i h => ha.regs i (by simpa [Stale.keep, ht] using h)
        · simp only [State.next, List.length_append, List.length_take, List.length_drop, ha.length]
        · intro j h
          have e1 := getElem?_splice s.mem (x.data.take x.size) (a := toSize inst.immediate)
            (by rw [hl]; exact hg.1) j
          have e2 := getElem?_splice t.mem (x.data.take x.size) (a := toSize inst.immediate)
            (by rw [hl, ← ha.length]; exact hg.1) j
          rw [hl] at e1 e2
          simp only [State.next]
          rw [e1, e2]
          by_cases hj : toSize inst.immediate ≤ j ∧ j < toSize inst.immediate + x.size
          · rw [if_pos hj, if_pos hj]
          · rw [if_neg hj, if_neg hj]
            exact ha.cells j fun hc => h ⟨hc, fun hm => hj ((hmem j).mp hm).2⟩
        · intro i h
          exact hi i (by simpa [Stale.keep, ht] using h)
      · rw [if_neg hg] at hs
        cases hs

theorem execBranch_keep (hfm : inst.opcode = .branch) (ha : Agree σ s t) (hi : Intact σ t)
    (hf : Fresh σ (reads s inst)) (hs : execBranch env s inst = some s') :
    ∃ t', execBranch env t inst = some t' ∧ KeptStep env σ inst s t s' t' false := by
  have hfs : Fresh σ [inst.srcRegA] := by
    intro x hx
    exact hf x (by simpa [reads, Instr.sources, hfm, Opcode.form] using hx)
  have hop := operands_congr fun x hx i hr => hfs.regs_eq ha hx hr
  have ht : touched s inst = none := by simp [touched, hfm, Opcode.form]
  have hst : stored s inst = ∅ := by simp [stored, hfm]
  cases ho : operands s [inst.srcRegA] with
  | none =>
    simp only [execBranch, ho, Option.some.injEq] at hs
    obtain rfl := hs
    exact ⟨t.next, by simp only [execBranch, ← hop, ho], .of_skip ha hi ht hst⟩
  | some is =>
    obtain ⟨a, rfl, hra⟩ := operands_single ho
    have hea : s.regs a = t.regs a := hfs.regs_eq ha (by simp) hra
    simp only [execBranch, ho, Option.bind_eq_bind, Option.bind_eq_some_iff] at hs
    obtain ⟨x, hx, v, hv, hs⟩ := hs
    have hx' := hx
    rw [hea] at hx'
    simp only [execBranch, ← hop, ho, Option.bind_eq_bind, hx', hv, Option.bind_some]
    by_cases hg : env.gt v (env.lit 0) = true
    · rw [if_pos hg] at hs ⊢
      obtain rfl := Option.some.inj hs
      have hrest : KeptStep env σ inst s t s.next t.next false := .of_skip ha hi ht hst
      exact ⟨_, rfl, ⟨⟨hrest.agree.regs, hrest.agree.length, hrest.agree.cells⟩, hrest.intact,
        .jump ⟨hfm, a, x, v, ho, hx, hv, hg⟩ rfl rfl⟩⟩
    · rw [if_neg hg] at hs ⊢
      obtain rfl := Option.some.inj hs
      exact ⟨_, rfl, .of_skip ha hi ht hst⟩

theorem ternary_eq_none {imm : BitVec 32} {f : Tensor F → Tensor F → Tensor F → Option (Ptr F)}
    {is : List (Fin 16)} (h : ternary imm f s is = some none) : named s imm = false := by
  match is with
  | [a, b] =>
    cases hr : reg imm with
    | none => simp [named, hr]
    | some i =>
      cases hset : (s.regs i).isSet with
      | false => simp [named, hr, hset]
      | true =>
        simp only [ternary, hr, hset, if_true, Option.bind_eq_bind, Option.bind_eq_some_iff] at h
        obtain ⟨_, _, _, _, _, _, _, _, h⟩ := h
        cases h
  | [] | [_] | _ :: _ :: _ :: _ => cases h

theorem named_setReg {d : Fin 16} {old : Reg F} (ho : (s.regs d).destroy = some old)
    (imm : BitVec 32) : named (s.setReg d old) imm = named s imm := by
  cases hr : reg imm with
  | none => simp [named, hr]
  | some i =>
    by_cases hid : i = d
    · subst hid
      cases hreg : s.regs i <;> simp [hreg, Reg.destroy] at ho <;>
        simp [named, hr, State.setReg, hreg, ← ho, Reg.isSet]
    · simp [named, hr, State.setReg, hid]

theorem unary_ne_none (f : Tensor F → Option (Ptr F)) (is : List (Fin 16)) :
    unary f s is ≠ some none := by
  match is with
  | [a] =>
    intro h
    simp only [unary, Option.bind_eq_bind, Option.bind_eq_some_iff] at h
    obtain ⟨_, _, _, _, h⟩ := h
    cases h
  | [] | _ :: _ :: _ => intro h; cases h

theorem binary_ne_none (f : Tensor F → Tensor F → Option (Ptr F)) (is : List (Fin 16)) :
    binary f s is ≠ some none := by
  match is with
  | [a, b] =>
    intro h
    simp only [binary, Option.bind_eq_bind, Option.bind_eq_some_iff] at h
    obtain ⟨_, _, _, _, _, _, h⟩ := h
    cases h
  | [] | [_] | _ :: _ :: _ :: _ => intro h; cases h

theorem exec_keep_compute {srcs : List (BitVec 32)}
    {K : State F → List (Fin 16) → Option (Option (Reg F))}
    (hform : ∀ s, exec env s inst = continues (compute s inst.destReg srcs K))
    (hsrc : inst.sources = srcs)
    (htouch : touched s inst = if (operands s inst.sources).isSome then reg inst.destReg else none)
    (hst : inst.opcode.form ≠ .store) (ha : Agree σ s t) (hi : Intact σ t)
    (hf : Fresh σ inst.sources) (hK : Respects σ K)
    (hn : ∀ d old is, reg inst.destReg = some d → (s.regs d).destroy = some old →
      K (s.setReg d old) is = some none → d ∉ σ.regs)
    (hs : exec env s inst = some (s', stop)) :
    ∃ t', exec env t inst = some (t', stop) ∧ KeptStep env σ inst s t s' t' stop := by
  rw [hform] at hs
  obtain ⟨hc, rfl⟩ := continues_eq_some.mp hs
  rw [hsrc] at hf htouch
  obtain ⟨t', ht, hr, hk, hsm, htm, hsp, htp⟩ := compute_keep ha hi hf hK hn hc
  rw [← htouch] at hr hk
  exact ⟨t', by rw [hform, ht]; rfl, .of_regs ha hi (stored_of_form hst) hr hk hsm htm hsp htp⟩

/-- **A kept instruction takes both machines the same step.** -/
theorem exec_keep (ha : Agree σ s t) (hi : Intact σ t) (hf : Fresh σ (reads s inst))
    (hc : Disjoint (loaded s inst) σ.cells) (hs : exec env s inst = some (s', stop)) :
    ∃ t', exec env t inst = some (t', stop) ∧ KeptStep env σ inst s t s' t' stop := by
  have hform := exec_form env inst
  have hfs : Fresh σ inst.sources := fun x hx => hf x (List.mem_append_left _ hx)
  cases hfm : inst.opcode.form with
  | skip =>
    simp only [hfm] at hform
    rw [hform, Option.some.injEq, Prod.mk.injEq] at hs
    obtain ⟨rfl, rfl⟩ := hs
    exact ⟨_, hform t, .of_skip ha hi (by simp [touched, hfm]) (stored_of_form (by simp [hfm]))⟩
  | halt =>
    simp only [hfm] at hform
    rw [hform, Option.some.injEq, Prod.mk.injEq] at hs
    obtain ⟨rfl, rfl⟩ := hs
    exact ⟨_, hform t, .of_stop ha (by simp [touched, hfm]) (stored_of_form (by simp [hfm]))⟩
  | load =>
    simp only [hfm] at hform
    rw [hform] at hs ⊢
    exact execLoad_keep (form_load.mp hfm) ha hi hc hs
  | store =>
    simp only [hfm] at hform
    rw [hform] at hs ⊢
    exact execStore_keep (form_store.mp hfm) ha hi hf hs
  | branch =>
    simp only [hfm] at hform
    rw [hform] at hs
    obtain ⟨hb, rfl⟩ := continues_eq_some.mp hs
    obtain ⟨t', ht, hk⟩ := execBranch_keep (form_branch.mp hfm) ha hi hf hb
    exact ⟨t', by rw [hform, ht]; rfl, hk⟩
  | matmul =>
    simp only [hfm] at hform
    rw [hform] at hs
    obtain ⟨hm, rfl⟩ := continues_eq_some.mp hs
    obtain ⟨t', ht, hk⟩ := execMatmul_keep hfm ha hi hf hm
    exact ⟨t', by rw [hform, ht]; rfl, hk⟩
  | unary =>
    simp only [hfm] at hform
    obtain ⟨f, hform⟩ := hform
    refine exec_keep_compute hform (by simp [Instr.sources, hfm]) (by simp [touched, hfm])
      (by simp [hfm]) ha hi hfs (respects_unary f) ?_ hs
    intro d old is _ _ h
    exact absurd h (unary_ne_none f is)
  | binary =>
    simp only [hfm] at hform
    obtain ⟨f, hform⟩ := hform
    refine exec_keep_compute hform (by simp [Instr.sources, hfm]) (by simp [touched, hfm])
      (by simp [hfm]) ha hi hfs (respects_binary f) ?_ hs
    intro d old is _ _ h
    exact absurd h (binary_ne_none f is)
  | ternary =>
    simp only [hfm] at hform
    obtain ⟨f, hform⟩ := hform
    have himm : Fresh σ [inst.immediate] := by
      intro x hx
      exact hf x (by simp [reads, hfm, List.mem_singleton.mp hx])
    refine exec_keep_compute hform (by simp [Instr.sources, hfm]) (by simp [touched, hfm])
      (by simp [hfm]) ha hi hfs (respects_ternary himm f) ?_ hs
    intro d old is hd hold h
    have hn : named s inst.immediate = false := by
      rw [← named_setReg hold]
      exact ternary_eq_none h
    exact hf inst.destReg (by simp [reads, hfm, hn]) d hd

/-! ## Dropped instructions -/

/-- A step that changes nothing but the register `o`, which did not dangle. -/
structure Frame (o : Option (Fin 16)) (s s' : State F) : Prop where
  regs : ∀ i ∉ o.toFinset, s'.regs i = s.regs i
  mem : s'.mem = s.mem
  pc : s'.pc = s.pc + 1
  destroyed : ∀ d ∈ o, s.regs d ≠ .freed

theorem Frame.next (s : State F) : Frame none s s.next :=
  ⟨fun _ _ => rfl, rfl, rfl, fun _ h => (by cases h)⟩

theorem ne_freed_of_destroy {r old : Reg F} (h : r.destroy = some old) : r ≠ .freed := by
  rintro rfl
  cases h

theorem compute_frame {dest : BitVec 32} {srcs : List (BitVec 32)}
    {K : State F → List (Fin 16) → Option (Option (Reg F))} (hs : compute s dest srcs K = some s') :
    Frame (if (operands s srcs).isSome then reg dest else none) s s' := by
  cases hd : reg dest with
  | none =>
    simp only [compute, hd] at hs
    obtain rfl := Option.some.inj hs
    rw [ite_self]
    exact .next s
  | some d =>
    cases ho : operands s srcs with
    | none =>
      simp only [compute, hd, ho] at hs
      obtain rfl := Option.some.inj hs
      exact .next s
    | some is =>
      simp only [compute, hd, ho, Option.bind_eq_bind, Option.bind_eq_some_iff] at hs
      obtain ⟨old, hold, res, -, hs⟩ := hs
      have hdes : ∀ e ∈ some d, s.regs e ≠ .freed := by
        intro e he
        obtain rfl := Option.some.inj he
        exact ne_freed_of_destroy hold
      cases res with
      | none =>
        obtain rfl := Option.some.inj hs
        refine ⟨fun i h => ?_, rfl, rfl, hdes⟩
        have hid : i ≠ d := by rintro rfl; simp at h
        simp [State.next, State.setReg, hid]
      | some r =>
        obtain rfl := Option.some.inj hs
        refine ⟨fun i h => ?_, rfl, rfl, hdes⟩
        have hid : i ≠ d := by rintro rfl; simp at h
        simp [State.next, State.setReg, hid]

theorem execMatmul_frame (hs : execMatmul env s inst = some s') :
    Frame (if (operands s [inst.srcRegA, inst.srcRegB]).isSome then reg inst.destReg else none)
      s s' := by
  cases hd : reg inst.destReg with
  | none =>
    simp only [execMatmul, hd] at hs
    obtain rfl := Option.some.inj hs
    rw [ite_self]
    exact .next s
  | some d =>
    cases ho : operands s [inst.srcRegA, inst.srcRegB] with
    | none =>
      simp only [execMatmul, hd, ho] at hs
      obtain rfl := Option.some.inj hs
      exact .next s
    | some is =>
      obtain ⟨a, b, rfl, -, -⟩ := operands_pair ho
      simp only [execMatmul, hd, ho, Option.bind_eq_bind, Option.bind_eq_some_iff] at hs
      obtain ⟨x, -, y, -, mm, -, hs⟩ := hs
      obtain ⟨tail, old, -, hold, rfl⟩ := execMatmul_tail hs
      refine ⟨fun i h => ?_, rfl, rfl, ?_⟩
      · have hid : i ≠ d := by rintro rfl; simp at h
        simp [State.next, State.setReg, hid]
      · intro e he
        obtain rfl := Option.some.inj he
        exact ne_freed_of_destroy hold

/-- An instruction that may be dropped changes nothing but its destination. -/
theorem exec_frame (hp : inst.pure) (hs : exec env s inst = some (s', stop)) :
    stop = false ∧ Frame (touched s inst) s s' := by
  obtain ⟨hl, hst, hh, hb⟩ := hp
  have hform := exec_form env inst
  cases hfm : inst.opcode.form with
  | halt => cases ho : inst.opcode <;> simp [ho, Opcode.form] at hfm; exact absurd ho hh
  | load => exact absurd (form_load.mp hfm) hl
  | store => exact absurd (form_store.mp hfm) hst
  | branch => exact absurd (form_branch.mp hfm) hb
  | skip =>
    simp only [hfm] at hform
    rw [hform, Option.some.injEq, Prod.mk.injEq] at hs
    obtain ⟨rfl, rfl⟩ := hs
    exact ⟨rfl, by simpa [touched, hfm] using Frame.next s⟩
  | matmul =>
    simp only [hfm] at hform
    rw [hform] at hs
    obtain ⟨hm, rfl⟩ := continues_eq_some.mp hs
    exact ⟨rfl, by simpa [touched, hfm, Instr.sources] using execMatmul_frame hm⟩
  | unary | binary | ternary =>
    simp only [hfm] at hform
    obtain ⟨f, hform⟩ := hform
    rw [hform] at hs
    obtain ⟨hc, rfl⟩ := continues_eq_some.mp hs
    exact ⟨rfl, by simpa [touched, hfm, Instr.sources] using compute_frame hc⟩

/-- **A dropped instruction leaves its destination stale** and nothing else. -/
theorem exec_drop (ha : Agree σ s t) (hi : Intact σ t) (hp : inst.pure)
    (hs : exec env s inst = some (s', stop)) :
    stop = false ∧ s'.pc = s.pc + 1 ∧ Agree (σ.drop s inst) s' t ∧ Intact (σ.drop s inst) t := by
  obtain ⟨rfl, hfr⟩ := exec_frame hp hs
  refine ⟨rfl, hfr.pc, ⟨?_, ?_, ?_⟩, ?_⟩
  · intro i h
    simp only [Stale.drop, Finset.mem_union, not_or] at h
    rw [hfr.regs i h.2, ha.regs i h.1]
  · rw [hfr.mem, ha.length]
  · intro j h
    rw [hfr.mem]
    exact ha.cells j h
  · intro i h
    by_cases hin : i ∈ σ.regs
    · exact hi i hin
    · have ht : i ∈ touched s inst := by simpa [Stale.drop, hin] using h
      rw [← ha.regs i hin]
      exact hfr.destroyed i ht

end Exec

end SneppxAlg.Npe
