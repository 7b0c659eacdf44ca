import SneppxAlg.Npe.Matrices
import SneppxAlg.Npe.PassesCorrect

/-!
# `compiler.c`: the programs that are emitted

`compile_attention` and `compile_mlp` emit a straight line of instructions that set the registers
one after the other, from register 1 on, then a `STORE` of the last one and a `HALT`. A run with an
empty register file therefore only ever appends to the list of tensors in the registers
(`Straight`), and its output is the last one (`run_straight`).
-/

namespace SneppxAlg.Npe

open Lib.RowMajor (rowMajor length_rowMajor)

variable {F : Type}

/-! ## The emitted code -/

/-- `memset(&inst, 0, sizeof(inst))`. -/
def zeroInstr : Instr := ⟨.nop, 0, 0, 0, 0, 0, 0⟩

/-- The code of `SNEPPX_npe_compile_attention`. The instruction is cleared once: each one keeps the
fields that it does not set from the one before. -/
def attentionCode (seqLen dim : ℕ) : List Instr :=
  let seq := BitVec.ofNat 32 seqLen
  let d := BitVec.ofNat 32 dim
  let inst₀ := { zeroInstr with
    opcode := .load, destReg := 1, immediate := 0, shapeA0 := seq, shapeA1 := d }
  let inst₁ := { inst₀ with
    opcode := .load, destReg := 2, immediate := BitVec.ofNat 32 (seqLen * dim)
    shapeA0 := seq, shapeA1 := d }
  let inst₂ := { inst₁ with
    opcode := .load, destReg := 3, immediate := BitVec.ofNat 32 (2 * seqLen * dim)
    shapeA0 := seq, shapeA1 := d }
  let inst₃ := { inst₂ with opcode := .matmul, destReg := 4, srcRegA := 1, srcRegB := 2 }
  let inst₄ := { inst₃ with opcode := .softmax, destReg := 5, srcRegA := 4 }
  let inst₅ := { inst₄ with opcode := .matmul, destReg := 6, srcRegA := 5, srcRegB := 3 }
  let inst₆ := { inst₅ with
    opcode := .store, srcRegA := 6, immediate := BitVec.ofNat 32 (3 * seqLen * dim) }
  let inst₇ := { inst₆ with opcode := .halt }
  [inst₀, inst₁, inst₂, inst₃, inst₄, inst₅, inst₆, inst₇]

/-- `SNEPPX_npe_compile_attention`. -/
def compileAttention (env : Env F) (seqLen dim : ℕ) : Program F :=
  Program.create env (attentionCode seqLen dim)

/-- The registers from 0 on hold the tensors of a list, the others are `NULL`. -/
def holding (ts : List (Tensor F)) (mem : List F) (pc : ℕ) : State F :=
  ⟨pc, fun i => (ts[(i : ℕ)]?).elim .null .live, mem⟩

section Straight

variable {env : Env F} {mem : List F} {ts ts' : List (Tensor F)} {t ta tb : Tensor F}
  {inst : Instr} {code tail : List Instr} {d a b : Fin 16} {pc n : ℕ}

theorem holding_live (h : ts[(a : ℕ)]? = some t) : (holding ts mem pc).regs a = .live t := by
  simp [holding, h]

theorem holding_null (h : ts.length ≤ a) : (holding ts mem pc).regs a = .null := by
  simp [holding, List.getElem?_eq_none h]

/-- The first free register is set. -/
theorem setReg_holding (hd : (d : ℕ) = ts.length) :
    ((holding ts mem pc).setReg d (.live t)).next = holding (ts ++ [t]) mem (pc + 1) := by
  have hregs : Function.update (holding ts mem pc).regs d (.live t) =
      (holding (ts ++ [t]) mem (pc + 1)).regs := by
    funext i
    by_cases hi : i = d
    · subst hi
      rw [Function.update_self, holding_live (t := t) (by simp [hd])]
    · have hne : (i : ℕ) ≠ ts.length := fun h => hi (Fin.ext (h.trans hd.symm))
      rw [Function.update_of_ne hi]
      by_cases hlt : (i : ℕ) < ts.length
      · simp [holding, List.getElem?_append_left hlt]
      · rw [holding_null (by omega), holding_null (by simp; omega)]
  simp only [State.next, State.setReg, hregs]
  rfl

theorem setReg_null_holding (hd : ts.length ≤ d) :
    (holding ts mem pc).setReg d .null = holding ts mem pc := by
  have hnull : (holding ts mem pc).regs d = .null := holding_null hd
  rw [State.setReg, ← hnull, Function.update_eq_self]

/-- The instruction computes `t` into the first free register. -/
def Computes (env : Env F) (mem : List F) (ts : List (Tensor F)) (inst : Instr) (t : Tensor F) :
    Prop :=
  ∀ pc, exec env (holding ts mem pc) inst = some (holding (ts ++ [t]) mem (pc + 1), false)

/-- A `LOAD` of `n` cells from an address inside the memory. -/
theorem computes_load (addr : ℕ) (shape : List ℕ) {values : List F} (hop : inst.opcode = .load)
    (hreg : reg inst.destReg = some d) (hd : (d : ℕ) = ts.length)
    (haddr : toSize inst.immediate = addr) (hsize : loadSize inst = n)
    (hshape : loadShape inst = shape) (hprod : shape.prod = n) (hroom : Grants env n)
    (hmem : mem.length < 2 ^ 64) (hvalues : (mem.drop addr).take n = values)
    (hlen : addr + n ≤ mem.length) : Computes env mem ts inst ⟨shape, n, values⟩ := by
  intro pc
  have hnull : (holding ts mem pc).regs d = .null := holding_null hd.ge
  have hkeep : (holding ts mem pc).setReg d .null = holding ts mem pc := setReg_null_holding hd.ge
  obtain ⟨l, hl, hc⟩ := tensorCreate_eq hprod hroom
  have hmod : (addr + n) % 2 ^ 64 = addr + n := Nat.mod_eq_of_lt (by omega)
  have hheld : (holding ts mem pc).mem = mem := rfl
  simp only [exec, hop, execLoad, hreg, hnull, Reg.destroy, Option.bind_eq_bind, Option.bind_some,
    haddr, hsize, hshape, hkeep, hmod, hheld, hc]
  rw [if_neg (by omega), if_pos ⟨hlen, by omega⟩, hvalues,
    List.drop_of_length_le (by omega), List.append_nil, setReg_holding hd]

/-- A `LOAD` that does not fit the memory is refused. -/
theorem exec_load_refused (hop : inst.opcode = .load) (hreg : reg inst.destReg = some d)
    (hd : ts.length ≤ d) (h : mem.length < (toSize inst.immediate + loadSize inst) % 2 ^ 64) :
    exec env (holding ts mem pc) inst = some (holding ts mem pc, true) := by
  have hheld : (holding ts mem pc).mem = mem := rfl
  simp only [exec, hop, execLoad, hreg, holding_null hd, Reg.destroy, Option.bind_eq_bind,
    Option.bind_some, setReg_null_holding hd, hheld]
  rw [if_pos h]

/-- A `LOAD` of more cells than the shape has. -/
theorem exec_load_eq_none {shape : List ℕ} (hop : inst.opcode = .load)
    (hreg : reg inst.destReg = some d) (hd : ts.length ≤ d)
    (h : (toSize inst.immediate + loadSize inst) % 2 ^ 64 ≤ mem.length)
    (hshape : loadShape inst = shape) (hprod : shape.prod = n) (hroom : Grants env n)
    (hn : n < loadSize inst) : exec env (holding ts mem pc) inst = none := by
  obtain ⟨l, hl, hc⟩ := tensorCreate_eq hprod hroom
  have hheld : (holding ts mem pc).mem = mem := rfl
  simp only [exec, hop, execLoad, hreg, holding_null hd, Reg.destroy, Option.bind_eq_bind,
    Option.bind_some, setReg_null_holding hd, hheld, hshape, hc]
  rw [if_neg (by omega), if_neg (by omega)]

theorem loadSize_lt_word (inst : Instr) : loadSize inst < 2 ^ 64 := by
  have h0 : toSize inst.shapeA0 < 2 ^ 64 := BitVec.isLt _
  simp only [loadSize]
  split
  · exact Nat.mod_lt _ (by norm_num)
  · split <;> omega

/-- An extent or an address below `2 ^ 31` survives the conversion to `int`. -/
theorem toSize_ofNat (h : n < 2 ^ 31) : toSize (BitVec.ofNat 32 n) = n := by
  have hmsb : (BitVec.ofNat 32 n).msb = false := by
    rw [BitVec.msb_eq_false_iff_two_mul_lt, BitVec.toNat_ofNat]
    omega
  rw [toSize, BitVec.signExtend_eq_setWidth_of_msb_false hmsb, BitVec.toNat_setWidth,
    BitVec.toNat_ofNat]
  omega

theorem toSize_of_pos {x : BitVec 32} (h : 0 < x.toInt) : toSize x = x.toNat ∧ 0 < x.toNat := by
  have hlt : x.toNat < 2 ^ 31 ∧ 0 < x.toNat := by
    rw [BitVec.toInt_eq_toNat_cond] at h
    split at h <;> omega
  have hx := toSize_ofNat hlt.1
  rw [BitVec.ofNat_toNat, BitVec.setWidth_eq] at hx
  exact ⟨hx, hlt.2⟩

theorem toInt_ofNat_pos (h : n < 2 ^ 31) : 0 < (BitVec.ofNat 32 n).toInt ↔ 0 < n := by
  rw [BitVec.toInt_eq_toNat_cond, BitVec.toNat_ofNat]
  split <;> omega

theorem take_drop_of_eq {before values after : List F} (h : mem = before ++ (values ++ after)) :
    (mem.drop before.length).take values.length = values := by
  rw [h, List.drop_left, List.take_left]

/-- A `LOAD` of a matrix. -/
theorem computes_loadMatrix {m k addr : ℕ} (A : Matrix (Fin m) (Fin k) F) (before : List F)
    {after : List F}
    (hop : inst.opcode = .load) (hreg : reg inst.destReg = some d) (hd : (d : ℕ) = ts.length)
    (haddr : inst.immediate = BitVec.ofNat 32 addr) (hrows : inst.shapeA0 = BitVec.ofNat 32 m)
    (hcols : inst.shapeA1 = BitVec.ofNat 32 k) (hm : 0 < m) (hk : 0 < k)
    (hmem : mem = before ++ (rowMajor A ++ after)) (hbefore : before.length = addr)
    (hlen : mem.length < 2 ^ 31) (hroom : Grants env (m * k)) :
    Computes env mem ts inst (ofMatrix A) := by
  have hparts : mem.length = addr + (m * k + after.length) := by
    rw [hmem, List.length_append, List.length_append, length_rowMajor, hbefore]
  have hm' : m ≤ m * k := Nat.le_mul_of_pos_right m hk
  have hk' : k ≤ m * k := Nat.le_mul_of_pos_left k hm
  have hA0 : 0 < inst.shapeA0.toInt := by rw [hrows, toInt_ofNat_pos (by omega)]; exact hm
  have hA1 : 0 < inst.shapeA1.toInt := by rw [hcols, toInt_ofNat_pos (by omega)]; exact hk
  have hs0 : toSize inst.shapeA0 = m := by rw [hrows, toSize_ofNat (by omega)]
  have hs1 : toSize inst.shapeA1 = k := by rw [hcols, toSize_ofNat (by omega)]
  refine computes_load addr [m, k] (n := m * k) hop hreg hd ?_ ?_ ?_
    (by simp) hroom (by omega) ?_ (by omega)
  · rw [haddr, toSize_ofNat (by omega)]
  · rw [loadSize, if_pos hA0, if_pos hA1, hs0, hs1]
    exact Nat.mod_eq_of_lt (by omega)
  · rw [loadShape, if_pos hA1, hs0, hs1]
  · have := take_drop_of_eq hmem
    rwa [hbefore, length_rowMajor] at this

/-- An immediate below the flag bits. -/
theorem and_two_pow_eq_zero {imm : BitVec 32} {i : ℕ} (h : imm.toNat < 2 ^ i) (hi : i < 32) :
    imm &&& BitVec.ofNat 32 (2 ^ i) = 0 := by
  apply BitVec.eq_of_toNat_eq
  have hpow : 2 ^ i < 2 ^ 32 := Nat.pow_lt_pow_right (by norm_num) hi
  rw [BitVec.toNat_and, BitVec.toNat_ofNat, Nat.mod_eq_of_lt hpow, Nat.and_two_pow,
    Nat.testBit_lt_two_pow h, Bool.toNat_false, Nat.zero_mul]
  rfl

/-- A `MATMUL` without flags. -/
theorem computes_matmul (hop : inst.opcode = .matmul) (hreg : reg inst.destReg = some d)
    (hd : (d : ℕ) = ts.length) (ha : reg inst.srcRegA = some a) (hb : reg inst.srcRegB = some b)
    (hta : ts[(a : ℕ)]? = some ta) (htb : ts[(b : ℕ)]? = some tb)
    (himm : inst.immediate.toNat < 2 ^ 29)
    (ht : tensorMatmul env ta tb = some (some t)) : Computes env mem ts inst t := by
  intro pc
  have hla : ((holding ts mem pc).regs a).deref = some ta := by rw [holding_live hta]; rfl
  have hlb : ((holding ts mem pc).regs b).deref = some tb := by rw [holding_live htb]; rfl
  have htail : matmulTail env (holding ts mem pc) inst.immediate t = some (some t) := by
    have h29 : ¬ inst.immediate &&& 0x20000000 ≠ 0 :=
      not_not.mpr (and_two_pow_eq_zero himm (by norm_num))
    have h30 : ¬ inst.immediate &&& 0x40000000 ≠ 0 :=
      not_not.mpr (and_two_pow_eq_zero (i := 30) (by omega) (by norm_num))
    have h31 : ¬ inst.immediate &&& 0x80000000 ≠ 0 :=
      not_not.mpr (and_two_pow_eq_zero (i := 31) (by omega) (by norm_num))
    rw [matmulTail, if_neg h29, if_neg h31, if_neg h30]
  simp only [exec, hop, execMatmul, hreg, operands_pair_live ha hb hla hlb, hla, hlb, ht, htail,
    holding_null hd.ge, Reg.destroy, Option.bind_eq_bind, Option.bind_some, Option.map_some,
    Reg.ofPtr, setReg_holding hd]

/-- A `MATMUL` whose kernel is undefined. -/
theorem exec_matmul_eq_none (hop : inst.opcode = .matmul) (hreg : reg inst.destReg = some d)
    (ha : reg inst.srcRegA = some a) (hb : reg inst.srcRegB = some b)
    (hta : ts[(a : ℕ)]? = some ta) (htb : ts[(b : ℕ)]? = some tb)
    (ht : tensorMatmul env ta tb = none) : exec env (holding ts mem pc) inst = none := by
  have hla : ((holding ts mem pc).regs a).deref = some ta := by rw [holding_live hta]; rfl
  have hlb : ((holding ts mem pc).regs b).deref = some tb := by rw [holding_live htb]; rfl
  simp only [exec, hop, execMatmul, hreg, operands_pair_live ha hb hla hlb, hla, hlb, ht,
    Option.bind_eq_bind, Option.bind_some, Option.bind_none, Option.map_none]

theorem compute_holding {kernel : State F → List (Fin 16) → Option (Option (Reg F))}
    {dest : BitVec 32} {srcs : List (BitVec 32)} {is : List (Fin 16)} (hreg : reg dest = some d)
    (hd : (d : ℕ) = ts.length) (hsrcs : operands (holding ts mem pc) srcs = some is)
    (hk : kernel (holding ts mem pc) is = some (some (.live t))) :
    compute (holding ts mem pc) dest srcs kernel = some (holding (ts ++ [t]) mem (pc + 1)) := by
  have hnull : (holding ts mem pc).regs d = .null := holding_null hd.ge
  have hkeep : (holding ts mem pc).setReg d .null = holding ts mem pc := setReg_null_holding hd.ge
  simp only [compute, hreg, hsrcs, hnull, Reg.destroy, Option.bind_eq_bind, Option.bind_some,
    hkeep, hk, setReg_holding hd]

theorem computes_unary {f : Tensor F → Option (Ptr F)}
    (hop : ∀ s, exec env s inst = continues (compute s inst.destReg [inst.srcRegA] (unary f)))
    (hreg : reg inst.destReg = some d) (hd : (d : ℕ) = ts.length)
    (ha : reg inst.srcRegA = some a) (hta : ts[(a : ℕ)]? = some ta)
    (ht : f ta = some (some t)) : Computes env mem ts inst t := by
  intro pc
  have hla : ((holding ts mem pc).regs a).deref = some ta := by rw [holding_live hta]; rfl
  rw [hop, compute_holding hreg hd (operands_single_live ha hla)
    (t := t) (by simp [unary, hla, ht, Reg.ofPtr])]
  rfl

/-- The instructions set the free registers one after the other. -/
inductive Straight (env : Env F) (mem : List F) :
    List (Tensor F) → List Instr → List (Tensor F) → Prop
  | nil (ts : List (Tensor F)) : Straight env mem ts [] ts
  | cons {ts ts' : List (Tensor F)} {inst : Instr} {code : List Instr} {t : Tensor F} :
      Computes env mem ts inst t → Straight env mem (ts ++ [t]) code ts' →
      Straight env mem ts (inst :: code) ts'

theorem Straight.append {ts'' : List (Tensor F)} {code' : List Instr}
    (h : Straight env mem ts code ts') (h' : Straight env mem ts' code' ts'') :
    Straight env mem ts (code ++ code') ts'' := by
  induction h with
  | nil => exact h'
  | cons hc _ ih => exact .cons hc (ih h')

/-- A straight line is executed to its end, when other instructions follow. -/
theorem Straight.loop (h : Straight env mem ts code ts') (htail : tail ≠ []) (n : ℕ) :
    ∀ done : List Instr, Npe.loop env (done ++ code ++ tail) (n + code.length)
        (holding ts mem done.length) =
      Npe.loop env (done ++ code ++ tail) n (holding ts' mem (done.length + code.length)) := by
  induction h with
  | nil ts => exact fun done => rfl
  | @cons ts ts' inst code t hc hs ih =>
    intro done
    have hcode : done ++ (inst :: code) ++ tail = (done ++ [inst]) ++ code ++ tail := by simp
    have hget : (done ++ (inst :: code) ++ tail)[(holding ts mem done.length).pc]? = some inst := by
      simp [holding]
    have htails : 0 < tail.length := List.length_pos_iff.mpr htail
    have hin : ¬ (done ++ (inst :: code) ++ tail).length ≤
        (holding (ts ++ [t]) mem (done.length + 1)).pc := by
      simp only [holding, List.length_append, List.length_cons]
      omega
    rw [List.length_cons, ← Nat.add_assoc, loop_succ hget (hc done.length),
      if_neg (by simpa using hin), hcode]
    have := ih (done ++ [inst])
    rw [List.length_append] at this
    exact this.trans (by rw [List.length_singleton, Nat.add_assoc, Nat.add_comm 1])

/-- The end of an emitted program: a `STORE`, which may be refused, and a `HALT`. -/
theorem loop_store_halt {store halt : Instr} (hstore : store.opcode = .store)
    (hhalt : halt.opcode = .halt) (ha : reg store.srcRegA = some a) (ht : ts[(a : ℕ)]? = some t)
    (hdata : t.size ≤ t.data.length) (hsize : toSize store.immediate + t.size < 2 ^ 64) (n : ℕ) :
    ∃ s stopped, Npe.loop env (code ++ [store, halt]) n (holding ts mem code.length) =
      some (s, stopped) ∧ s.regs = (holding ts mem code.length).regs := by
  have hlive : ((holding ts mem code.length).regs a).deref = some t := by
    rw [holding_live ht]
    rfl
  have hget : (code ++ [store, halt])[(holding ts mem code.length).pc]? = some store := by
    simp [holding]
  cases n with
  | zero => exact ⟨_, _, rfl, rfl⟩
  | succ n =>
    have hmod := Nat.mod_eq_of_lt hsize
    by_cases hroom : toSize store.immediate + t.size ≤ mem.length
    · obtain ⟨mem', hx⟩ : ∃ mem', exec env (holding ts mem code.length) store =
          some (holding ts mem' (code.length + 1), false) := by
        have hheld : (holding ts mem code.length).mem = mem := rfl
        simp only [exec, hstore, execStore, operands_single_live ha hlive, hlive,
          Option.bind_eq_bind, Option.bind_some, hmod, hheld]
        rw [if_neg (by omega), if_pos ⟨hroom, hdata⟩]
        exact ⟨_, rfl⟩
      have hpc : ¬ (code ++ [store, halt]).length ≤ (holding ts mem' (code.length + 1)).pc := by
        simp [holding]
      rw [loop_succ hget hx, if_neg (by simpa using hpc)]
      cases n with
      | zero => exact ⟨_, _, rfl, rfl⟩
      | succ n =>
        have hget' : (code ++ [store, halt])[(holding ts mem' (code.length + 1)).pc]? =
            some halt := by
          simp [holding]
        have hx' : exec env (holding ts mem' (code.length + 1)) halt =
            some (holding ts mem' (code.length + 1), true) := by
          simp only [exec, hhalt]
        rw [loop_succ hget' hx', if_pos (by simp)]
        exact ⟨_, _, rfl, rfl⟩
    · have hx : exec env (holding ts mem code.length) store =
          some (holding ts mem code.length, true) := by
        have hheld : (holding ts mem code.length).mem = mem := rfl
        simp only [exec, hstore, execStore, operands_single_live ha hlive, hlive,
          Option.bind_eq_bind, Option.bind_some, hmod, hheld]
        rw [if_pos (by omega)]
      rw [loop_succ hget hx, if_pos (by simp)]
      exact ⟨_, _, rfl, rfl⟩

theorem lastReg_holding (hd : (d : ℕ) + 1 = ts.length) :
    lastReg (holding ts mem pc).regs = some d := by
  have hset : (fun i => ((holding ts mem pc).regs i).isSet) =
      fun i : Fin 16 => decide (i ≤ d) := by
    funext i
    by_cases hi : (i : ℕ) < ts.length
    · rw [holding_live (List.getElem?_eq_getElem hi)]
      exact (decide_eq_true (Fin.le_def.mpr (by omega))).symm
    · rw [holding_null (by omega)]
      exact (decide_eq_false fun h => hi (by have := Fin.le_def.mp h; omega)).symm
  rw [lastReg, hset]
  clear hset hd
  revert d
  decide

theorem finish_holding {s : State F} {out : Tensor F}
    (hregs : s.regs = (holding ts mem pc).regs) (hd : (d : ℕ) + 1 = ts.length)
    (hlast : ts[(d : ℕ)]? = some out) (hout : copyTensor env out = some (some out))
    (stopped : Bool) :
    finish env s stopped = some ⟨some out, if stopped then 2 else 0, s⟩ := by
  have hlive : ((holding ts mem pc).regs d).deref = some out := by
    rw [holding_live hlast]
    rfl
  simp only [finish, hregs, lastReg_holding hd, hlive, hout, Option.bind_eq_bind, Option.bind_some]

/-- A run with an empty register file starts with the input in register 0. -/
theorem start_holding {input : Tensor F} (hinput : copyTensor env input = some (some input)) :
    start env (fun _ => .null) mem input = some (holding [input] mem 0) := by
  have hregs : Function.update (fun _ => Reg.null) 0 (Reg.live input) =
      (holding [input] mem 0).regs := by
    funext i
    by_cases hi : i = 0
    · subst hi
      rfl
    · have hpos : 1 ≤ (i : ℕ) := Nat.one_le_iff_ne_zero.mpr fun h => hi (Fin.ext h)
      rw [Function.update_of_ne hi, holding_null (by simpa using hpos)]
  simp only [start, Reg.destroy, hinput, Option.bind_eq_bind, Option.bind_some, Reg.ofPtr, hregs]
  rfl

/-- A straight line that ends in front of an instruction that is undefined. -/
theorem run_straight_eq_none {input : Tensor F} (hs : Straight env mem [input] code ts)
    (hx : exec env (holding ts mem code.length) inst = none)
    (hinput : copyTensor env input = some (some input)) {stepLimit : ℕ}
    (hsteps : code.length < stepLimit) :
    run env (code ++ inst :: tail) stepLimit (fun _ => .null) mem input = none := by
  obtain ⟨n, rfl⟩ := Nat.exists_eq_add_of_lt hsteps
  have hline := hs.loop (List.cons_ne_nil inst tail) (n + 1) []
  rw [List.nil_append, List.length_nil, Nat.zero_add] at hline
  have hget : (code ++ inst :: tail)[(holding ts mem code.length).pc]? = some inst := by
    simp [holding]
  have hnone : Npe.loop env (code ++ inst :: tail) (n + 1) (holding ts mem code.length) = none := by
    rw [Npe.loop, step, hget]
    simp only [hx, Option.map_none]
  rw [hnone] at hline
  rw [run, start_holding hinput]
  simp only [Option.bind_eq_bind, Option.bind_some]
  rw [show code.length + n + 1 = n + 1 + code.length by omega, hline, Option.bind_none]

/-- **The output of an emitted program is the tensor that its straight line computes last.** -/
theorem run_straight {input out : Tensor F} {store halt : Instr} {stepLimit : ℕ}
    (hs : Straight env mem [input] code ts) (hd : (d : ℕ) + 1 = ts.length)
    (hlast : ts[(d : ℕ)]? = some out) (hstore : store.opcode = .store)
    (hhalt : halt.opcode = .halt) (ha : reg store.srcRegA = some d)
    (hdata : out.size ≤ out.data.length) (hsize : toSize store.immediate + out.size < 2 ^ 64)
    (hinput : copyTensor env input = some (some input))
    (hout : copyTensor env out = some (some out)) (hsteps : code.length ≤ stepLimit) :
    ∃ res, run env (code ++ [store, halt]) stepLimit (fun _ => .null) mem input = some res ∧
      res.output = some out := by
  obtain ⟨n, rfl⟩ := Nat.exists_eq_add_of_le' hsteps
  have hline := hs.loop (List.cons_ne_nil store [halt]) n []
  rw [List.nil_append, List.length_nil, Nat.zero_add] at hline
  obtain ⟨s, stopped, hloop, hregs⟩ :=
    @loop_store_halt _ env mem _ _ code _ _ _ hstore hhalt ha hlast hdata hsize n
  refine ⟨⟨some out, if stopped then 2 else 0, s⟩, ?_, rfl⟩
  simp only [run, start_holding hinput, Option.bind_eq_bind, Option.bind_some, hline, hloop,
    finish_holding hregs hd hlast hout]

end Straight

end SneppxAlg.Npe
