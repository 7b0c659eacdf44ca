import SneppxAlg.Npe.PassesCorrect

/-!
# Memory accesses of verified programs

`verify_program` compares the address of a `LOAD` or a `STORE` with the size of the memory, but not
the extent, which for a `STORE` is known only when it is executed. The virtual machine checks the
extent and refuses what does not fit. The check adds two `size_t`s; it is exact because the address
of a verified instruction is not negative and because no tensor that was ever allocated is so large
that the sum wraps around.

Neither looks at the shape of a `LOAD`: with the shape `{0, n}` it takes `n` cells and copies them
into a tensor that has none.
-/

namespace SneppxAlg.Npe

open Lib.Segments (getElem?_splice)

variable {F : Type}

/-! ## Tensors that were allocated -/

/-- The block of a tensor has the length that its size asks for, up to the wrap-around of the byte
count, and is no larger than what can be allocated. -/
structure Tensor.Wf (t : Tensor F) : Prop where
  size_lt : t.size < 2 ^ 64
  length_eq : t.data.length = t.size * 4 % 2 ^ 64 / 4
  length_lt : t.data.length < 2 ^ 61

/-- The result of a kernel, if there is one, was allocated. -/
def WfResult (r : Option (Ptr F)) : Prop := ∀ t, r = some (some t) → t.Wf

section Kernels

variable {env : Env F}

theorem foldl_mul_lt (shape : List ℕ) :
    ∀ {n : ℕ}, n < 2 ^ 64 → shape.foldl (fun total d => total * d % 2 ^ 64) n < 2 ^ 64 := by
  induction shape with
  | nil => exact fun h => h
  | cons d shape ih => exact fun _ => ih (Nat.mod_lt _ (Nat.two_pow_pos 64))

theorem tensorCreate_wf {shape : List ℕ} {t : Tensor F} (h : tensorCreate env shape = some t) :
    t.Wf := by
  simp only [tensorCreate, Option.map_eq_some_iff] at h
  obtain ⟨data, hd, rfl⟩ := h
  refine ⟨foldl_mul_lt shape (by norm_num), env.alloc_length _ _ hd, ?_⟩
  by_contra hl
  rw [env.alloc_large _ (by rw [← env.alloc_length _ _ hd]; exact not_lt.mp hl)] at hd
  cases hd

theorem wfResult_fill {c : Tensor F} (hc : c.Wf) (values : List F) : WfResult (fill c values) := by
  intro t h
  unfold fill at h
  split at h
  · next hle =>
    obtain rfl := Option.some.inj (Option.some.inj h)
    have hlen : (values ++ c.data.drop values.length).length = c.data.length := by
      rw [List.length_append, List.length_drop]
      omega
    exact ⟨hc.size_lt, hlen.trans hc.length_eq, hlen.trans_lt hc.length_lt⟩
  · cases h

theorem wfResult_none : WfResult (none : Option (Ptr F)) := by
  intro t h
  cases h

theorem wfResult_null : WfResult (some none : Option (Ptr F)) := by
  intro t h
  cases Option.some.inj h

theorem wfResult_bind {α : Type} {x : Option α} {f : α → Option (Ptr F)}
    (h : ∀ a, x = some a → WfResult (f a)) : WfResult (x.bind f) := by
  intro t ht
  obtain ⟨a, ha, hf⟩ := Option.bind_eq_some_iff.mp ht
  exact h a ha t hf

theorem wfResult_build (shape : List ℕ) (values : Option (List F)) :
    WfResult (build env shape values) := by
  unfold build
  cases h : tensorCreate env shape with
  | none => exact wfResult_null
  | some c => exact wfResult_bind fun v _ => wfResult_fill (tensorCreate_wf h) v

theorem wfResult_buildZeros (shape : List ℕ) (values : Option (List F)) :
    WfResult (buildZeros env shape values) := by
  unfold buildZeros
  cases h : tensorCreate env shape with
  | none => exact wfResult_null
  | some c =>
    exact wfResult_bind fun _ _ => wfResult_bind fun v _ => wfResult_fill (tensorCreate_wf h) v

theorem wfResult_tensorBinary (f : F → F → F) (a b : Tensor F) :
    WfResult (tensorBinary env f a b) := by
  unfold tensorBinary
  split
  · exact wfResult_build _ _
  · split
    · split
      · exact wfResult_build _ _
      · exact wfResult_null
    · exact wfResult_null

theorem wfResult_tensorUnary (f : F → F) (a : Tensor F) : WfResult (tensorUnary env f a) :=
  wfResult_build _ _

theorem wfResult_tensorRows (row : ℕ → (ℕ → Option F) → Option (List F)) (a : Tensor F) :
    WfResult (tensorRows env row a) := by
  unfold tensorRows
  split
  · exact wfResult_none
  · refine wfResult_bind fun lastDim _ => ?_
    dsimp only
    split
    · exact wfResult_none
    · exact wfResult_build _ _

theorem wfResult_tensorMatmul (a b : Tensor F) : WfResult (tensorMatmul env a b) :=
  wfResult_bind fun _ _ => wfResult_bind fun _ _ => wfResult_bind fun _ _ => wfResult_buildZeros _ _

theorem wfResult_tensorAttention (q k v : Tensor F) : WfResult (tensorAttention env q k v) := by
  refine wfResult_bind fun _ _ => wfResult_bind fun _ _ => wfResult_bind fun scores _ => ?_
  cases scores with
  | none => exact wfResult_null
  | some scores =>
    refine wfResult_bind fun _ _ => wfResult_bind fun attn _ => ?_
    cases attn with
    | none => exact wfResult_null
    | some attn => exact wfResult_tensorMatmul attn v

theorem wfResult_tensorConv2d (a b : Tensor F) : WfResult (tensorConv2d env a b) :=
  wfResult_bind fun _ _ => wfResult_bind fun _ _ => wfResult_bind fun _ _ => wfResult_bind fun _ _ =>
    wfResult_bind fun _ _ => wfResult_bind fun _ _ => wfResult_buildZeros _ _

theorem wfResult_tensorPool2d (a : Tensor F) (h w : ℕ) : WfResult (tensorPool2d env a h w) := by
  refine wfResult_bind fun _ _ => wfResult_bind fun _ _ => wfResult_bind fun _ _ => ?_
  dsimp only
  split
  · exact wfResult_none
  · exact wfResult_build _ _

theorem wfResult_tensorBatchnorm (a g b : Tensor F) : WfResult (tensorBatchnorm env a g b) :=
  wfResult_bind fun _ _ => wfResult_build _ _

theorem wfResult_tensorEmbedding (a b : Tensor F) : WfResult (tensorEmbedding env a b) :=
  wfResult_bind fun _ _ => wfResult_build _ _

theorem wfResult_tensorCrossentropy (a b : Tensor F) : WfResult (tensorCrossentropy env a b) :=
  wfResult_bind fun _ _ => wfResult_bind fun _ _ => wfResult_buildZeros _ _

theorem wfResult_tensorMse (a b : Tensor F) : WfResult (tensorMse env a b) := wfResult_buildZeros _ _

theorem wfResult_tensorConcat (a b : Tensor F) : WfResult (tensorConcat env a b) := by
  refine wfResult_bind fun _ _ => wfResult_bind fun _ _ => ?_
  split
  · exact wfResult_none
  · exact wfResult_build _ _

theorem wfResult_tensorSplitHalf (a : Tensor F) : WfResult (tensorSplitHalf env a) := by
  refine wfResult_bind fun _ _ => ?_
  split
  · exact wfResult_none
  · exact wfResult_build _ _

end Kernels

/-! ## Reachable machines -/

/-- All tensors in the registers were allocated. -/
def RegsWf (s : State F) : Prop := ∀ i t, s.regs i = .live t → t.Wf

/-- The machines that a run from `s₀` passes through. -/
inductive Reached (env : Env F) (code : List Instr) (s₀ : State F) : State F → Prop
  | refl : Reached env code s₀ s₀
  | step {s s' : State F} : Reached env code s₀ s → step env code s = some (s', false) →
      Reached env code s₀ s'

section Exec

variable {env : Env F} {s s' : State F} {inst : Instr} {stop : Bool}

theorem RegsWf.setReg (h : RegsWf s) (d : Fin 16) {r : Reg F} (hr : ∀ t, r = .live t → t.Wf) :
    RegsWf (s.setReg d r) := by
  intro i t ht
  by_cases hid : i = d
  · subst hid
    exact hr t (by simpa [State.setReg] using ht)
  · exact h i t (by simpa [State.setReg, hid] using ht)

theorem ofPtr_wf {p : Ptr F} (h : WfResult (some p)) : ∀ t, Reg.ofPtr p = .live t → t.Wf := by
  intro t ht
  cases p with
  | none => cases ht
  | some u =>
    obtain rfl : u = t := by simpa [Reg.ofPtr] using ht
    exact h u rfl

theorem destroy_ne_live {r old : Reg F} (h : r.destroy = some old) : ∀ t, old = .live t → t.Wf := by
  intro t ht
  subst ht
  cases r <;> simp [Reg.destroy] at h

/-- A kernel that puts only allocated tensors into registers. -/
def KernelWf (K : State F → List (Fin 16) → Option (Option (Reg F))) : Prop :=
  ∀ s is r, K s is = some (some r) → ∀ t, r = .live t → t.Wf

theorem kernelWf_unary {f : Tensor F → Option (Ptr F)} (hf : ∀ a, WfResult (f a)) :
    KernelWf (unary f) := by
  intro s is r h
  match is with
  | [a] =>
    simp only [unary, Option.bind_eq_bind, Option.bind_eq_some_iff, Option.some.injEq] at h
    obtain ⟨x, -, p, hp, rfl⟩ := h
    exact ofPtr_wf (hp ▸ hf x)
  | [] | _ :: _ :: _ => cases h

theorem kernelWf_binary {f : Tensor F → Tensor F → Option (Ptr F)}
    (hf : ∀ a b, WfResult (f a b)) : KernelWf (binary f) := by
  intro s is r h
  match is with
  | [a, b] =>
    simp only [binary, Option.bind_eq_bind, Option.bind_eq_some_iff, Option.some.injEq] at h
    obtain ⟨x, -, y, -, p, hp, rfl⟩ := h
    exact ofPtr_wf (hp ▸ hf x y)
  | [] | [_] | _ :: _ :: _ :: _ => cases h

theorem kernelWf_ternary {imm : BitVec 32} {f : Tensor F → Tensor F → Tensor F → Option (Ptr F)}
    (hf : ∀ a b c, WfResult (f a b c)) : KernelWf (ternary imm f) := by
  intro s is r h
  match is with
  | [a, b] =>
    cases hr : reg imm with
    | none => simp [ternary, hr] at h
    | some i =>
      simp only [ternary, hr] at h
      split at h
      · simp only [Option.bind_eq_bind, Option.bind_eq_some_iff, Option.some.injEq] at h
        obtain ⟨x, -, y, -, z, -, p, hp, rfl⟩ := h
        exact ofPtr_wf (hp ▸ hf x y z)
      · cases h
  | [] | [_] | _ :: _ :: _ :: _ => cases h

theorem compute_wf {dest : BitVec 32} {srcs : List (BitVec 32)}
    {K : State F → List (Fin 16) → Option (Option (Reg F))} (hK : KernelWf K) (h : RegsWf s)
    (hs : compute s dest srcs K = some s') : RegsWf s' := by
  cases hd : reg dest with
  | none =>
    simp only [compute, hd] at hs
    obtain rfl := Option.some.inj hs
    exact h
  | some d =>
    cases ho : operands s srcs with
    | none =>
      simp only [compute, hd, ho] at hs
      obtain rfl := Option.some.inj hs
      exact h
    | some is =>
      simp only [compute, hd, ho, Option.bind_eq_bind, Option.bind_eq_some_iff] at hs
      obtain ⟨old, hold, res, hres, hs⟩ := hs
      have hwf := h.setReg d (destroy_ne_live hold)
      cases res with
      | none =>
        obtain rfl := Option.some.inj hs
        exact hwf
      | some r =>
        obtain rfl := Option.some.inj hs
        exact hwf.setReg d (hK _ _ _ hres)

theorem wfResult_addBias {imm : BitVec 32} {mm : Tensor F} (h : mm.Wf) :
    WfResult (addBias env s imm mm) := by
  have hmm : WfResult (some (some mm)) := by
    intro t ht
    obtain rfl := Option.some.inj (Option.some.inj ht)
    exact h
  unfold addBias
  split
  · exact hmm
  · split
    · exact wfResult_bind fun _ _ => wfResult_tensorBinary _ _ _
    · exact hmm

theorem wfResult_matmulTail {imm : BitVec 32} {mm : Tensor F} (h : mm.Wf) :
    WfResult (matmulTail env s imm mm) := by
  unfold matmulTail
  split
  · refine wfResult_bind fun mm _ => ?_
    cases mm with
    | none => exact wfResult_null
    | some mm => exact wfResult_tensorUnary _ _
  · split
    · exact wfResult_tensorUnary _ _
    · split
      · exact wfResult_addBias h
      · intro t ht
        obtain rfl := Option.some.inj (Option.some.inj ht)
        exact h

theorem execMatmul_wf (h : RegsWf s) (hs : execMatmul env s inst = some s') : RegsWf s' := by
  cases hd : reg inst.destReg with
  | none =>
    simp only [execMatmul, hd] at hs
    obtain rfl := Option.some.inj hs
    exact h
  | some d =>
    cases ho : operands s [inst.srcRegA, inst.srcRegB] with
    | none =>
      simp only [execMatmul, hd, ho] at hs
      obtain rfl := Option.some.inj hs
      exact h
    | some is =>
      obtain ⟨a, b, rfl, -, -⟩ := operands_pair ho
      simp only [execMatmul, hd, ho, Option.bind_eq_bind, Option.bind_eq_some_iff] at hs
      obtain ⟨x, -, y, -, mm, hmm, hs⟩ := hs
      obtain ⟨tail, old, htail, -, rfl⟩ := execMatmul_tail hs
      refine h.setReg d (ofPtr_wf ?_)
      cases mm with
      | none =>
        obtain rfl := Option.some.inj htail
        exact wfResult_null
      | some mm => exact htail ▸ wfResult_matmulTail (wfResult_tensorMatmul x y mm hmm)

theorem execLoad_wf (h : RegsWf s) (hs : execLoad env s inst = some (s', stop)) : RegsWf s' := by
  cases hd : reg inst.destReg with
  | none =>
    simp only [execLoad, hd, Option.some.injEq, Prod.mk.injEq] at hs
    obtain ⟨rfl, -⟩ := hs
    exact h
  | some d =>
    simp only [execLoad, hd, Option.bind_eq_bind, Option.bind_eq_some_iff] at hs
    obtain ⟨old, hold, hs⟩ := hs
    have hwf := h.setReg d (destroy_ne_live hold)
    split at hs
    · obtain ⟨rfl, -⟩ := Prod.mk.inj (Option.some.inj hs)
      exact hwf
    · cases hc : tensorCreate env (loadShape inst) with
      | none =>
        simp only [hc, Option.some.injEq, Prod.mk.injEq] at hs
        obtain ⟨rfl, -⟩ := hs
        exact hwf.setReg d fun t ht => (by cases ht)
      | some x =>
        simp only [hc] at hs
        split at hs
        · next hg =>
          obtain ⟨rfl, -⟩ := Prod.mk.inj (Option.some.inj hs)
          refine hwf.setReg d fun t ht => ?_
          have hx := tensorCreate_wf hc
          have hlen : ((((s.setReg d old).mem.drop (toSize inst.immediate)).take (loadSize inst)) ++
              x.data.drop (loadSize inst)).length = x.data.length := by
            rw [List.length_append, List.length_take, List.length_drop, List.length_drop]
            omega
          obtain rfl := Reg.live.inj ht
          exact ⟨hx.size_lt, hlen.trans hx.length_eq, hlen.trans_lt hx.length_lt⟩
        · cases hs

theorem execStore_regs (hs : execStore s inst = some (s', stop)) : s'.regs = s.regs := by
  unfold execStore at hs
  split at hs
  · simp only [Option.bind_eq_bind, Option.bind_eq_some_iff] at hs
    obtain ⟨t, -, hs⟩ := hs
    split at hs
    · obtain ⟨rfl, -⟩ := Prod.mk.inj (Option.some.inj hs)
      rfl
    · split at hs
      · obtain ⟨rfl, -⟩ := Prod.mk.inj (Option.some.inj hs)
        rfl
      · cases hs
  · obtain ⟨rfl, -⟩ := Prod.mk.inj (Option.some.inj hs)
    rfl

theorem execBranch_frame (hs : execBranch env s inst = some s') :
    s'.regs = s.regs ∧ s'.mem = s.mem := by
  unfold execBranch at hs
  split at hs
  · simp only [Option.bind_eq_bind, Option.bind_eq_some_iff] at hs
    obtain ⟨t, -, x, -, hs⟩ := hs
    split at hs
    · obtain rfl := Option.some.inj hs
      exact ⟨rfl, rfl⟩
    · obtain rfl := Option.some.inj hs
      exact ⟨rfl, rfl⟩
  · obtain rfl := Option.some.inj hs
    exact ⟨rfl, rfl⟩

/-- Every computing instruction has a kernel that allocates its result. -/
theorem exec_compute (env : Env F) (inst : Instr) (h : inst.opcode.form = .unary ∨
    inst.opcode.form = .binary ∨ inst.opcode.form = .ternary) :
    ∃ srcs K, KernelWf K ∧
      ∀ s, exec env s inst = continues (compute s inst.destReg srcs K) := by
  cases ho : inst.opcode <;> simp only [ho, Opcode.form, reduceCtorEq, or_self] at h
  case relu | softmax | layernorm | exp | log | sqrt | pow | sin | cos | tanh | sigmoid | gelu | silu |
      dropout | pool2d | split =>
    refine ⟨_, unary _, kernelWf_unary fun a => ?_, fun s => by simp only [exec, ho]; rfl⟩
    first
      | exact wfResult_tensorUnary _ a
      | exact wfResult_tensorRows _ a
      | exact wfResult_tensorPool2d a _ _
      | exact wfResult_tensorSplitHalf a
  case attention | batchnorm =>
    refine ⟨_, ternary _ _, kernelWf_ternary fun a b c => ?_, fun s => by simp only [exec, ho]; rfl⟩
    first
      | exact wfResult_tensorAttention a b c
      | exact wfResult_tensorBatchnorm a b c
  all_goals
    refine ⟨_, binary _, kernelWf_binary fun a b => ?_, fun s => by simp only [exec, ho]; rfl⟩
    first
      | exact wfResult_tensorBinary _ a b
      | exact wfResult_tensorConv2d a b
      | exact wfResult_tensorEmbedding a b
      | exact wfResult_tensorCrossentropy a b
      | exact wfResult_tensorMse a b
      | exact wfResult_tensorConcat a b

/-- An instruction keeps the registers well-formed. -/
theorem exec_wf (h : RegsWf s) (hs : exec env s inst = some (s', stop)) : RegsWf s' := by
  have hform := exec_form env inst
  cases hfm : inst.opcode.form with
  | skip | halt =>
    simp only [hfm] at hform
    rw [hform, Option.some.injEq, Prod.mk.injEq] at hs
    obtain ⟨rfl, -⟩ := hs
    exact h
  | load =>
    simp only [hfm] at hform
    exact execLoad_wf h (hform s ▸ hs)
  | store =>
    simp only [hfm] at hform
    rw [hform] at hs
    intro i t ht
    exact h i t (execStore_regs hs ▸ ht)
  | branch =>
    simp only [hfm] at hform
    rw [hform] at hs
    intro i t ht
    exact h i t ((execBranch_frame (continues_eq_some.mp hs).1).1 ▸ ht)
  | matmul =>
    simp only [hfm] at hform
    rw [hform] at hs
    exact execMatmul_wf h (continues_eq_some.mp hs).1
  | unary | binary | ternary =>
    obtain ⟨srcs, K, hK, hx⟩ := exec_compute env inst (by simp [hfm])
    rw [hx] at hs
    exact compute_wf hK h (continues_eq_some.mp hs).1

/-! ## Accesses -/

/-- The cells `a, …, a + n - 1` that a `LOAD` or a `STORE` is about to access. -/
def extent (s : State F) (inst : Instr) : Option (ℕ × ℕ) :=
  match inst.opcode with
  | .load => (reg inst.destReg).map fun _ => (toSize inst.immediate, loadSize inst)
  | .store =>
    match operands s [inst.srcRegA] with
    | some [a] => (s.regs a).deref.map fun t => (toSize inst.immediate, t.size)
    | _ => none
  | _ => none

/-- The instruction depends on no cell outside `a, …, a + n - 1` and changes none. -/
structure TouchesOnly (env : Env F) (s : State F) (inst : Instr) (a n : ℕ) : Prop where
  reads : ∀ t s' stop, t.pc = s.pc → t.regs = s.regs → t.mem.length = s.mem.length →
    (∀ j, a ≤ j → j < a + n → t.mem[j]? = s.mem[j]?) → exec env s inst = some (s', stop) →
    ∃ t', exec env t inst = some (t', stop) ∧ t'.regs = s'.regs
  writes : ∀ s' stop, exec env s inst = some (s', stop) →
    ∀ j, ¬ (a ≤ j ∧ j < a + n) → s'.mem[j]? = s.mem[j]?

/-- The instruction stops the machine and leaves the memory as it is. -/
def Refused (env : Env F) (s : State F) (inst : Instr) : Prop :=
  ∃ s', exec env s inst = some (s', true) ∧ s'.mem = s.mem

/-- The instruction makes no access outside of a block, and its whole extent is accessed and lies
inside of the memory. -/
structure StaysInside (env : Env F) (s : State F) (inst : Instr) : Prop where
  defined : ∃ s' stop, exec env s inst = some (s', stop)
  inside : ∀ a n, extent s inst = some (a, n) →
    a + n ≤ s.mem.length ∧ (∃ s', exec env s inst = some (s', false)) ∧ TouchesOnly env s inst a n

/-- The destination of a `LOAD` does not point to a tensor that was destroyed. -/
def NotDangling (s : State F) (inst : Instr) : Prop :=
  ∀ d, inst.opcode = .load → reg inst.destReg = some d → s.regs d ≠ .freed

/-- The extent of the access fits into the memory, the pointer that it goes through is not that of a
destroyed tensor, and a `LOAD` into a tensor without cells is one of no cells. -/
def Fits (env : Env F) (s : State F) (inst : Instr) : Prop :=
  match inst.opcode with
  | .load => ∀ d, reg inst.destReg = some d → s.regs d ≠ .freed ∧
      toSize inst.immediate + loadSize inst ≤ s.mem.length ∧
      (inst.shapeA0 = 0 → 0 < inst.shapeA1.toInt → env.alloc 0 = none)
  | .store => ∀ r, operands s [inst.srcRegA] = some [r] →
      ∃ t, s.regs r = .live t ∧ toSize inst.immediate + t.size ≤ s.mem.length
  | _ => True

theorem toSize_of_nonneg {x : BitVec 32} (h : 0 ≤ x.toInt) : (toSize x : ℤ) = x.toInt := by
  have hx : x.toInt = x.toNat ∧ x.toNat < 2 ^ 31 := by
    have h1 := BitVec.toInt_eq_toNat_cond x
    have h2 := x.isLt
    split at h1 <;> omega
  unfold toSize
  have h1 := BitVec.toInt_signExtend_of_le (x := x) (show 32 ≤ 64 by decide)
  have h2 := BitVec.toInt_eq_toNat_cond (x.signExtend 64)
  have h3 := (x.signExtend 64).isLt
  split at h2 <;> omega

theorem toSize_lt {x : BitVec 32} (h : 0 ≤ x.toInt) : toSize x < 2 ^ 31 := by
  have h1 := toSize_of_nonneg h
  have h2 := BitVec.toInt_lt (x := x)
  omega

theorem loadSize_lt (inst : Instr) : loadSize inst < 2 ^ 62 := by
  unfold loadSize
  dsimp only
  have h0 : (if 0 < inst.shapeA0.toInt then toSize inst.shapeA0 else 1) < 2 ^ 31 := by
    split
    · next h => exact toSize_lt h.le
    · norm_num
  split
  · next h =>
    have h1 := toSize_lt h.le
    refine (Nat.mod_le _ _).trans_lt ?_
    calc _ < 2 ^ 31 * 2 ^ 31 := Nat.mul_lt_mul'' h0 h1
      _ = 2 ^ 62 := by norm_num
  · exact h0.trans (by norm_num)

theorem Tensor.Wf.size_mod {t : Tensor F} (h : t.Wf) : t.size % 2 ^ 62 < 2 ^ 61 := by
  have h1 := h.length_eq
  have h2 := h.length_lt
  omega

/-- The check of the virtual machine is exact: the sum does not wrap around. -/
theorem extent_mod (h : RegsWf s) (himm : 0 ≤ inst.immediate.toInt) {a n : ℕ}
    (he : extent s inst = some (a, n)) : (a + n) % 2 ^ 64 = a + n := by
  have haddr := toSize_lt himm
  refine Nat.mod_eq_of_lt ?_
  unfold extent at he
  split at he
  · obtain ⟨_, -, he⟩ := Option.map_eq_some_iff.mp he
    obtain ⟨rfl, rfl⟩ := Prod.mk.inj he
    have := loadSize_lt inst
    omega
  · split at he
    · obtain ⟨t, ht, he⟩ := Option.map_eq_some_iff.mp he
      obtain ⟨rfl, rfl⟩ := Prod.mk.inj he
      have hwf := h _ t (deref_eq_some ht)
      have h1 := hwf.size_mod
      have h2 := hwf.size_lt
      omega
    · cases he
  · cases he

theorem extent_load {a n : ℕ} (ho : inst.opcode = .load) (he : extent s inst = some (a, n)) :
    (∃ d, reg inst.destReg = some d) ∧ a = toSize inst.immediate ∧ n = loadSize inst := by
  simp only [extent, ho, Option.map_eq_some_iff, Prod.mk.injEq] at he
  obtain ⟨d, hd, rfl, rfl⟩ := he
  exact ⟨⟨d, hd⟩, rfl, rfl⟩

theorem extent_store {a n : ℕ} (ho : inst.opcode = .store) (he : extent s inst = some (a, n)) :
    ∃ r t, operands s [inst.srcRegA] = some [r] ∧ (s.regs r).deref = some t ∧
      a = toSize inst.immediate ∧ n = t.size := by
  simp only [extent, ho] at he
  split at he
  · next r hr =>
    simp only [Option.map_eq_some_iff, Prod.mk.injEq] at he
    obtain ⟨t, ht, rfl, rfl⟩ := he
    exact ⟨r, t, hr, ht, rfl, rfl⟩
  · cases he

theorem extent_opcode {p : ℕ × ℕ} (he : extent s inst = some p) :
    inst.opcode = .load ∨ inst.opcode = .store := by
  unfold extent at he
  split at he
  · next h => exact .inl h
  · next h => exact .inr h
  · cases he

/-- An access that does not fit is refused. -/
theorem refused_of_lt {a n : ℕ} (he : extent s inst = some (a, n)) (hmod : (a + n) % 2 ^ 64 = a + n)
    (hlt : s.mem.length < a + n) (hd : NotDangling s inst) : Refused env s inst := by
  rcases extent_opcode he with ho | ho
  · obtain ⟨⟨d, hreg⟩, rfl, rfl⟩ := extent_load ho he
    obtain ⟨old, hold⟩ := destroy_of_ne_freed (hd d ho hreg)
    refine ⟨s.setReg d old, ?_, rfl⟩
    simp only [exec, ho, execLoad, hreg, hold, Option.bind_eq_bind, Option.bind_some, hmod]
    exact if_pos hlt
  · obtain ⟨r, t, hr, ht, rfl, rfl⟩ := extent_store ho he
    refine ⟨s, ?_, rfl⟩
    simp only [exec, ho, execStore, hr, ht, Option.bind_eq_bind, Option.bind_some, hmod]
    exact if_pos hlt

/-! ### Room for a load -/

theorem length_tensorCreate_one {n : ℕ} {t : Tensor F} (h : tensorCreate env [n] = some t) (hn : n < 2 ^ 62) :
    t.data.length = n := by
  simp only [tensorCreate, List.foldl_cons, List.foldl_nil, Nat.one_mul, Option.map_eq_some_iff] at h
  obtain ⟨data, hd, rfl⟩ := h
  have hlen := env.alloc_length _ _ hd
  dsimp only at hlen ⊢
  omega

theorem length_tensorCreate_two {m n : ℕ} {t : Tensor F} (h : tensorCreate env [m, n] = some t) (hm : m < 2 ^ 64) :
    t.data.length = m * n % 2 ^ 64 * 4 % 2 ^ 64 / 4 := by
  simp only [tensorCreate, List.foldl_cons, List.foldl_nil, Nat.one_mul, Option.map_eq_some_iff] at h
  obtain ⟨data, hd, rfl⟩ := h
  rw [Nat.mod_eq_of_lt hm] at hd
  exact env.alloc_length _ _ hd

/-- A negative `int` as a `size_t`. -/
theorem toSize_neg {x : BitVec 32} (h : x.toInt < 0) :
    2 ^ 64 - 2 ^ 31 ≤ toSize x ∧ toSize x < 2 ^ 64 := by
  have hx : x.toInt = x.toNat - 2 ^ 32 ∧ 2 ^ 31 ≤ x.toNat := by
    have h1 := BitVec.toInt_eq_toNat_cond x
    have h2 := x.isLt
    split at h1 <;> omega
  have hsz : (toSize x : ℤ) = x.toNat - 2 ^ 32 + 2 ^ 64 := by
    unfold toSize
    have h1 := BitVec.toInt_signExtend_of_le (x := x) (show 32 ≤ 64 by decide)
    have h2 := BitVec.toInt_eq_toNat_cond (x.signExtend 64)
    have h3 := (x.signExtend 64).isLt
    split at h2 <;> omega
  have h2 := x.isLt
  omega

theorem le_wrapped {m n : ℕ} (hm : 2 ^ 64 - 2 ^ 31 ≤ m ∧ m < 2 ^ 64) (hn : 0 < n ∧ n < 2 ^ 31) :
    n ≤ m * n % 2 ^ 64 * 4 % 2 ^ 64 / 4 := by
  obtain ⟨k, hk⟩ : ∃ k, m + k = 2 ^ 64 := ⟨2 ^ 64 - m, by omega⟩
  have hsum : m * n + k * n = 2 ^ 64 * n := by rw [← Nat.add_mul, hk]
  have hle : k * n ≤ 2 ^ 31 * n := Nat.mul_le_mul_right n (by omega)
  have hpos : 0 < k * n := Nat.mul_pos (by omega) hn.1
  generalize m * n = x at *
  generalize k * n = y at *
  omega

/-- The tensor of a `LOAD` has room for all its cells, unless it has none. -/
theorem loadSize_le_length {t : Tensor F} (h : tensorCreate env (loadShape inst) = some t)
    (h0 : ¬ (inst.shapeA0 = 0 ∧ 0 < inst.shapeA1.toInt)) : loadSize inst ≤ t.data.length := by
  have hlt := loadSize_lt inst
  unfold loadShape at h
  split at h
  · next h1 =>
    have hz1 := toSize_lt h1.le
    rcases lt_trichotomy inst.shapeA0.toInt 0 with hneg | hzero | hpos
    · -- the product wraps around to a number far above the extent
      have hz0 := toSize_neg hneg
      have hls : loadSize inst = toSize inst.shapeA1 := by
        simp only [loadSize, if_neg hneg.le.not_gt, if_pos h1, Nat.one_mul]
        exact Nat.mod_eq_of_lt (by omega)
      have hpos := toSize_of_nonneg h1.le
      rw [hls, length_tensorCreate_two h hz0.2]
      exact le_wrapped hz0 ⟨by omega, hz1⟩
    · exact absurd ⟨BitVec.eq_of_toInt_eq (by simpa using hzero), h1⟩ h0
    · have hz0 := toSize_lt hpos.le
      have hls : loadSize inst = toSize inst.shapeA0 * toSize inst.shapeA1 % 2 ^ 64 := by
        simp only [loadSize, if_pos hpos, if_pos h1]
      rw [length_tensorCreate_two h (by omega), ← hls]
      omega
  · exact (length_tensorCreate_one h hlt).ge

theorem loadShape_of_zero (h0 : inst.shapeA0 = 0) (h1 : 0 < inst.shapeA1.toInt) :
    loadShape inst = [0, toSize inst.shapeA1] := by
  rw [loadShape, if_pos h1, h0]
  rfl

theorem loadSize_mod (himm : 0 ≤ inst.immediate.toInt) :
    (toSize inst.immediate + loadSize inst) % 2 ^ 64 = toSize inst.immediate + loadSize inst := by
  have haddr := toSize_lt himm
  have := loadSize_lt inst
  omega

/-- A `LOAD` of fitting extent runs, into a tensor with room. -/
theorem execLoad_of_fits (himm : 0 ≤ inst.immediate.toInt) {d : Fin 16} (hd : reg inst.destReg = some d)
    (hf : s.regs d ≠ .freed) (hle : toSize inst.immediate + loadSize inst ≤ s.mem.length)
    (h0 : inst.shapeA0 = 0 → 0 < inst.shapeA1.toInt → env.alloc 0 = none) :
    ∃ s', execLoad env s inst = some (s', false) := by
  obtain ⟨old, hold⟩ := destroy_of_ne_freed hf
  have hgt : ¬ (toSize inst.immediate + loadSize inst > (s.setReg d old).mem.length) := not_lt.mpr hle
  simp only [execLoad, hd, hold, Option.bind_eq_bind, Option.bind_some, loadSize_mod himm, if_neg hgt]
  cases hc : tensorCreate env (loadShape inst) with
  | none => exact ⟨_, rfl⟩
  | some t =>
    have hroom : loadSize inst ≤ t.data.length := by
      refine loadSize_le_length hc fun h => ?_
      simp [tensorCreate, loadShape_of_zero h.1 h.2, h0 h.1 h.2] at hc
    exact ⟨_, if_pos ⟨hle, hroom⟩⟩

/-- A `LOAD` that is not refused has a register to go through, and cells for what it copies. -/
theorem fits_of_execLoad (himm : 0 ≤ inst.immediate.toInt) {d : Fin 16} (hd : reg inst.destReg = some d)
    (hle : toSize inst.immediate + loadSize inst ≤ s.mem.length) (hs : execLoad env s inst = some (s', stop)) :
    s.regs d ≠ .freed ∧ (inst.shapeA0 = 0 → 0 < inst.shapeA1.toInt → env.alloc 0 = none) := by
  simp only [execLoad, hd, Option.bind_eq_bind, Option.bind_eq_some_iff] at hs
  obtain ⟨old, hold, hs⟩ := hs
  refine ⟨fun hf => ?_, fun h0 h1 => ?_⟩
  · rw [hf] at hold
    cases hold
  · by_contra ha
    obtain ⟨l, hl⟩ := Option.ne_none_iff_exists'.mp ha
    have hsz : 0 < loadSize inst := by
      have hz1 := toSize_of_nonneg h1.le
      have hlt := toSize_lt h1.le
      rw [loadSize, if_pos h1, h0, if_neg (by simp), Nat.one_mul]
      omega
    have hc : tensorCreate env (loadShape inst) = some ⟨[0, toSize inst.shapeA1], 0, l⟩ := by
      simp [tensorCreate, loadShape_of_zero h0 h1, hl]
    have hl0 := env.alloc_length _ _ hl
    have hgt : ¬ (toSize inst.immediate + loadSize inst > (s.setReg d old).mem.length) := not_lt.mpr hle
    rw [loadSize_mod himm, if_neg hgt, hc] at hs
    simp only at hs
    rw [if_neg (by omega)] at hs
    cases hs

theorem execStore_of_fits (h : RegsWf s) (himm : 0 ≤ inst.immediate.toInt) (hmem : s.mem.length < 2 ^ 61) {r : Fin 16}
    {t : Tensor F} (hr : operands s [inst.srcRegA] = some [r]) (ht : s.regs r = .live t)
    (hle : toSize inst.immediate + t.size ≤ s.mem.length) : ∃ s', execStore s inst = some (s', false) := by
  have haddr := toSize_lt himm
  have hlen := (h _ t ht).length_eq
  have hgt : ¬ ((toSize inst.immediate + t.size) % 2 ^ 64 > s.mem.length) := by omega
  simp only [execStore, hr, ht, Reg.deref, Option.bind_eq_bind, Option.bind_some, if_neg hgt]
  exact ⟨_, if_pos ⟨hle, by omega⟩⟩

/-- **An access stays inside exactly when it fits.** -/
theorem staysInside_iff (h : RegsWf s) (himm : 0 ≤ inst.immediate.toInt) (hmem : s.mem.length < 2 ^ 61)
    (ho : inst.opcode = .load ∨ inst.opcode = .store)
    (htouch : ∀ a n, extent s inst = some (a, n) → TouchesOnly env s inst a n) :
    StaysInside env s inst ↔ Fits env s inst := by
  rcases ho with ho | ho
  · have hx : exec env s inst = execLoad env s inst := by simp only [exec, ho]
    simp only [Fits, ho]
    constructor
    · intro hin d hd
      have he : extent s inst = some (toSize inst.immediate, loadSize inst) := by
        simp only [extent, ho, hd, Option.map_some]
      obtain ⟨hle, ⟨s', hs⟩, -⟩ := hin.inside _ _ he
      obtain ⟨hf, h0⟩ := fits_of_execLoad himm hd hle (hx ▸ hs)
      exact ⟨hf, hle, h0⟩
    · intro hfit
      cases hd : reg inst.destReg with
      | none =>
        refine ⟨⟨s, true, by rw [hx, execLoad, hd]⟩, fun a n he => ?_⟩
        simp [extent, ho, hd] at he
      | some d =>
        obtain ⟨hf, hle, h0⟩ := hfit d hd
        have hgo : ∃ s', exec env s inst = some (s', false) := hx ▸ execLoad_of_fits himm hd hf hle h0
        refine ⟨hgo.imp fun s' hs => ⟨false, hs⟩, fun a n he => ?_⟩
        obtain ⟨-, rfl, rfl⟩ := extent_load ho he
        exact ⟨hle, hgo, htouch _ _ he⟩
  · have hx : exec env s inst = execStore s inst := by simp only [exec, ho]
    simp only [Fits, ho]
    constructor
    · intro hin r hr
      obtain ⟨s', stop, hs⟩ := hin.defined
      simp only [hx, execStore, hr, Option.bind_eq_bind, Option.bind_eq_some_iff] at hs
      obtain ⟨t, ht, -⟩ := hs
      refine ⟨t, deref_eq_some ht, (hin.inside _ t.size ?_).1⟩
      simp only [extent, ho, hr, ht, Option.map_some]
    · intro hfit
      refine ⟨?_, fun a n he => ?_⟩
      · rw [hx]
        unfold execStore
        split
        · next r hr =>
          obtain ⟨t, ht, hle⟩ := hfit r hr
          obtain ⟨s', hs⟩ := execStore_of_fits h himm hmem hr ht hle
          rw [execStore, hr] at hs
          exact ⟨s', false, hs⟩
        · exact ⟨s, true, rfl⟩
      · obtain ⟨r, t, hr, ht, rfl, rfl⟩ := extent_store ho he
        obtain ⟨t', ht', hle⟩ := hfit r hr
        obtain rfl : t' = t := by
          rw [ht'] at ht
          exact Option.some.inj ht
        exact ⟨hle, hx ▸ execStore_of_fits h himm hmem hr ht' hle, htouch _ _ he⟩

theorem execLoad_mem (hs : execLoad env s inst = some (s', stop)) : s'.mem = s.mem := by
  unfold execLoad at hs
  split at hs
  · obtain ⟨rfl, -⟩ := Prod.mk.inj (Option.some.inj hs)
    rfl
  · simp only [Option.bind_eq_bind, Option.bind_eq_some_iff] at hs
    obtain ⟨old, -, hs⟩ := hs
    split at hs
    · obtain ⟨rfl, -⟩ := Prod.mk.inj (Option.some.inj hs)
      rfl
    · split at hs
      · obtain ⟨rfl, -⟩ := Prod.mk.inj (Option.some.inj hs)
        rfl
      · split at hs
        · obtain ⟨rfl, -⟩ := Prod.mk.inj (Option.some.inj hs)
          rfl
        · cases hs

theorem execStore_length (hs : execStore s inst = some (s', stop)) :
    s'.mem.length = s.mem.length := by
  unfold execStore at hs
  split at hs
  · simp only [Option.bind_eq_bind, Option.bind_eq_some_iff] at hs
    obtain ⟨t, -, hs⟩ := hs
    split at hs
    · obtain ⟨rfl, -⟩ := Prod.mk.inj (Option.some.inj hs)
      rfl
    · split at hs
      · obtain ⟨rfl, -⟩ := Prod.mk.inj (Option.some.inj hs)
        simp only [State.next, List.length_append, List.length_take, List.length_drop]
        omega
      · cases hs
  · obtain ⟨rfl, -⟩ := Prod.mk.inj (Option.some.inj hs)
    rfl

theorem execStore_mem {r : Fin 16} {t : Tensor F} (hr : operands s [inst.srcRegA] = some [r])
    (ht : (s.regs r).deref = some t) (hs : execStore s inst = some (s', stop)) (j : ℕ)
    (hj : ¬ (toSize inst.immediate ≤ j ∧ j < toSize inst.immediate + t.size)) :
    s'.mem[j]? = s.mem[j]? := by
  simp only [execStore, hr, ht, Option.bind_eq_bind, Option.bind_some] at hs
  split at hs
  · obtain ⟨rfl, -⟩ := Prod.mk.inj (Option.some.inj hs)
    rfl
  · split at hs
    · next hg =>
      obtain ⟨rfl, -⟩ := Prod.mk.inj (Option.some.inj hs)
      have hl : (t.data.take t.size).length = t.size := by rw [List.length_take, min_eq_left hg.2]
      have h := getElem?_splice s.mem (t.data.take t.size) (a := toSize inst.immediate)
        (by rw [hl]; exact hg.1) j
      rw [hl, if_neg hj] at h
      exact h
    · cases hs

/-- No instruction changes the size of the memory. -/
theorem exec_mem_length (hs : exec env s inst = some (s', stop)) :
    s'.mem.length = s.mem.length := by
  have hform := exec_form env inst
  cases hfm : inst.opcode.form with
  | skip | halt =>
    simp only [hfm] at hform
    rw [hform, Option.some.injEq, Prod.mk.injEq] at hs
    obtain ⟨rfl, -⟩ := hs
    rfl
  | load =>
    simp only [hfm] at hform
    rw [execLoad_mem (hform s ▸ hs)]
  | store =>
    simp only [hfm] at hform
    rw [hform] at hs
    exact execStore_length hs
  | branch =>
    simp only [hfm] at hform
    rw [hform] at hs
    rw [(execBranch_frame (continues_eq_some.mp hs).1).2]
  | matmul =>
    simp only [hfm] at hform
    rw [hform] at hs
    rw [(execMatmul_frame (continues_eq_some.mp hs).1).mem]
  | unary | binary | ternary =>
    simp only [hfm] at hform
    obtain ⟨f, hform⟩ := hform
    rw [hform] at hs
    rw [(compute_frame (continues_eq_some.mp hs).1).mem]

/-- An access depends on no cell outside its extent and changes none. -/
theorem touchesOnly_extent {a n : ℕ} (he : extent s inst = some (a, n)) :
    TouchesOnly env s inst a n where
  reads := by
    intro t s' stop _ hregs hlen hcells hs
    -- the two machines differ at most in the cells outside the extent
    let σ : Stale := ⟨∅, {j | ¬ (a ≤ j ∧ j < a + n)}, 0⟩
    have hag : Agree σ s t := by
      refine ⟨fun i _ => by rw [hregs], hlen.symm, fun j hj => ?_⟩
      have hj : a ≤ j ∧ j < a + n := not_not.mp hj
      exact (hcells j hj.1 hj.2).symm
    have hin : Intact σ t := fun i hi => absurd hi (Finset.notMem_empty i)
    have hfresh : Fresh σ (reads s inst) := fun _ _ i _ => Finset.notMem_empty i
    have hdisj : Disjoint (loaded s inst) σ.cells := by
      refine Set.disjoint_left.mpr fun j hj hσ => hσ ?_
      unfold loaded at hj
      split at hj
      · next h =>
        obtain ⟨-, rfl, rfl⟩ := extent_load h.1 he
        exact hj
      · cases hj
    obtain ⟨t', ht', hk⟩ := exec_keep hag hin hfresh hdisj hs
    refine ⟨t', ht', ?_⟩
    funext i
    refine (hk.agree.regs i fun hi => ?_).symm
    exact Finset.notMem_empty i (Finset.mem_sdiff.mp hi).1
  writes := by
    intro s' stop hs j hj
    rcases extent_opcode he with ho | ho
    · have hx : exec env s inst = execLoad env s inst := by simp only [exec, ho]
      rw [execLoad_mem (hx ▸ hs)]
    · have hx : exec env s inst = execStore s inst := by simp only [exec, ho]
      obtain ⟨r, t, hr, ht, rfl, rfl⟩ := extent_store ho he
      exact execStore_mem hr ht (hx ▸ hs) j hj

end Exec

/-! ## Runs of verified programs -/

section Verified

variable {env : Env F}

theorem step_exec {code : List Instr} {s s' : State F} (h : step env code s = some (s', false)) :
    ∃ inst stop, exec env s inst = some (s', stop) := by
  unfold step at h
  split at h
  · cases h
  · next inst _ =>
    obtain ⟨⟨s₁, stop⟩, hx, h⟩ := Option.map_eq_some_iff.mp h
    obtain ⟨rfl, -⟩ := Prod.mk.inj h
    exact ⟨inst, stop, hx⟩

theorem Reached.regsWf {code : List Instr} {s₀ s : State F} (h : Reached env code s₀ s)
    (h₀ : RegsWf s₀) : RegsWf s := by
  induction h with
  | refl => exact h₀
  | step _ hs ih =>
    obtain ⟨_, _, hx⟩ := step_exec hs
    exact exec_wf ih hx

theorem verified_immediate {p : Program F} (hv : verifyProgram p = true) {i : ℕ} {inst : Instr}
    (hc : p.code[i]? = some inst) (ho : inst.opcode = .load ∨ inst.opcode = .store) :
    0 ≤ inst.immediate.toInt := by
  simp only [verifyProgram, Bool.and_eq_true, List.all_eq_true] at hv
  have h := (hv.1 inst (List.mem_of_getElem? hc)).1.2
  rcases ho with ho | ho <;> simp [ho] at h <;> exact h.1

theorem Reached.mem_length {code : List Instr} {s₀ s : State F} (h : Reached env code s₀ s) :
    s.mem.length = s₀.mem.length := by
  induction h with
  | refl => rfl
  | step _ hs ih =>
    obtain ⟨_, _, hx⟩ := step_exec hs
    exact (exec_mem_length hx).trans ih

/-- **The accesses of a verified program.** In every run from any registers, a `LOAD` or a `STORE`
stays inside of the memory, in its whole extent, exactly when it fits. One whose extent is too long
is refused and leaves the memory as it is. -/
theorem verified_accesses (env : Env F) (p : Program F) (hv : verifyProgram p = true)
    (hmem : p.mem.length < 2 ^ 61) (regs : Fin 16 → Reg F) (hregs : RegsWf ⟨0, regs, p.mem⟩)
    (s : State F) (hs : Reached env p.code ⟨0, regs, p.mem⟩ s) (inst : Instr)
    (hc : p.code[s.pc]? = some inst) (ho : inst.opcode = .load ∨ inst.opcode = .store) :
    (StaysInside env s inst ↔ Fits env s inst) ∧
      ∀ a n, extent s inst = some (a, n) → p.mem.length < a + n → NotDangling s inst →
        Refused env s inst := by
  have himm := verified_immediate hv hc ho
  have hwf := hs.regsWf hregs
  have hlen : s.mem.length = p.mem.length := hs.mem_length
  refine ⟨staysInside_iff hwf himm (hlen ▸ hmem) ho fun a n he => touchesOnly_extent he, ?_⟩
  intro a n he hlt hd
  exact refused_of_lt he (extent_mod hwf himm he) (hlen.trans_lt hlt) hd

/-- A program that loads two cells and stores them at the end of the memory. -/
def storeLast : Program ℤ :=
  .create smallInts [⟨.load, 1, 0, 0, 7, 2, 0⟩, ⟨.store, 0, 1, 0, 65534, 0, 0⟩, simple .halt 0 0 0]

/-- A program that loads five cells into a tensor of shape `{0, 5}`. -/
def loadEmpty : Program ℤ := .create smallInts [⟨.load, 1, 0, 0, 7, 0, 5⟩, simple .halt 0 0 0]

theorem verifyProgram_storeLast : verifyProgram storeLast = true := by
  have hmem : storeLast.mem.length = 65536 := List.length_replicate
  have hcode : storeLast.code =
    [⟨.load, 1, 0, 0, 7, 2, 0⟩, ⟨.store, 0, 1, 0, 65534, 0, 0⟩, simple .halt 0 0 0] := rfl
  rw [verifyProgram, hmem, hcode]
  decide

theorem verifyProgram_loadEmpty : verifyProgram loadEmpty = true := by
  have hmem : loadEmpty.mem.length = 65536 := List.length_replicate
  have hcode : loadEmpty.code = [⟨.load, 1, 0, 0, 7, 0, 5⟩, simple .halt 0 0 0] := rfl
  rw [verifyProgram, hmem, hcode]
  decide

theorem regsWf_null (mem : List F) : RegsWf ⟨0, fun _ => .null, mem⟩ := by
  intro i t h
  cases h

/-- A `LOAD` into an unset register from inside of the memory. -/
theorem execLoad_null {d : Fin 16} {t : Tensor F} (hr : reg inst.destReg = some d)
    (hnull : s.regs d = .null) (hle : toSize inst.immediate + loadSize inst ≤ s.mem.length)
    (hlt : s.mem.length < 2 ^ 64) (ht : tensorCreate env (loadShape inst) = some t) :
    execLoad env s inst = if loadSize inst ≤ t.data.length then
      some ((s.setReg d (.live { t with data :=
        (s.mem.drop (toSize inst.immediate)).take (loadSize inst) ++ t.data.drop (loadSize inst) })).next, false)
      else none := by
  have hfits : ¬ s.mem.length < (toSize inst.immediate + loadSize inst) % 2 ^ 64 := by
    rw [Nat.mod_eq_of_lt (hle.trans_lt hlt)]
    omega
  simp only [execLoad, hr, hnull, Reg.destroy, State.setReg, Option.bind_eq_bind, Option.bind_some, gt_iff_lt, hfits,
    if_false, ht, hle, true_and, Function.update_idem]

theorem neZero_sixteen : NeZero 16 := ⟨by decide⟩

attribute [local instance] neZero_sixteen in
/-- The state of `storeLast` behind the `LOAD`. -/
def loadedLast (mem : List ℤ) : State ℤ :=
  (State.setReg ⟨0, fun _ => .null, mem⟩ 1 (.live ⟨[2], 2, (mem.drop 7).take 2⟩)).next

theorem step_storeLast {mem : List ℤ} (hmem : mem.length = 65536) :
    step smallInts storeLast.code ⟨0, fun _ => .null, mem⟩ = some (loadedLast mem, false) := by
  have hload : execLoad smallInts ⟨0, fun _ => .null, mem⟩ ⟨.load, 1, 0, 0, 7, 2, 0⟩ = _ :=
    execLoad_null (d := 1) (t := ⟨[2], 2, [0, 0]⟩) rfl rfl (hmem ▸ by decide) (hmem ▸ by norm_num) rfl
  show (execLoad smallInts ⟨0, fun _ => .null, mem⟩ ⟨.load, 1, 0, 0, 7, 2, 0⟩).map _ = _
  rw [hload, if_pos (by decide)]
  show some (State.next (State.setReg _ 1 (.live ⟨[2], 2, (mem.drop 7).take 2 ++ []⟩)), false) = _
  rw [List.append_nil]
  rfl

theorem fits_storeLast {mem : List ℤ} (hmem : mem.length = 65536) :
    Fits smallInts (loadedLast mem) ⟨.store, 0, 1, 0, 65534, 0, 0⟩ := by
  intro r hr
  have h1 : operands (loadedLast mem) [1] = some [1] := rfl
  cases h1.symm.trans hr
  exact ⟨_, rfl, hmem.ge⟩

theorem verified_accesses_storeLast :
    StaysInside smallInts (loadedLast storeLast.mem) ⟨.store, 0, 1, 0, 65534, 0, 0⟩ := by
  have hmem : storeLast.mem.length = 65536 := List.length_replicate
  refine (verified_accesses smallInts storeLast verifyProgram_storeLast (hmem ▸ by norm_num)
    (fun _ => .null) (regsWf_null _) _ (.step .refl (step_storeLast hmem)) _ rfl (.inr rfl)).1.mpr ?_
  exact fits_storeLast hmem

/-- The verifier accepts a `LOAD` that writes five cells behind a block without any. -/
theorem verified_access_outside : ¬ ∀ (p : Program ℤ), verifyProgram p = true → p.mem.length < 2 ^ 61 →
    ∀ (regs : Fin 16 → Reg ℤ), RegsWf ⟨0, regs, p.mem⟩ → ∀ s,
      Reached smallInts p.code ⟨0, regs, p.mem⟩ s → ∀ inst, p.code[s.pc]? = some inst →
        inst.opcode = .load ∨ inst.opcode = .store → StaysInside smallInts s inst := by
  intro h
  have hmem : loadEmpty.mem.length = 65536 := List.length_replicate
  have hin := h loadEmpty verifyProgram_loadEmpty (hmem ▸ by norm_num) (fun _ => .null) (regsWf_null _) _ .refl
    _ rfl (.inl rfl)
  obtain ⟨s', stop, hs⟩ := hin.defined
  have hload : execLoad smallInts ⟨0, fun _ => .null, loadEmpty.mem⟩ ⟨.load, 1, 0, 0, 7, 0, 5⟩ = _ :=
    execLoad_null (d := 1) (t := ⟨[0, 5], 0, []⟩) rfl rfl (hmem ▸ by decide) (hmem ▸ by norm_num) rfl
  have hs : execLoad smallInts ⟨0, fun _ => .null, loadEmpty.mem⟩ ⟨.load, 1, 0, 0, 7, 0, 5⟩ =
    some (s', stop) := hs
  cases hload.symm.trans hs

end Verified

end SneppxAlg.Npe
