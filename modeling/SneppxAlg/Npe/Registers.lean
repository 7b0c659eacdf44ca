import SneppxAlg.Npe.Safety

/-!
# Registers that dangle

An instruction replaces its destination by destroying the old tensor. All computing instructions
but `MATMUL` do so before they read their operands, so one whose destination is also an operand
reads what it has just destroyed. And two kinds of instructions can end without a new value after
they have destroyed the old one: a `LOAD` that is refused, and an `ATTENTION` or a `BATCHNORM`
whose third operand is not set. Then the register keeps a pointer to the destroyed tensor.

`Tidy` is the condition on a machine and its next instruction under which none of this happens.
A run is free of dangling pointers exactly if all its steps are tidy.
-/

namespace SneppxAlg.Npe

variable {F : Type}

/-- Every register is `NULL` or owns a tensor. -/
def Live (s : State F) : Prop := ∀ i, s.regs i ≠ .freed

/-- What `SNEPPX_tensor_destroy` leaves in a register. -/
def Reg.afterDestroy : Reg F → Reg F
  | .live _ => .freed
  | r => r

/-- The pointers that an instruction takes from registers to read tensors through them, as the
registers hold them when it does. -/
def pointersRead (s : State F) (inst : Instr) : List (Reg F) :=
  match operands s inst.sources with
  | none => []
  | some is =>
    match inst.opcode.form with
    | .store | .branch => is.map s.regs
    | .matmul =>
      if (reg inst.destReg).isSome then
        is.map s.regs ++
          if hasBias inst.immediate then (reg (inst.immediate &&& 0xFF)).toList.map s.regs else []
      else []
    | .unary | .binary | .ternary =>
      match reg inst.destReg with
      | none => []
      | some d =>
        let regs := Function.update s.regs d (s.regs d).afterDestroy
        is.map regs ++
          if inst.opcode.form = .ternary then (reg inst.immediate).toList.map regs else []
    | _ => []

/-- The registers are sound before and after the instruction, and it reads no destroyed tensor. -/
structure Sound (env : Env F) (s : State F) (inst : Instr) : Prop where
  live : Live s
  reads : ∀ r ∈ pointersRead s inst, r ≠ .freed
  result : ∀ s' stop, exec env s inst = some (s', stop) → Live s'

/-- If the destination holds a tensor, a `LOAD` is not refused, and a computing instruction has
other operands than the destination and finds all of them set. -/
def Tidy (s : State F) (inst : Instr) : Prop :=
  ∀ d, reg inst.destReg = some d → (s.regs d).isSet = true →
    match inst.opcode.form with
    | .load => ¬ refused s inst
    | .unary | .binary => ∀ is, operands s inst.sources = some is → d ∉ is
    | .ternary => ∀ is, operands s inst.sources = some is →
        d ∉ is ∧ named s inst.immediate = true ∧ reg inst.immediate ≠ some d
    | _ => True

/-! ## One instruction -/

variable {env : Env F} {s s' : State F} {inst : Instr} {stop : Bool} {d : Fin 16}

theorem Live.of_regs_eq (h : Live s) (hr : s'.regs = s.regs) : Live s' := by
  intro i
  rw [hr]
  exact h i

theorem Live.setReg (h : Live s) {r : Reg F} (hr : r ≠ .freed) : Live (s.setReg d r) := by
  intro i
  by_cases hid : i = d
  · subst hid
    simpa [State.setReg] using hr
  · simpa [State.setReg, hid] using h i

theorem Reg.ofPtr_ne_freed (p : Ptr F) : Reg.ofPtr p ≠ .freed := by
  cases p <;> simp [Reg.ofPtr]

theorem Live.destroy (h : Live s) (d : Fin 16) :
    (s.regs d).destroy = some (s.regs d).afterDestroy := by
  cases hr : s.regs d with
  | null | live => rfl
  | freed => exact absurd hr (h d)

theorem afterDestroy_of_not_isSet {r : Reg F} (h : r.isSet = false) : r.afterDestroy = .null := by
  cases r <;> simp [Reg.isSet] at h
  rfl

theorem afterDestroy_of_isSet {r : Reg F} (h : r.isSet = true) : r.afterDestroy = .freed := by
  cases r <;> simp [Reg.isSet] at h <;> rfl

/-! ### Tidy instructions are sound -/

theorem execLoad_live (hl : Live s) (ht : ∀ d, reg inst.destReg = some d →
    (s.regs d).isSet = true → ¬ refused s inst) (hs : execLoad env s inst = some (s', stop)) :
    Live s' := by
  cases hd : reg inst.destReg with
  | none =>
    simp only [execLoad, hd, Option.some.injEq, Prod.mk.injEq] at hs
    obtain ⟨rfl, -⟩ := hs
    exact hl
  | some d =>
    simp only [execLoad, hd, hl.destroy, Option.bind_eq_bind, Option.bind_some] at hs
    split at hs
    · next href =>
      -- a refused `LOAD` leaves what the destruction left, so there was nothing to destroy
      obtain ⟨rfl, -⟩ := Prod.mk.inj (Option.some.inj hs)
      have hset : (s.regs d).isSet = false := by
        by_contra h
        exact ht d hd (by simpa using h) href
      rw [afterDestroy_of_not_isSet hset]
      exact hl.setReg (by simp)
    · have hlive : ∀ r : Reg F, r ≠ .freed →
          Live ((s.setReg d (s.regs d).afterDestroy).setReg d r).next := by
        intro r hr
        have heq : ((s.setReg d (s.regs d).afterDestroy).setReg d r).next.regs =
            (s.setReg d r).regs := by simp [State.setReg, State.next]
        exact (hl.setReg hr).of_regs_eq heq
      cases hc : tensorCreate env (loadShape inst) with
      | none =>
        simp only [hc, Option.some.injEq, Prod.mk.injEq] at hs
        obtain ⟨rfl, -⟩ := hs
        exact hlive _ (by simp)
      | some x =>
        simp only [hc] at hs
        split at hs
        · obtain ⟨rfl, -⟩ := Prod.mk.inj (Option.some.inj hs)
          exact hlive _ (by simp)
        · cases hs

theorem execMatmul_live (hl : Live s) (hs : execMatmul env s inst = some s') : Live s' := by
  cases hd : reg inst.destReg with
  | none =>
    simp only [execMatmul, hd] at hs
    obtain rfl := Option.some.inj hs
    exact hl
  | some d =>
    cases ho : operands s [inst.srcRegA, inst.srcRegB] with
    | none =>
      simp only [execMatmul, hd, ho] at hs
      obtain rfl := Option.some.inj hs
      exact hl
    | some is =>
      obtain ⟨a, b, rfl, -, -⟩ := operands_pair ho
      simp only [execMatmul, hd, ho, Option.bind_eq_bind, Option.bind_eq_some_iff] at hs
      obtain ⟨x, -, y, -, mm, -, hs⟩ := hs
      obtain ⟨tail, old, -, -, rfl⟩ := execMatmul_tail hs
      exact (hl.setReg (Reg.ofPtr_ne_freed tail)).of_regs_eq rfl

/-- A kernel whose results are pointers from `SNEPPX_tensor_create`, and which gives no result only
if `miss` says so. -/
def Assigns (K : State F → List (Fin 16) → Option (Option (Reg F))) (s : State F)
    (miss : Prop) : Prop :=
  ∀ is, (∀ r, K s is = some (some r) → r ≠ .freed) ∧ (K s is = some none → miss)

theorem compute_live {dest : BitVec 32} {srcs : List (BitVec 32)}
    {K : State F → List (Fin 16) → Option (Option (Reg F))} {miss : Fin 16 → Prop} (hl : Live s)
    (hK : ∀ d, Assigns K (s.setReg d (s.regs d).afterDestroy) (miss d))
    (hmiss : ∀ d is, reg dest = some d → operands s srcs = some is → miss d →
      (s.regs d).isSet = false)
    (hs : compute s dest srcs K = some s') : Live s' := by
  cases hd : reg dest with
  | none =>
    simp only [compute, hd] at hs
    obtain rfl := Option.some.inj hs
    exact hl
  | some d =>
    cases ho : operands s srcs with
    | none =>
      simp only [compute, hd, ho] at hs
      obtain rfl := Option.some.inj hs
      exact hl
    | some is =>
      simp only [compute, hd, ho, hl.destroy, Option.bind_eq_bind, Option.bind_some,
        Option.bind_eq_some_iff] at hs
      obtain ⟨res, hres, hs⟩ := hs
      cases res with
      | none =>
        obtain rfl := Option.some.inj hs
        rw [afterDestroy_of_not_isSet (hmiss d is hd ho ((hK d is).2 hres))]
        exact (hl.setReg (r := .null) (by simp)).of_regs_eq rfl
      | some r =>
        obtain rfl := Option.some.inj hs
        have heq : ((s.setReg d (s.regs d).afterDestroy).setReg d r).next.regs =
            (s.setReg d r).regs := by simp [State.setReg, State.next]
        exact (hl.setReg ((hK d is).1 r hres)).of_regs_eq heq

theorem assigns_unary (f : Tensor F → Option (Ptr F)) (s : State F) : Assigns (unary f) s False := by
  intro is
  match is with
  | [a] =>
    simp only [unary, Option.bind_eq_bind, Option.bind_eq_some_iff, Option.some.injEq, reduceCtorEq,
      and_false, exists_false, imp_self, and_true]
    rintro r ⟨x, -, p, -, rfl⟩
    exact Reg.ofPtr_ne_freed p
  | [] | _ :: _ :: _ => simp [unary]

theorem assigns_binary (f : Tensor F → Tensor F → Option (Ptr F)) (s : State F) :
    Assigns (binary f) s False := by
  intro is
  match is with
  | [a, b] =>
    simp only [binary, Option.bind_eq_bind, Option.bind_eq_some_iff, Option.some.injEq, reduceCtorEq,
      and_false, exists_false, imp_self, and_true]
    rintro r ⟨x, -, y, -, p, -, rfl⟩
    exact Reg.ofPtr_ne_freed p
  | [] | [_] | _ :: _ :: _ :: _ => simp [binary]

theorem assigns_ternary (imm : BitVec 32) (f : Tensor F → Tensor F → Tensor F → Option (Ptr F))
    (s : State F) : Assigns (ternary imm f) s (named s imm = false) := by
  intro is
  match is with
  | [a, b] =>
    cases hr : reg imm with
    | none => simp [ternary, hr, named]
    | some i =>
      by_cases hset : (s.regs i).isSet = true
      · simp only [ternary, hr, hset, if_true, Option.bind_eq_bind, Option.bind_eq_some_iff,
          Option.some.injEq, reduceCtorEq, and_false, exists_false, false_imp_iff, and_true]
        rintro r ⟨x, -, y, -, z, -, p, -, rfl⟩
        exact Reg.ofPtr_ne_freed p
      · simp [ternary, hr, named, hset]
  | [] | [_] | _ :: _ :: _ :: _ => simp [ternary]

theorem exec_live (hl : Live s) (ht : Tidy s inst) (hs : exec env s inst = some (s', stop)) :
    Live s' := by
  have hform := exec_form env inst
  cases hfm : inst.opcode.form with
  | skip | halt =>
    simp only [hfm] at hform
    rw [hform, Option.some.injEq, Prod.mk.injEq] at hs
    obtain ⟨rfl, -⟩ := hs
    exact hl
  | load =>
    simp only [hfm] at hform
    refine execLoad_live hl (fun d hd hset => ?_) (hform s ▸ hs)
    simpa [hfm] using ht d hd hset
  | store =>
    simp only [hfm] at hform
    rw [hform] at hs
    exact hl.of_regs_eq (execStore_regs hs)
  | branch =>
    simp only [hfm] at hform
    rw [hform] at hs
    exact hl.of_regs_eq (execBranch_frame (continues_eq_some.mp hs).1).1
  | matmul =>
    simp only [hfm] at hform
    rw [hform] at hs
    exact execMatmul_live hl (continues_eq_some.mp hs).1
  | unary =>
    simp only [hfm] at hform
    obtain ⟨f, hform⟩ := hform
    rw [hform] at hs
    exact compute_live hl (fun _ => assigns_unary f _) (fun _ _ _ _ => False.elim) (continues_eq_some.mp hs).1
  | binary =>
    simp only [hfm] at hform
    obtain ⟨f, hform⟩ := hform
    rw [hform] at hs
    exact compute_live hl (fun _ => assigns_binary f _) (fun _ _ _ _ => False.elim) (continues_eq_some.mp hs).1
  | ternary =>
    simp only [hfm] at hform
    obtain ⟨f, hform⟩ := hform
    rw [hform] at hs
    refine compute_live hl (fun d => assigns_ternary _ f _) (fun d is hd ho hmiss => ?_)
      (continues_eq_some.mp hs).1
    by_contra hset
    have hset' : (s.regs d).isSet = true := by simpa using hset
    have htidy := ht d hd hset'
    simp only [hfm, Instr.sources] at htidy
    rw [named_setReg (hl.destroy d), (htidy is ho).2.1] at hmiss
    cases hmiss

/-! ### What an instruction reads -/

theorem read_ne_freed (hl : Live s) {i : Fin 16} (h : (s.regs d).isSet = true → i ≠ d) :
    Function.update s.regs d (s.regs d).afterDestroy i ≠ .freed := by
  by_cases hid : i = d
  · subst hid
    have hset : (s.regs i).isSet = false := by
      by_contra hset
      exact h (by simpa using hset) rfl
    rw [Function.update_self, afterDestroy_of_not_isSet hset]
    simp
  · rw [Function.update_of_ne hid]
    exact hl i

theorem pointersRead_ne_freed (hl : Live s) (ht : Tidy s inst) :
    ∀ r ∈ pointersRead s inst, r ≠ .freed := by
  intro r hr
  unfold pointersRead at hr
  cases ho : operands s inst.sources with
  | none => simp [ho] at hr
  | some is =>
    simp only [ho] at hr
    cases hfm : inst.opcode.form with
    | skip | halt | load => simp [hfm] at hr
    | store | branch =>
      simp only [hfm, List.mem_map] at hr
      obtain ⟨i, -, rfl⟩ := hr
      exact hl i
    | matmul =>
      simp only [hfm] at hr
      split_ifs at hr
      · simp only [List.mem_append, List.mem_map] at hr
        obtain ⟨i, -, rfl⟩ | ⟨i, -, rfl⟩ := hr <;> exact hl i
      · simp only [List.append_nil, List.mem_map] at hr
        obtain ⟨i, -, rfl⟩ := hr
        exact hl i
      · simp at hr
    | unary | binary =>
      cases hd : reg inst.destReg with
      | none => simp [hfm, hd] at hr
      | some d =>
        simp only [hfm, hd, reduceCtorEq, if_false, List.append_nil, List.mem_map] at hr
        obtain ⟨i, hi, rfl⟩ := hr
        refine read_ne_freed hl fun hset hid => ?_
        have htidy := ht d hd hset
        simp only [hfm] at htidy
        exact htidy is ho (hid ▸ hi)
    | ternary =>
      cases hd : reg inst.destReg with
      | none => simp [hfm, hd] at hr
      | some d =>
        simp only [hfm, hd, if_true, List.mem_append, List.mem_map, Option.mem_toList] at hr
        obtain ⟨i, hi, rfl⟩ | ⟨i, hi, rfl⟩ := hr <;> refine read_ne_freed hl fun hset hid => ?_
        all_goals
          have htidy := ht d hd hset
          simp only [hfm] at htidy
        · exact (htidy is ho).1 (hid ▸ hi)
        · exact (htidy is ho).2.2 (hid ▸ hi)

theorem sound_of_tidy (hl : Live s) (ht : Tidy s inst) : Sound env s inst :=
  ⟨hl, pointersRead_ne_freed hl ht, fun _ _ => exec_live hl ht⟩

/-! ### Sound instructions are tidy -/

theorem not_refused_of_sound (h : Sound env s inst) (hfm : inst.opcode.form = .load)
    (hd : reg inst.destReg = some d) (hset : (s.regs d).isSet = true) : ¬ refused s inst := by
  intro href
  have hform := exec_form env inst
  simp only [hfm] at hform
  have hexec : exec env s inst = some (s.setReg d (s.regs d).afterDestroy, true) := by
    rw [hform]
    simp only [execLoad, hd, h.live.destroy, Option.bind_eq_bind, Option.bind_some]
    exact if_pos href
  have hlive := h.result _ _ hexec d
  simp [State.setReg, afterDestroy_of_isSet hset] at hlive

/-- The destination is read after it was destroyed. -/
theorem freed_mem_pointersRead {is : List (Fin 16)} (hd : reg inst.destReg = some d)
    (hset : (s.regs d).isSet = true) (ho : operands s inst.sources = some is)
    (hfm : inst.opcode.form = .unary ∨ inst.opcode.form = .binary ∨ inst.opcode.form = .ternary)
    (hmem : d ∈ is ∨ inst.opcode.form = .ternary ∧ reg inst.immediate = some d) :
    Reg.freed ∈ pointersRead s inst := by
  have hfreed : Function.update s.regs d (s.regs d).afterDestroy d = .freed := by
    rw [Function.update_self, afterDestroy_of_isSet hset]
  have hpointers : pointersRead s inst =
      is.map (Function.update s.regs d (s.regs d).afterDestroy) ++
        if inst.opcode.form = .ternary then
          (reg inst.immediate).toList.map (Function.update s.regs d (s.regs d).afterDestroy)
        else [] := by
    rcases hfm with hfm | hfm | hfm <;> simp [pointersRead, ho, hfm, hd]
  rw [hpointers, List.mem_append]
  rcases hmem with hmem | ⟨hter, himm⟩
  · exact .inl (List.mem_map.mpr ⟨d, hmem, hfreed⟩)
  · rw [if_pos hter, himm]
    exact .inr (List.mem_map.mpr ⟨d, by simp, hfreed⟩)

theorem named_of_sound (h : Sound env s inst) (hfm : inst.opcode.form = .ternary)
    (hd : reg inst.destReg = some d) (hset : (s.regs d).isSet = true) {is : List (Fin 16)}
    (ho : operands s inst.sources = some is) : named s inst.immediate = true := by
  by_contra hnamed
  have hform := exec_form env inst
  simp only [hfm] at hform
  obtain ⟨f, hform⟩ := hform
  simp only [Instr.sources, hfm] at ho
  obtain ⟨a, b, rfl, -, -⟩ := operands_pair ho
  have hkernel : ternary inst.immediate f (s.setReg d (s.regs d).afterDestroy) [a, b] =
      some none := by
    unfold named at hnamed
    cases hr : reg inst.immediate with
    | none => simp [ternary, hr]
    | some i =>
      rw [hr, Option.any_some] at hnamed
      have hid : i ≠ d := by
        rintro rfl
        exact hnamed hset
      simp [ternary, hr, State.setReg, hid, hnamed]
  have hexec : exec env s inst = some ((s.setReg d (s.regs d).afterDestroy).next, false) := by
    rw [hform]
    simp [compute, hd, ho, h.live.destroy, hkernel, continues]
  have hlive := h.result _ _ hexec d
  simp [State.setReg, State.next, afterDestroy_of_isSet hset] at hlive

theorem tidy_of_sound (h : Sound env s inst) : Tidy s inst := by
  intro d hd hset
  have hread : ∀ is, operands s inst.sources = some is →
      (inst.opcode.form = .unary ∨ inst.opcode.form = .binary ∨ inst.opcode.form = .ternary) →
      ¬ (d ∈ is ∨ inst.opcode.form = .ternary ∧ reg inst.immediate = some d) :=
    fun is ho hfm hmem => h.reads _ (freed_mem_pointersRead hd hset ho hfm hmem) rfl
  cases hfm : inst.opcode.form with
  | skip | halt | store | branch | matmul => trivial
  | load => exact not_refused_of_sound h hfm hd hset
  | unary | binary =>
    intro is ho hmem
    exact hread is ho (by simp [hfm]) (.inl hmem)
  | ternary =>
    intro is ho
    exact ⟨fun hmem => hread is ho (by simp [hfm]) (.inl hmem), named_of_sound h hfm hd hset ho,
      fun himm => hread is ho (by simp [hfm]) (.inr ⟨hfm, himm⟩)⟩

/-! ## Runs -/

theorem Reached.live {code : List Instr} {s₀ : State F} (hs : Reached env code s₀ s)
    (h₀ : Live s₀)
    (ht : ∀ s, Reached env code s₀ s → ∀ inst, code[s.pc]? = some inst → Tidy s inst) : Live s := by
  induction hs with
  | refl => exact h₀
  | @step s s' hs hstep ih =>
    cases hc : code[s.pc]? with
    | none => simp [Npe.step, hc] at hstep
    | some inst =>
      simp only [Npe.step, hc] at hstep
      obtain ⟨⟨s₁, stop⟩, hx, heq⟩ := Option.map_eq_some_iff.mp hstep
      obtain ⟨rfl, -⟩ := Prod.mk.inj heq
      exact exec_live ih (ht s hs inst hc) hx

/-- **In a run from registers that do not dangle, no register ever dangles and no instruction reads
a destroyed tensor, exactly if every step is tidy.** -/
theorem run_sound_iff (env : Env F) (code : List Instr) (s₀ : State F) (h₀ : Live s₀) :
    (∀ s, Reached env code s₀ s → ∀ inst, code[s.pc]? = some inst → Sound env s inst) ↔
      ∀ s, Reached env code s₀ s → ∀ inst, code[s.pc]? = some inst → Tidy s inst := by
  constructor
  · intro h s hs inst hc
    exact tidy_of_sound (h s hs inst hc)
  · intro h s hs inst hc
    exact sound_of_tidy (hs.live h₀ h) (h s hs inst hc)

attribute [local instance] neZero_registers

/-- A machine with a tensor in register 0 and nothing in the others. -/
def oneTensor : State ℤ := ⟨0, Function.update (fun _ => .null) 0 (.live ⟨[1], 1, [5]⟩), []⟩

theorem live_oneTensor : Live oneTensor := by
  intro i
  by_cases hi : i = 0
  · subst hi
    simp [oneTensor]
  · simp [oneTensor, Function.update_of_ne hi]

/-- A machine with tensors in the registers 0 and 1. -/
def twoTensors : State ℤ := { oneTensor with regs := Function.update oneTensor.regs 1 (.live ⟨[1], 1, [7]⟩) }

theorem live_twoTensors : Live twoTensors := by
  intro i
  by_cases hi : i = 1
  · subst hi
    simp [twoTensors]
  · simpa [twoTensors, Function.update_of_ne hi] using live_oneTensor i

/-- A program of one instruction that is not a jump goes nowhere after it. -/
theorem reached_relu {d : BitVec 32} {s : State ℤ}
    (hs : Reached smallInts [simple .relu d 0 0] twoTensors s) : s = twoTensors := by
  induction hs with
  | refl => rfl
  | step _ hstep ih =>
    subst ih
    obtain ⟨⟨s₁, stop⟩, hx, heq⟩ := Option.map_eq_some_iff.mp hstep
    obtain ⟨-, hstop⟩ := Prod.mk.inj heq
    have hpc := (compute_frame (continues_eq_some.mp hx).1).pc
    rw [hpc] at hstop
    simp [twoTensors, oneTensor] at hstop

theorem run_sound_relu : Live twoTensors ∧ (twoTensors.regs 1).isSet = true ∧
    ∀ s, Reached smallInts [simple .relu 1 0 0] twoTensors s →
      ∀ inst, [simple .relu 1 0 0][s.pc]? = some inst → Sound smallInts s inst := by
  refine ⟨live_twoTensors, rfl,
    (run_sound_iff smallInts [simple .relu 1 0 0] twoTensors live_twoTensors).mpr ?_⟩
  intro s hs inst hc d hd hset
  obtain rfl := reached_relu hs
  obtain rfl : simple .relu 1 0 0 = inst := by simpa [twoTensors, oneTensor] using hc
  have hreg : reg (simple .relu 1 0 0).destReg = some 1 := rfl
  obtain rfl : 1 = d := Option.some.inj (hreg.symm.trans hd)
  intro is his
  obtain rfl : [0] = is := Option.some.inj his
  decide

/-- `RELU r0 <- r0` reads the tensor that it has just destroyed. -/
theorem not_sound_relu_in_place : ¬ ∀ (code : List Instr) (s₀ : State ℤ), Live s₀ →
    ∀ s, Reached smallInts code s₀ s → ∀ inst, code[s.pc]? = some inst → Sound smallInts s inst := by
  intro h
  have hsound := h [simple .relu 0 0 0] oneTensor live_oneTensor _ .refl _ rfl
  have htidy := tidy_of_sound hsound 0 rfl rfl [0] rfl
  exact htidy List.mem_cons_self

end SneppxAlg.Npe
