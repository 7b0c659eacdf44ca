import SneppxAlg.Npe.ClearRuns

/-!
# When the passes preserve a run

Each pass is an `Aligned` rewriting, so that `run_clear` applies to it. None of them preserves all
runs: dead-code elimination overlooks the registers that are named by an immediate and the register
that is selected for the output, the fused instructions write the destination of the first one of
their group, a folded instruction loads the wrong memory cell, no pass adjusts branches, and the
optimised program starts with fresh memory and registers.
-/

namespace SneppxAlg.Npe

variable {F : Type}

/-! ## Fates -/

/-- The fates of the instructions under `jit_dce`. -/
def dceFates (code : List Instr) : List Fate :=
  code.map fun inst => if keeps code inst then .keep else .drop

theorem pure_of_not_keeps {code : List Instr} {inst : Instr} (h : keeps code inst = false) :
    inst.pure := by
  simp only [keeps, Bool.or_eq_false_iff, decide_eq_false_iff_not] at h
  obtain ⟨⟨⟨⟨hl, hs⟩, hh⟩, hb⟩, -⟩ := h
  exact ⟨hl, hs, hh, hb⟩

theorem aligned_filter (code : List Instr) :
    ∀ c : List Instr, Aligned (c.map fun inst => if keeps code inst then .keep else .drop) c
      (c.filter (keeps code))
  | [] => .nil
  | inst :: c => by
    cases h : keeps code inst with
    | true =>
      rw [List.map_cons, List.filter_cons, h]
      exact .keep inst (aligned_filter code c)
    | false =>
      rw [List.map_cons, List.filter_cons, h]
      exact .drop inst (pure_of_not_keeps h) (aligned_filter code c)

theorem aligned_jitDce (code : List Instr) : Aligned (dceFates code) code (jitDce code) :=
  aligned_filter code code

def folds (env : Env F) (consts : Consts F) (inst : Instr) : Bool :=
  match inst.opcode, foldValue env consts inst with
  | .load, _ => false
  | _, some (some _) => true
  | _, _ => false

/-- The fates of the instructions under `jit_constant_fold`. -/
def foldFatesFrom (env : Env F) (memory : List F) (consts : Consts F) : List Instr → List Fate
  | [] => []
  | inst :: code =>
    match foldStep env memory consts inst with
    | some (consts', _) =>
      (if folds env consts inst then .swap else .keep) :: foldFatesFrom env memory consts' code
    | none => []

/-- The fates of the instructions under `jit_constant_fold`. -/
def foldFates (env : Env F) (memory : List F) (code : List Instr) : List Fate :=
  foldFatesFrom env memory (fun _ => none) code

theorem foldStep_inst {env : Env F} {memory : List F} {consts consts' : Consts F}
    {inst inst' : Instr} (h : foldStep env memory consts inst = some (consts', inst')) :
    inst' = if folds env consts inst then foldedTo inst else inst := by
  unfold foldStep at h
  by_cases hl : inst.opcode = .load
  · simp only [hl, if_true, Option.bind_eq_bind, Option.bind_eq_some_iff, Option.some.injEq,
      Prod.mk.injEq] at h
    obtain ⟨_, _, _, rfl⟩ := h
    simp [folds, hl]
  · simp only [hl, if_false, Option.bind_eq_bind, Option.bind_eq_some_iff] at h
    obtain ⟨v, hv, h⟩ := h
    cases v with
    | some v =>
      simp only [Option.bind_eq_some_iff, Option.some.injEq, Prod.mk.injEq] at h
      obtain ⟨_, _, _, rfl⟩ := h
      have hf : folds env consts inst = true := by
        unfold folds
        split
        · next ho => exact absurd ho hl
        · rfl
        · next hn => exact absurd hv (hn v)
      rw [hf, if_pos rfl]
    | none =>
      have hf : folds env consts inst = false := by
        simp [folds, hv]
      rw [hf, if_neg Bool.false_ne_true]
      dsimp only at h
      split at h
      · cases h; rfl
      · split at h
        · cases h; rfl
        · cases h; rfl

theorem aligned_foldLoop {env : Env F} {memory : List F} :
    ∀ {code code' : List Instr} {consts : Consts F},
      foldLoop env memory consts code = some code' →
      Aligned (foldFatesFrom env memory consts code) code code' := by
  intro code
  induction code with
  | nil =>
    intro code' consts h
    obtain rfl := Option.some.inj h
    exact .nil
  | cons inst code ih =>
    intro code' consts h
    simp only [foldLoop, Option.bind_eq_bind, Option.bind_eq_some_iff, Option.some.injEq] at h
    obtain ⟨⟨consts', inst'⟩, hstep, rest, hrest, rfl⟩ := h
    have hinst := foldStep_inst hstep
    simp only [foldFatesFrom, hstep]
    cases hf : folds env consts inst with
    | true => exact .swap inst inst' (ih hrest)
    | false =>
      rw [hf, if_neg Bool.false_ne_true] at hinst
      subst hinst
      exact .keep inst' (ih hrest)

/-- The fates of the instructions under `jit_fuse`. -/
def fuseFates : List Instr → List Fate
  | [] => []
  | inst :: rest =>
    match (fuseAt inst rest).1 with
    | 0 => .keep :: fuseFates rest
    | k + 1 => .swap :: (List.replicate (k + 1) .gone ++ fuseFates (rest.drop (k + 1)))
termination_by code => code.length

theorem fuseAt_zero {inst : Instr} {rest : List Instr} (h : (fuseAt inst rest).1 = 0) :
    (fuseAt inst rest).2 = inst := by
  cases rest with
  | nil => rfl
  | cons next rest =>
    simp only [fuseAt] at h ⊢
    split_ifs at h ⊢
    rfl

theorem fuseAt_le (inst : Instr) (rest : List Instr) : (fuseAt inst rest).1 ≤ rest.length := by
  match rest with
  | [] => exact le_rfl
  | [next] =>
    simp only [fuseAt, Bool.and_false, Bool.false_eq_true, if_false]
    split_ifs <;> simp
  | next :: next2 :: rest =>
    simp only [fuseAt]
    split_ifs <;> simp

theorem Aligned.gone_replicate {φ : List Fate} {c' : List Instr} :
    ∀ {k : ℕ} {c : List Instr}, k ≤ c.length → Aligned φ (c.drop k) c' →
      Aligned (List.replicate k .gone ++ φ) c c' := by
  intro k
  induction k with
  | zero => intro c _ h; exact h
  | succ k ih =>
    intro c hk h
    cases c with
    | nil => simp at hk
    | cons inst c => exact .gone inst (ih (by simpa using hk) h)

theorem aligned_jitFuse (code : List Instr) : Aligned (fuseFates code) code (jitFuse code) := by
  induction code using fuseFates.induct with
  | case1 =>
    rw [fuseFates, jitFuse]
    exact .nil
  | case2 inst rest h ih =>
    rw [fuseFates, jitFuse, h, fuseAt_zero h]
    exact .keep inst ih
  | case3 inst rest k h ih =>
    rw [fuseFates, jitFuse, h]
    exact .swap inst _ (.gone_replicate (h.symm.trans_le (fuseAt_le inst rest)) ih)

/-- The fates of the instructions in a hot program. -/
def compileFates : List Instr → List Fate
  | [] => []
  | inst :: rest =>
    if inst.opcode = .nop then .drop :: compileFates rest
    else
      match rest with
      | next :: rest' =>
        if inst.opcode = .matmul && follows .relu inst next then
          .swap :: .gone :: compileFates rest'
        else .keep :: compileFates (next :: rest')
      | [] => [.keep]
termination_by code => code.length

theorem aligned_compileLoop (code : List Instr) :
    Aligned (compileFates code) code (compileLoop code) := by
  induction code using compileFates.induct with
  | case1 =>
    rw [compileFates, compileLoop]
    exact .nil
  | case2 inst rest h ih =>
    rw [compileFates.eq_def, compileLoop.eq_def]
    simp only [h, if_true]
    exact .drop inst (by simp [Instr.pure, h]) ih
  | case3 inst h next rest hm ih =>
    rw [compileFates, compileLoop, if_neg h, if_neg h, if_pos hm, if_pos hm]
    exact .swap inst _ (.gone next ih)
  | case4 inst h next rest hm ih =>
    rw [compileFates, compileLoop, if_neg h, if_neg h, if_neg hm, if_neg hm]
    exact .keep inst ih
  | case5 inst h =>
    rw [compileFates, compileLoop, if_neg h, if_neg h]
    exact .keep inst .nil

/-- The fates under a pass with fates `ψ` that comes after one with fates `φ`. -/
def andThen : List Fate → List Fate → List Fate
  | [], _ => []
  | .drop :: φ, ψ => .drop :: andThen φ ψ
  | .gone :: φ, ψ => .gone :: andThen φ ψ
  | .keep :: φ, g :: ψ => g :: andThen φ ψ
  | .swap :: φ, g :: ψ => (if g.size = 1 then .swap else .gone) :: andThen φ ψ
  | _ :: _, [] => []

theorem Aligned.andThen {φ ψ : List Fate} {c c' c'' : List Instr} (h : Aligned φ c c')
    (h' : Aligned ψ c' c'') : Aligned (Npe.andThen φ ψ) c c'' := by
  induction h generalizing ψ c'' with
  | nil =>
    cases h'
    exact .nil
  | drop inst hp _ ih => exact .drop inst hp (ih h')
  | gone inst _ ih => exact .gone inst (ih h')
  | keep inst _ ih =>
    cases h' with
    | keep _ h' => exact .keep inst (ih h')
    | drop _ hp h' => exact .drop inst hp (ih h')
    | swap _ inst' h' => exact .swap inst inst' (ih h')
    | gone _ h' => exact .gone inst (ih h')
  | swap inst inst' _ ih =>
    cases h' with
    | keep _ h' => exact .swap inst inst' (ih h')
    | drop _ hp h' => exact .gone inst (ih h')
    | swap _ inst'' h' => exact .swap inst inst'' (ih h')
    | gone _ h' => exact .gone inst (ih h')

/-- The fates of the instructions under `jit_optimize`. -/
def optimizeFates (env : Env F) (prof : Option Profile) (memory : List F) (code : List Instr) :
    List Fate :=
  let dce := dceFates code
  let fold := foldFates env memory (jitDce code)
  let folded := (jitConstantFold env memory (jitDce code)).getD []
  let fuse := fuseFates folded
  let hot := (prof.bind fun prof => jitCompile prof (jitFuse folded)).isSome
  let rest := if hot then andThen fuse (compileFates (jitFuse folded)) else fuse
  andThen dce (andThen fold rest)

theorem aligned_optimizeCode {env : Env F} {prof : Option Profile} {memory : List F}
    {code code' : List Instr} (h : optimizeCode env prof memory code = some code') :
    Aligned (optimizeFates env prof memory code) code code' := by
  simp only [optimizeCode, Option.bind_eq_bind, Option.bind_eq_some_iff] at h
  obtain ⟨folded, hfold, h⟩ := h
  simp only [optimizeFates, hfold, Option.getD_some]
  refine (aligned_jitDce code).andThen ((aligned_foldLoop hfold).andThen ?_)
  cases prof with
  | none =>
    obtain rfl := Option.some.inj h
    exact aligned_jitFuse folded
  | some prof =>
    obtain rfl := Option.some.inj h
    simp only [Option.bind_some]
    unfold jitCompile
    by_cases hh : prof.maxFreq < prof.hotThreshold
    · simp only [hh, if_true, Option.isSome_none, Bool.false_eq_true, if_false, Option.getD_none]
      exact aligned_jitFuse folded
    · simp only [hh, if_false, Option.isSome_some, if_true, Option.getD_some]
      exact (aligned_jitFuse folded).andThen (aligned_compileLoop _)

/-! ## Constant folding -/

section Fold

variable {env : Env F} {s s' : State F} {inst : Instr} {stop : Bool}

/-- What a folded instruction computed before it was folded, from the tensors in its operands. The
virtual machine has no `NEG`. -/
def arithmetic (env : Env F) (s : State F) (inst : Instr) : Option (Ptr F) :=
  let one (f : Tensor F → Option (Ptr F)) : Option (Ptr F) := do
    f (← (s.regs (← reg inst.srcRegA)).deref)
  let two (f : Tensor F → Tensor F → Option (Ptr F)) : Option (Ptr F) := do
    f (← (s.regs (← reg inst.srcRegA)).deref) (← (s.regs (← reg inst.srcRegB)).deref)
  match inst.opcode with
  | .mul => two (tensorMul env)
  | .add => two (tensorAdd env)
  | .sub => two (tensorSub env)
  | .div => two (tensorDiv env)
  | .relu => one (tensorRelu env)
  | .exp => one (tensorExp env)
  | _ => none

/-- The tensor in the shape of the instruction whose cells are the first ones of the memory. -/
def memoryTensor (env : Env F) (s : State F) (inst : Instr) : Option (Ptr F) :=
  match tensorCreate env (loadShape inst) with
  | none => if loadSize inst ≤ s.mem.length then some none else none
  | some t =>
    if loadSize inst ≤ s.mem.length ∧ loadSize inst ≤ t.data.length then
      some (some { t with data := s.mem.take (loadSize inst) ++ t.data.drop (loadSize inst) })
    else none

/-- The memory starts with the cells that the instruction computes, and the instruction carries the
shape of its result. -/
def AtStart (env : Env F) (s : State F) (inst : Instr) : Prop :=
  (reg inst.destReg).isSome ∧
    ∃ p, arithmetic env s inst = some p ∧ memoryTensor env s inst = some p

/-- Whenever the run executes a folded instruction, its result stands at the start of the memory. -/
def FoldClear (env : Env F) (φ : List Fate) (code : List Instr) : ℕ → State F → Prop
  | 0, _ => True
  | n + 1, s =>
    (∀ inst, code[s.pc]? = some inst → φ[s.pc]? = some .swap → AtStart env s inst) ∧
      ∀ s', step env code s = some (s', false) → FoldClear env φ code n s'

theorem execLoad_folded {d : Fin 16} {old : Reg F} {p : Ptr F} (hd : reg inst.destReg = some d)
    (hold : (s.regs d).destroy = some old) (hp : memoryTensor env s inst = some p) :
    execLoad env s (foldedTo inst) = some (((s.setReg d old).setReg d (Reg.ofPtr p)).next, false) := by
  have haddr : toSize (foldedTo inst).immediate = 0 := by
    change toSize 0 = 0
    decide
  have hsize : loadSize (foldedTo inst) = loadSize inst := rfl
  have hshape : loadShape (foldedTo inst) = loadShape inst := rfl
  have hdest : (foldedTo inst).destReg = inst.destReg := rfl
  simp only [execLoad, hdest, hd, Option.bind_eq_bind, hold, Option.bind_some, haddr, hsize, hshape,
    Nat.zero_add]
  have hmem : (s.setReg d old).mem = s.mem := rfl
  rw [hmem]
  unfold memoryTensor at hp
  cases hc : tensorCreate env (loadShape inst) with
  | none =>
    simp only [hc] at hp
    split at hp
    · next hle =>
      obtain rfl := Option.some.inj hp
      rw [if_neg (not_lt.mpr ((Nat.mod_le _ _).trans hle))]
      rfl
    · cases hp
  | some t =>
    simp only [hc] at hp
    split at hp
    · next hle =>
      obtain rfl := Option.some.inj hp
      rw [if_neg (not_lt.mpr ((Nat.mod_le _ _).trans hle.1))]
      simp only [hle, and_self, if_true, List.drop_zero]
      rfl
    · cases hp

theorem deref_eq_some {r : Reg F} {t : Tensor F} (h : r.deref = some t) : r = .live t := by
  cases r with
  | live x => rw [Option.some.inj h]
  | null | freed => cases h

/-- A tensor that can still be read after the destination was destroyed is in another register. -/
theorem deref_setReg {d a : Fin 16} {old : Reg F} {t : Tensor F}
    (hold : (s.regs d).destroy = some old) (h : ((s.setReg d old).regs a).deref = some t) :
    (s.regs a).deref = some t := by
  by_cases had : a = d
  · subst had
    have : old = .live t := by simpa [State.setReg] using deref_eq_some h
    subst this
    cases hr : s.regs a <;> simp [hr, Reg.destroy] at hold
  · simpa [State.setReg, had] using h

theorem operands_single_live {x : BitVec 32} {a : Fin 16} {t : Tensor F} (hx : reg x = some a)
    (ht : (s.regs a).deref = some t) : operands s [x] = some [a] := by
  simp [operands, hx, deref_eq_some ht, Reg.isSet]

theorem operands_pair_live {x y : BitVec 32} {a b : Fin 16} {t u : Tensor F} (hx : reg x = some a)
    (hy : reg y = some b) (ht : (s.regs a).deref = some t) (hu : (s.regs b).deref = some u) :
    operands s [x, y] = some [a, b] := by
  simp [operands, hx, hy, deref_eq_some ht, deref_eq_some hu, Reg.isSet]

theorem exec_folded_unary {f : Tensor F → Option (Ptr F)} {p : Ptr F}
    (hx : exec env s inst = continues (compute s inst.destReg [inst.srcRegA] (unary f)))
    (hd : (reg inst.destReg).isSome)
    (hp : (do f (← (s.regs (← reg inst.srcRegA)).deref)) = some p)
    (hm : memoryTensor env s inst = some p) (hs : exec env s inst = some (s', stop)) :
    execLoad env s (foldedTo inst) = some (s', stop) := by
  obtain ⟨d, hd⟩ := Option.isSome_iff_exists.mp hd
  simp only [Option.bind_eq_bind, Option.bind_eq_some_iff] at hp
  obtain ⟨a, ha, t, ht, hp⟩ := hp
  rw [hx] at hs
  obtain ⟨hc, rfl⟩ := continues_eq_some.mp hs
  simp only [compute, hd, operands_single_live ha ht, unary, Option.bind_eq_bind,
    Option.bind_eq_some_iff, Option.some.injEq] at hc
  obtain ⟨old, hold, r, ⟨t', ht', p', hp', rfl⟩, hc⟩ := hc
  obtain rfl := Option.some.inj hc
  obtain rfl := Option.some.inj ((deref_setReg hold ht').symm.trans ht)
  obtain rfl := Option.some.inj (hp'.symm.trans hp)
  exact execLoad_folded hd hold hm

theorem exec_folded_binary {f : Tensor F → Tensor F → Option (Ptr F)} {p : Ptr F}
    (hx : exec env s inst =
      continues (compute s inst.destReg [inst.srcRegA, inst.srcRegB] (binary f)))
    (hd : (reg inst.destReg).isSome)
    (hp : (do f (← (s.regs (← reg inst.srcRegA)).deref) (← (s.regs (← reg inst.srcRegB)).deref)) =
      some p)
    (hm : memoryTensor env s inst = some p) (hs : exec env s inst = some (s', stop)) :
    execLoad env s (foldedTo inst) = some (s', stop) := by
  obtain ⟨d, hd⟩ := Option.isSome_iff_exists.mp hd
  simp only [Option.bind_eq_bind, Option.bind_eq_some_iff] at hp
  obtain ⟨a, ha, t, ht, b, hb, u, hu, hp⟩ := hp
  rw [hx] at hs
  obtain ⟨hc, rfl⟩ := continues_eq_some.mp hs
  simp only [compute, hd, operands_pair_live ha hb ht hu, binary, Option.bind_eq_bind,
    Option.bind_eq_some_iff, Option.some.injEq] at hc
  obtain ⟨old, hold, r, ⟨t', ht', u', hu', p', hp', rfl⟩, hc⟩ := hc
  obtain rfl := Option.some.inj hc
  obtain rfl := Option.some.inj ((deref_setReg hold ht').symm.trans ht)
  obtain rfl := Option.some.inj ((deref_setReg hold hu').symm.trans hu)
  obtain rfl := Option.some.inj (hp'.symm.trans hp)
  exact execLoad_folded hd hold hm

/-- A folded instruction does what it did before, when its result stands at the start of the
memory. -/
theorem exec_foldedTo (h : AtStart env s inst) (hs : exec env s inst = some (s', stop)) :
    exec env s (foldedTo inst) = some (s', stop) := by
  obtain ⟨hd, p, hp, hm⟩ := h
  have hload : exec env s (foldedTo inst) = execLoad env s (foldedTo inst) := rfl
  rw [hload]
  unfold arithmetic at hp
  cases ho : inst.opcode <;> simp only [ho] at hp
  case mul | add | sub | div =>
    exact exec_folded_binary (by simp only [exec, ho]; rfl) hd hp hm hs
  case relu | exp => exact exec_folded_unary (by simp only [exec, ho]; rfl) hd hp hm hs
  all_goals cases hp

/-- `code'` is `code` with the instructions of fate `swap` folded. -/
structure Folded (φ : List Fate) (code code' : List Instr) : Prop where
  length_eq : code'.length = code.length
  get : ∀ i : ℕ, code'[i]? = code[i]?.map fun inst =>
    if φ[i]? = some Fate.swap then foldedTo inst else inst

theorem folded_foldLoop {memory : List F} :
    ∀ {code code' : List Instr} {consts : Consts F},
      foldLoop env memory consts code = some code' →
      Folded (foldFatesFrom env memory consts code) code code' := by
  intro code
  induction code with
  | nil =>
    intro code' consts h
    obtain rfl := Option.some.inj h
    exact ⟨rfl, fun _ => rfl⟩
  | cons inst code ih =>
    intro code' consts h
    simp only [foldLoop, Option.bind_eq_bind, Option.bind_eq_some_iff, Option.some.injEq] at h
    obtain ⟨⟨consts', inst'⟩, hstep, rest, hrest, rfl⟩ := h
    have hinst := foldStep_inst hstep
    simp only [foldFatesFrom, hstep]
    refine ⟨congrArg (· + 1) (ih hrest).length_eq, fun i => ?_⟩
    cases i with
    | zero =>
      cases hf : folds env consts inst <;> rw [hf] at hinst <;> simp [hinst]
    | succ i => exact (ih hrest).get i

theorem step_fold {code code' : List Instr} {φ : List Fate} (hfold : Folded φ code code')
    (hcl : ∀ inst, code[s.pc]? = some inst → φ[s.pc]? = some .swap → AtStart env s inst)
    (hs : step env code s = some (s', stop)) : step env code' s = some (s', stop) := by
  unfold step at hs ⊢
  rw [hfold.get]
  cases hc : code[s.pc]? with
  | none => simpa [hc] using hs
  | some inst =>
    rw [hc] at hs
    simp only [Option.map_eq_some_iff, Prod.mk.injEq, Option.map_some] at hs ⊢
    obtain ⟨⟨s₁, b⟩, hx, rfl, rfl⟩ := hs
    rw [hfold.length_eq]
    by_cases hf : φ[s.pc]? = some .swap
    · rw [if_pos hf]
      exact ⟨_, exec_foldedTo (hcl inst hc hf) hx, rfl, rfl⟩
    · rw [if_neg hf]
      exact ⟨_, hx, rfl, rfl⟩

/-- The folded program follows every clear run, state by state. -/
theorem loop_fold {code code' : List Instr} {φ : List Fate} (hfold : Folded φ code code') :
    ∀ (n : ℕ) (s : State F) {r : State F × Bool}, FoldClear env φ code n s →
      loop env code n s = some r → loop env code' n s = some r := by
  intro n
  induction n with
  | zero => exact fun s r _ h => h
  | succ n ih =>
    intro s r hcl hl
    rw [loop] at hl ⊢
    cases hs : step env code s with
    | none => simp [hs] at hl
    | some p =>
      obtain ⟨s', stop⟩ := p
      rw [step_fold hfold hcl.1 hs]
      cases stop with
      | true => simpa [hs] using hl
      | false => exact ih s' (hcl.2 s' hs) (by simpa [hs] using hl)

end Fold

/-! ## Concrete programs -/

/-- Floats that hold small integers, on which the four operations are exact. -/
def smallInts : Env ℤ where
  lit q := q.num
  add x y := x + y
  sub x y := x - y
  mul x y := x * y
  div x y := x / y
  neg x := -x
  gt x y := x > y
  ge x y := x ≥ y
  eq x y := x = y
  exp _ := 0
  log _ := 0
  sqrt _ := 0
  sin _ := 0
  cos _ := 0
  tanh _ := 0
  pow _ _ := 0
  ofBits _ := 0
  ofSize n := n
  toSize x := x.toNat
  alloc n := if n < 2 ^ 61 then some (List.replicate n 0) else none
  alloc_length := by
    intro n l h
    split at h
    · obtain rfl := Option.some.inj h
      exact List.length_replicate
    · cases h
  alloc_large := by
    intro n h
    exact if_neg (not_lt.mpr h)

/-- An instruction without immediate and shape. -/
def simple (opcode : Opcode) (dest a b : BitVec 32) : Instr := ⟨opcode, dest, a, b, 0, 0, 0⟩

/-- A `LOAD` of a single cell. -/
def loadCell (dest addr : BitVec 32) : Instr := ⟨.load, dest, 0, 0, addr, 0, 0⟩

/-! ## The passes -/

/-- The second run returns the output and the status of the first and leaves the same memory. -/
def SameResult (r r' : Option (Result F)) : Prop :=
  ∀ res, r = some res → ∃ res', r' = some res' ∧ res'.output = res.output ∧
    res'.status = res.status ∧ res'.final.mem = res.final.mem

/-- The second run also leaves the same registers. -/
def SameMachine (r r' : Option (Result F)) : Prop :=
  ∀ res, r = some res → ∃ res', r' = some res' ∧ res'.output = res.output ∧
    res'.status = res.status ∧ res'.final.mem = res.final.mem ∧ res'.final.regs = res.final.regs

theorem not_sameResult {r r' : Option (Result F)} {x y : Ptr F} (h : r.map Result.output = some x)
    (h' : r'.map Result.output = some y) (hne : y ≠ x) : ¬ SameResult r r' := by
  intro hsame
  obtain ⟨res, rfl, rfl⟩ := Option.map_eq_some_iff.mp h
  obtain ⟨res', rfl, rfl⟩ := Option.map_eq_some_iff.mp h'
  obtain ⟨_, hr, ho, -⟩ := hsame res rfl
  obtain rfl := Option.some.inj hr
  exact hne ho

theorem SameMachine.sameResult {r r' : Option (Result F)} (h : SameMachine r r') :
    SameResult r r' := by
  intro res hres
  obtain ⟨res', h1, h2, h3, h4, -⟩ := h res hres
  exact ⟨res', h1, h2, h3, h4⟩

section Results

variable (env : Env F) (code : List Instr) (stepLimit : ℕ) (regs : Fin 16 → Reg F) (mem : List F)
  (input : Tensor F)

/-- **Dead-code elimination preserves a run** that reads no register left stale by an eliminated
instruction, takes no branch to an instruction that moves, and selects for the output a register
above the stale ones. -/
theorem jitDce_correct (h : ClearRun env (dceFates code) code stepLimit regs mem input) :
    SameResult (run env code stepLimit regs mem input)
      (run env (jitDce code) stepLimit regs mem input) := by
  intro res hres
  obtain ⟨res', h1, h2, h3, h4, -⟩ := run_clear (aligned_jitDce code) h hres
  exact ⟨res', h1, h2, h3, h4⟩

/-- `RELU r1, r0; LOAD r2, [0]; HALT`: the `RELU` is eliminated, and the output is above `r1`. -/
theorem clearRun_relu_load (tail : List ℤ) :
    ClearRun smallInts (dceFates [simple .relu 1 0 0, loadCell 2 0, simple .halt 0 0 0])
      [simple .relu 1 0 0, loadCell 2 0, simple .halt 0 0 0] 10 (fun _ => .null) (5 :: tail)
      ⟨[1], 1, [1]⟩ := by
  intro s hs
  obtain rfl := Option.some.inj hs
  refine .drop_step rfl rfl rfl ?_
  refine .keep_step rfl rfl ?_ (Set.disjoint_empty _) (by decide) (by with_unfolding_all rfl) ?_
  · intro x hx
    cases hx
  refine .halt_step rfl rfl rfl (.inr ⟨2, rfl, ?_⟩)
  intro d hd
  rcases Finset.mem_union.mp (Finset.mem_sdiff.mp hd).1 with h | h
  · cases h
  · have h1 : some 1 = some d := Option.mem_toFinset.mp h
    obtain rfl := Option.some.inj h1
    decide

theorem jitDce_correct_relu_load :
    SameResult
      (run smallInts [simple .relu 1 0 0, loadCell 2 0, simple .halt 0 0 0] 10 (fun _ => .null)
        (5 :: List.replicate 65535 0) ⟨[1], 1, [1]⟩)
      (run smallInts (jitDce [simple .relu 1 0 0, loadCell 2 0, simple .halt 0 0 0]) 10
        (fun _ => .null) (5 :: List.replicate 65535 0) ⟨[1], 1, [1]⟩) :=
  jitDce_correct smallInts _ 10 _ _ _ (clearRun_relu_load _)

/-- `ADD r1, r0, r0; HALT`: no instruction names `r1` as a source, so the `ADD` is eliminated, but
`r1` is the output. -/
theorem jitDce_not_correct : ¬ ∀ (code : List Instr) (stepLimit : ℕ) (regs : Fin 16 → Reg ℤ)
    (mem : List ℤ) (input : Tensor ℤ), SameResult (run smallInts code stepLimit regs mem input)
      (run smallInts (jitDce code) stepLimit regs mem input) := by
  intro h
  refine not_sameResult (x := some ⟨[1], 1, [2]⟩) (y := some ⟨[1], 1, [1]⟩) ?_ ?_ (by decide)
    (h [simple .add 1 0 0, simple .halt 0 0 0] 10 (fun _ => .null) (List.replicate 65536 0)
      ⟨[1], 1, [1]⟩)
  · rfl
  · rfl

theorem drop_not_mem_fuseFates : ∀ code : List Instr, .drop ∉ fuseFates code := by
  intro code
  induction code using fuseFates.induct with
  | case1 => simp [fuseFates]
  | case2 inst rest h ih =>
    rw [fuseFates, h]
    simpa using ih
  | case3 inst rest k h ih =>
    rw [fuseFates, h]
    simpa [List.mem_replicate] using ih

/-- **Fusion preserves a run** that executes no fused group and takes no branch to an instruction
that moves. -/
theorem jitFuse_correct (h : ClearRun env (fuseFates code) code stepLimit regs mem input) :
    SameMachine (run env code stepLimit regs mem input)
      (run env (jitFuse code) stepLimit regs mem input) := by
  intro res hres
  obtain ⟨res', h1, h2, h3, h4, h5⟩ := run_clear (aligned_jitFuse code) h hres
  exact ⟨res', h1, h2, h3, h4, h5 (drop_not_mem_fuseFates code)⟩

/-- `ADD r1, r0, r0; HALT; MATMUL r2, r1, r1; RELU r3, r2`: the group behind the `HALT` is fused,
and the run does not get there. -/
def reluBehindHalt : List Instr :=
  [simple .add 1 0 0, simple .halt 0 0 0, simple .matmul 2 1 1, simple .relu 3 2 0]

theorem fuseFates_reluBehindHalt : fuseFates reluBehindHalt = [.keep, .keep, .swap, .gone] := by
  simp [reluBehindHalt, fuseFates, fuseAt, follows, simple]

theorem jitFuse_reluBehindHalt : jitFuse reluBehindHalt =
    [simple .add 1 0 0, simple .halt 0 0 0, ⟨.matmul, 2, 1, 1, 0x80000000, 0, 0⟩] := by
  simp [reluBehindHalt, jitFuse, fuseAt, follows, simple, withFlag]

theorem clearRun_reluBehindHalt (mem : List ℤ) :
    ClearRun smallInts (fuseFates reluBehindHalt) reluBehindHalt 10 (fun _ => .null) mem
      ⟨[1], 1, [1]⟩ := by
  rw [fuseFates_reluBehindHalt]
  intro s hs
  obtain rfl := Option.some.inj hs
  refine .keep_step rfl rfl ?_ (Set.disjoint_empty _) (by decide) (by with_unfolding_all rfl) ?_
  · intro x _ i _
    exact Finset.notMem_empty i
  exact .halt_step rfl rfl rfl (.inl rfl)

theorem jitFuse_correct_behindHalt :
    (run smallInts reluBehindHalt 10 (fun _ => .null) (List.replicate 65536 0) ⟨[1], 1, [1]⟩).map
        Result.output = some (some ⟨[1], 1, [2]⟩) ∧
      SameMachine
        (run smallInts reluBehindHalt 10 (fun _ => .null) (List.replicate 65536 0) ⟨[1], 1, [1]⟩)
        (run smallInts
          [simple .add 1 0 0, simple .halt 0 0 0, ⟨.matmul, 2, 1, 1, 0x80000000, 0, 0⟩] 10
          (fun _ => .null) (List.replicate 65536 0) ⟨[1], 1, [1]⟩) := by
  rw [← jitFuse_reluBehindHalt]
  exact ⟨rfl, jitFuse_correct smallInts reluBehindHalt 10 _ _ _ (clearRun_reluBehindHalt _)⟩

/-- `MATMUL r2, r0, r0; ADD r1, r2, r0; HALT`: the fused instruction leaves the sum in `r2`, which
is the output, and nothing in `r1`. -/
theorem jitFuse_not_correct : ¬ ∀ (code : List Instr) (stepLimit : ℕ) (regs : Fin 16 → Reg ℤ)
    (mem : List ℤ) (input : Tensor ℤ), SameMachine (run smallInts code stepLimit regs mem input)
      (run smallInts (jitFuse code) stepLimit regs mem input) := by
  intro h
  have hfuse : jitFuse [simple .matmul 2 0 0, simple .add 1 2 0, simple .halt 0 0 0] =
      [⟨.matmul, 2, 0, 0, 0x40000000, 0, 0⟩, simple .halt 0 0 0] := by
    simp [jitFuse, fuseAt, follows, simple, withBias, withFlag]
  have hsame := h [simple .matmul 2 0 0, simple .add 1 2 0, simple .halt 0 0 0] 10 (fun _ => .null)
    (List.replicate 65536 0) ⟨[1, 1], 1, [3]⟩
  rw [hfuse] at hsame
  refine not_sameResult (x := some ⟨[1, 1], 1, [9]⟩) (y := some ⟨[1, 1], 1, [12]⟩) ?_ ?_ (by decide)
    hsame.sameResult
  · rfl
  · rfl

/-- **Constant folding preserves a run** in which the result of every folded instruction that is
executed stands at the start of the memory. -/
theorem jitConstantFold_correct {code' : List Instr}
    (hfold : jitConstantFold env mem code = some code')
    (h : ∀ s, start env regs mem input = some s →
      FoldClear env (foldFates env mem code) code stepLimit s) :
    SameMachine (run env code stepLimit regs mem input)
      (run env code' stepLimit regs mem input) := by
  intro res hres
  refine ⟨res, ?_, rfl, rfl, rfl, rfl⟩
  simp only [run, Option.bind_eq_bind, Option.bind_eq_some_iff] at hres ⊢
  obtain ⟨s, hs, r, hl, hfin⟩ := hres
  exact ⟨s, hs, r, loop_fold (folded_foldLoop hfold) stepLimit s (h s hs) hl, hfin⟩

/-- `LOAD r1, [1]; LOAD r2, [1]; ADD r3, r1, r2`: the sum stands in the first cell. -/
theorem foldClear_add (tail : List ℤ) :
    ∀ s, start smallInts (fun _ => .null) (10 :: 5 :: tail) ⟨[1], 1, [1]⟩ = some s →
      FoldClear smallInts
        (foldFates smallInts (10 :: 5 :: tail) [loadCell 1 1, loadCell 2 1, simple .add 3 1 2])
        [loadCell 1 1, loadCell 2 1, simple .add 3 1 2] 3 s := by
  have hφ : foldFates smallInts (10 :: 5 :: tail) [loadCell 1 1, loadCell 2 1, simple .add 3 1 2] =
      [.keep, .keep, .swap] := rfl
  intro s hs
  obtain rfl := Option.some.inj hs
  rw [hφ]
  refine ⟨fun inst _ hf => (by cases hf), fun s' hs => ?_⟩
  obtain rfl : _ = s' := congrArg Prod.fst (Option.some.inj hs)
  refine ⟨fun inst _ hf => (by cases hf), fun s' hs => ?_⟩
  obtain rfl : _ = s' := congrArg Prod.fst (Option.some.inj hs)
  refine ⟨fun inst hc _ => ?_, fun _ _ => trivial⟩
  obtain rfl := Option.some.inj hc
  refine ⟨rfl, some ⟨[1], 1, [10]⟩, ?_, ?_⟩
  · with_unfolding_all rfl
  · with_unfolding_all rfl

theorem jitConstantFold_correct_add :
    jitConstantFold smallInts (10 :: 5 :: List.replicate 65534 0)
        [loadCell 1 1, loadCell 2 1, simple .add 3 1 2] =
      some [loadCell 1 1, loadCell 2 1, simple .load 3 1 2] ∧
    SameMachine
      (run smallInts [loadCell 1 1, loadCell 2 1, simple .add 3 1 2] 3 (fun _ => .null)
        (10 :: 5 :: List.replicate 65534 0) ⟨[1], 1, [1]⟩)
      (run smallInts [loadCell 1 1, loadCell 2 1, simple .load 3 1 2] 3 (fun _ => .null)
        (10 :: 5 :: List.replicate 65534 0) ⟨[1], 1, [1]⟩) := by
  have hfold : jitConstantFold smallInts (10 :: 5 :: List.replicate 65534 0)
        [loadCell 1 1, loadCell 2 1, simple .add 3 1 2] =
      some [loadCell 1 1, loadCell 2 1, simple .load 3 1 2] := rfl
  exact ⟨hfold, jitConstantFold_correct smallInts _ 3 _ _ _ hfold (foldClear_add _)⟩

/-- The same program with a zero in the first cell: the folded `ADD` loads it. -/
theorem jitConstantFold_not_correct : ¬ ∀ (code code' : List Instr) (stepLimit : ℕ)
    (regs : Fin 16 → Reg ℤ) (mem : List ℤ) (input : Tensor ℤ),
    jitConstantFold smallInts mem code = some code' →
      SameMachine (run smallInts code stepLimit regs mem input)
        (run smallInts code' stepLimit regs mem input) := by
  intro h
  have hrun : ∀ tail : List ℤ, (run smallInts [loadCell 1 1, loadCell 2 1, simple .add 3 1 2] 10
      (fun _ => .null) (0 :: 5 :: tail) ⟨[1], 1, [1]⟩).map Result.output =
        some (some ⟨[1], 1, [10]⟩) := by
    intro tail
    with_unfolding_all rfl
  have hrun' : ∀ tail : List ℤ, (run smallInts [loadCell 1 1, loadCell 2 1, simple .load 3 1 2] 10
      (fun _ => .null) (0 :: 5 :: tail) ⟨[1], 1, [1]⟩).map Result.output =
        some (some ⟨[1], 1, [0]⟩) := by
    intro tail
    with_unfolding_all rfl
  exact not_sameResult (hrun (List.replicate 65534 0)) (hrun' _) (by decide)
    (h [loadCell 1 1, loadCell 2 1, simple .add 3 1 2] _ 10 (fun _ => .null) _ _ rfl).sameResult

end Results

/-! ## The optimiser -/

attribute [local instance] neZero_registers

/-- What the optimised program does not carry over: the registers that are set, except register 0,
which receives the input, and the cells that are not zero. -/
def Program.stale (env : Env F) (p : Program F) : Stale where
  regs := Finset.univ.filter fun i => i ≠ 0 ∧ (p.regs i).isSet
  cells := {j | p.mem[j]? ≠ (List.replicate 65536 (env.lit 0))[j]?}
  skipped := 0

theorem mem_stale_regs {env : Env F} {p : Program F} {i : Fin 16} :
    i ∈ (p.stale env).regs ↔ i ≠ 0 ∧ (p.regs i).isSet :=
  Finset.mem_filter.trans ⟨And.right, fun h => ⟨Finset.mem_univ i, h⟩⟩

theorem eq_null_of_not_isSet {r : Reg F} (h : r.isSet = false) : r = .null := by
  cases r with
  | null => rfl
  | live t => cases h
  | freed => cases h

theorem agree_start {env : Env F} {p : Program F} (hlen : p.mem.length = 65536) (r : Reg F) :
    Agree (p.stale env) ⟨0, Function.update p.regs 0 r, p.mem⟩
      ⟨0, Function.update (fun _ => .null) 0 r, List.replicate 65536 (env.lit 0)⟩ where
  regs := by
    intro i hi
    by_cases h0 : i = 0
    · subst h0
      simp
    · have hset : (p.regs i).isSet = false := by simpa [mem_stale_regs, h0] using hi
      simp [h0, eq_null_of_not_isSet hset]
  length := hlen.trans List.length_replicate.symm
  cells := by
    intro j hj
    exact not_not.mp hj

theorem intact_start {env : Env F} {p : Program F} (r : Reg F) (mem : List F) :
    Intact (p.stale env) ⟨0, Function.update (fun _ => .null) 0 r, mem⟩ := by
  intro i hi
  have h0 : i ≠ 0 := (mem_stale_regs.mp hi).1
  simp [h0]

/-- **The optimiser preserves a run** that is not affected by what the passes change, by the
registers and the cells that are not carried over, or by a branch to an instruction that moves. -/
theorem jitOptimize_correct (env : Env F) (prof : Option Profile) (p p' : Program F)
    (stepLimit : ℕ) (input : Tensor F) (hopt : jitOptimize env prof p = some p')
    (hlen : p.mem.length = 65536)
    (h : ∀ s, start env p.regs p.mem input = some s →
      Clear env (optimizeFates env prof p.mem p.code) p.code stepLimit (p.stale env) s) :
    ∀ res, p.run env stepLimit input = some res →
      ∃ res', p'.run env stepLimit input = some res' ∧ res'.output = res.output ∧
        res'.status = res.status := by
  intro res hres
  simp only [jitOptimize, Option.map_eq_some_iff] at hopt
  obtain ⟨code', hcode, rfl⟩ := hopt
  simp only [Program.run, run, Option.bind_eq_bind, Option.bind_eq_some_iff] at hres
  obtain ⟨s, hs, ⟨sf, e⟩, hl, hfin⟩ := hres
  have hcl := h s hs
  simp only [start, Option.bind_eq_bind, Option.bind_eq_some_iff, Option.some.injEq] at hs
  obtain ⟨_, -, r, hr, rfl⟩ := hs
  obtain ⟨tf, σf, hl', hag, hsel, -, -⟩ := loop_clear (aligned_optimizeCode hcode) stepLimit _ _ _ sf
    e hcl (agree_start hlen _) (intact_start _ _) rfl hl
  obtain ⟨hfin', -⟩ := finish_eq hag hsel hfin
  refine ⟨⟨res.output, res.status, tf⟩, ?_, rfl, rfl⟩
  have hl' : loop env code' stepLimit _ = some (tf, e) := hl'
  simp only [Program.run, Program.create, run, start, Reg.destroy, Option.bind_eq_bind, hr,
    Option.bind_some, hl']
  exact hfin'

/-- A program that loads one cell of a memory whose first cell is not zero. -/
def loadProgram (addr : BitVec 32) (tail : List ℤ) : Program ℤ :=
  ⟨[loadCell 1 addr, simple .halt 0 0 0], fun _ => .null, 5 :: 0 :: tail⟩

theorem jitFuse_loadCell (addr : BitVec 32) :
    jitFuse [loadCell 1 addr, simple .halt 0 0 0] = [loadCell 1 addr, simple .halt 0 0 0] := by
  simp [jitFuse, fuseAt, follows, loadCell, simple]

theorem jitOptimize_loadProgram (addr : BitVec 32) (tail : List ℤ) :
    jitOptimize smallInts none (loadProgram addr tail) =
      some (.create smallInts [loadCell 1 addr, simple .halt 0 0 0]) := by
  have hdce : jitDce (loadProgram addr tail).code = (loadProgram addr tail).code := rfl
  have hfold : jitConstantFold smallInts (loadProgram addr tail).mem (loadProgram addr tail).code =
      some (loadProgram addr tail).code := rfl
  simp only [jitOptimize, optimizeCode, hdce, hfold, Option.bind_eq_bind, Option.bind_some,
    Option.map_some]
  rw [loadProgram, jitFuse_loadCell]

theorem optimizeFates_loadProgram (tail : List ℤ) :
    optimizeFates smallInts none (loadProgram 1 tail).mem (loadProgram 1 tail).code =
      [.keep, .keep] := by
  have hdce : jitDce (loadProgram 1 tail).code = (loadProgram 1 tail).code := rfl
  have hfold : jitConstantFold smallInts (loadProgram 1 tail).mem (loadProgram 1 tail).code =
      some (loadProgram 1 tail).code := rfl
  have hdf : dceFates (loadProgram 1 tail).code = [.keep, .keep] := rfl
  have hff : foldFates smallInts (loadProgram 1 tail).mem (loadProgram 1 tail).code =
      [.keep, .keep] := rfl
  have huf : fuseFates (loadProgram 1 tail).code = [.keep, .keep] := by
    simp [loadProgram, fuseFates, fuseAt, follows, loadCell, simple]
  simp only [optimizeFates, hdce, hfold, hdf, hff, huf, Option.getD_some, Option.bind_none,
    Option.isSome_none, Bool.false_eq_true, if_false]
  rfl

/-- The run that loads the second cell does not see that the first one is lost. -/
theorem clear_loadProgram (tail : List ℤ) {σ : Stale} (hr : σ.regs = ∅) (hc : 1 ∉ σ.cells) (s : State ℤ)
    (hs : start smallInts (loadProgram 1 tail).regs (loadProgram 1 tail).mem ⟨[1], 1, [1]⟩ =
      some s) : Clear smallInts [.keep, .keep] (loadProgram 1 tail).code 10 σ s := by
  obtain rfl := Option.some.inj hs
  refine .keep_step rfl rfl ?_ ?_ (by decide) (by with_unfolding_all rfl) ?_
  · intro x hx
    cases hx
  · refine Set.disjoint_left.mpr fun j hj => ?_
    have hj : toSize 1 ≤ j ∧ j < toSize 1 + 1 := by
      unfold loaded at hj
      split at hj
      · exact hj
      · cases hj
    have : toSize 1 = 1 := by decide
    obtain rfl : j = 1 := by omega
    exact hc
  refine .halt_step rfl rfl rfl (.inl ?_)
  simp [Stale.keep, hr]

theorem jitOptimize_correct_load : ∃ res res',
    (loadProgram 1 (List.replicate 65534 0)).run smallInts 10 ⟨[1], 1, [1]⟩ = some res ∧
      (Program.create smallInts [loadCell 1 1, simple .halt 0 0 0]).run smallInts 10 ⟨[1], 1, [1]⟩ =
        some res' ∧ res'.output = res.output ∧ res'.status = res.status := by
  have hrun : ∀ tail : List ℤ, ((loadProgram 1 tail).run smallInts 10 ⟨[1], 1, [1]⟩).map
      Result.output = some (some ⟨[1], 1, [0]⟩) := by
    intro tail
    with_unfolding_all rfl
  obtain ⟨res, hres, -⟩ := Option.map_eq_some_iff.mp (hrun (List.replicate 65534 0))
  obtain ⟨res', hres', hsame⟩ :=
    jitOptimize_correct smallInts none _ _ 10 _ (jitOptimize_loadProgram 1 _)
      (by rw [loadProgram, List.length_cons, List.length_cons, List.length_replicate])
      (fun s hs => by
        rw [optimizeFates_loadProgram]
        refine clear_loadProgram _ ?_ ?_ s hs
        · refine Finset.filter_false_of_mem fun i _ h => ?_
          exact absurd h.2 Bool.false_ne_true
        · intro h
          refine h ?_
          rw [List.getElem?_replicate, if_pos (by decide)]
          rfl) res hres
  exact ⟨res, res', hres, hres', hsame⟩

/-- The program that loads the first cell returns its contents before it is optimised, and zero
afterwards. -/
theorem jitOptimize_not_correct : ¬ ∀ (prof : Option Profile) (p p' : Program ℤ) (stepLimit : ℕ)
    (input : Tensor ℤ), jitOptimize smallInts prof p = some p' →
      ∀ res, p.run smallInts stepLimit input = some res →
        ∃ res', p'.run smallInts stepLimit input = some res' ∧ res'.output = res.output ∧
          res'.status = res.status := by
  intro h
  have hrun : ∀ tail : List ℤ, ((loadProgram 0 tail).run smallInts 10 ⟨[1], 1, [1]⟩).map
      Result.output = some (some ⟨[1], 1, [5]⟩) := by
    intro tail
    with_unfolding_all rfl
  have hrun' : ∀ tail : List ℤ, (run smallInts [loadCell 1 0, simple .halt 0 0 0] 10
      (fun _ => .null) (0 :: tail) ⟨[1], 1, [1]⟩).map Result.output =
        some (some ⟨[1], 1, [0]⟩) := by
    intro tail
    with_unfolding_all rfl
  obtain ⟨res, hres, ho⟩ := Option.map_eq_some_iff.mp (hrun (List.replicate 65534 0))
  obtain ⟨res', hres', ho'⟩ := Option.map_eq_some_iff.mp (hrun' (List.replicate 65535 0))
  obtain ⟨res'', hres'', heq, -⟩ := h none _ _ 10 _ (jitOptimize_loadProgram 0 _) res hres
  have hrep : Program.run smallInts (.create smallInts [loadCell 1 0, simple .halt 0 0 0]) 10
      ⟨[1], 1, [1]⟩ = some res' := by
    rw [← hres', Program.run, Program.create]
    rfl
  obtain rfl := Option.some.inj (hrep.symm.trans hres'')
  rw [ho, ho'] at heq
  exact absurd heq (by decide)

end SneppxAlg.Npe
