import SneppxAlg.Npe.PassesCorrect

/-!
# `compiler.c`: specialisation

`jit_specialize` takes a `BRANCH` with a negative immediate for the end of a loop that starts as
many instructions before it: it appends the body as often as the batch says and drops the branch.
For the virtual machine the immediate is the index of the target, and a negative one lies past the
end of every program, so that the machine stops there. The instructions before the first such branch
are copied one to one, when the shapes are those that they carry. So a run that stays before it is
the same run (`jitSpecialize_correct`).
-/

namespace SneppxAlg.Npe

variable {F : Type}

/-! ## The pass -/

/-- `SNEPPX_npe_program_append`: an instruction that finds no room is dropped. -/
def append (maxInstructions : ℕ) (code : List Instr) (inst : Instr) : List Instr :=
  if maxInstructions ≤ code.length then code else code ++ [inst]

/-- The extents that are set are replaced. -/
def withShape (seqLen dim : ℕ) (inst : Instr) : Instr :=
  { inst with
    shapeA0 := if 0 < inst.shapeA0.toInt then BitVec.ofNat 32 seqLen else inst.shapeA0
    shapeA1 := if 0 < inst.shapeA1.toInt then BitVec.ofNat 32 dim else inst.shapeA1 }

/-- A branch that is taken for the end of a loop. -/
def isBack (inst : Instr) : Bool := inst.opcode = .branch && decide (inst.immediate.toInt < 0)

/-- The instructions from `body_start` to `body_end`. -/
def loopBody (code : List Instr) (i : ℕ) (inst : Instr) : List Instr :=
  (code.take i).drop ((i + toSize inst.immediate) % 2 ^ 64)

/-- One round of the loop of `jit_specialize`. -/
def specializeStep (maxInstructions batch seqLen dim : ℕ) (code spec : List Instr)
    (p : Instr × ℕ) : List Instr :=
  if isBack p.1 then
    (List.replicate batch (loopBody code p.2 p.1)).flatten.foldl (append maxInstructions) spec
  else append maxInstructions spec (withShape seqLen dim p.1)

/-- `SNEPPX_npe_jit_specialize`. -/
def jitSpecialize (maxInstructions batch seqLen dim : ℕ) (code : List Instr) : List Instr :=
  code.zipIdx.foldl (specializeStep maxInstructions batch seqLen dim code) []

/-- The instructions already carry the shapes. -/
def Carries (seqLen dim : ℕ) (code : List Instr) : Prop :=
  ∀ inst ∈ code, withShape seqLen dim inst = inst

instance (seqLen dim : ℕ) (code : List Instr) : Decidable (Carries seqLen dim code) := by
  unfold Carries; infer_instance

/-! ## The instructions before the first backward branch -/

/-- The instructions before the first backward branch. -/
def beforeBack (code : List Instr) : List Instr := code.takeWhile fun inst => !isBack inst

theorem beforeBack_isPrefix (code : List Instr) : beforeBack code <+: code :=
  List.takeWhile_prefix _

section Pass

variable {maxInstructions batch seqLen dim : ℕ} {code : List Instr}

theorem prefix_append (spec : List Instr) (inst : Instr) :
    spec <+: append maxInstructions spec inst := by
  rw [append]
  split
  · exact List.prefix_rfl
  · exact List.prefix_append _ _

theorem prefix_foldl {α : Type} {f : List Instr → α → List Instr} (h : ∀ spec a, spec <+: f spec a)
    (l : List α) (spec : List Instr) : spec <+: l.foldl f spec := by
  induction l generalizing spec with
  | nil => exact List.prefix_rfl
  | cons a l ih => exact (h spec a).trans (ih _)

theorem prefix_specializeStep (spec : List Instr) (p : Instr × ℕ) :
    spec <+: specializeStep maxInstructions batch seqLen dim code spec p := by
  rw [specializeStep]
  split
  · exact prefix_foldl prefix_append _ _
  · exact prefix_append _ _

/-- Instructions that are no backward branches are copied. -/
theorem foldl_specializeStep {l : List Instr} (hback : ∀ inst ∈ l, isBack inst = false)
    (hshape : Carries seqLen dim l) (spec : List Instr) (n : ℕ)
    (hmax : spec.length + l.length ≤ maxInstructions) :
    (l.zipIdx n).foldl (specializeStep maxInstructions batch seqLen dim code) spec = spec ++ l := by
  induction l generalizing spec n with
  | nil => simp
  | cons inst l ih =>
    rw [List.length_cons] at hmax
    have hstep : specializeStep maxInstructions batch seqLen dim code spec (inst, n) =
        spec ++ [inst] := by
      rw [specializeStep, hback inst List.mem_cons_self, hshape inst List.mem_cons_self, append,
        if_neg (by simp), if_neg (by omega)]
    rw [List.zipIdx_cons, List.foldl_cons, hstep,
      ih (fun i hi => hback i (List.mem_cons_of_mem _ hi))
        (fun i hi => hshape i (List.mem_cons_of_mem _ hi)) _ _ (by simp; omega),
      List.append_assoc, List.singleton_append]

/-- **The specialised program starts with the instructions before the first backward branch.** -/
theorem beforeBack_prefix_jitSpecialize (hmax : code.length ≤ maxInstructions)
    (hshape : Carries seqLen dim code) :
    beforeBack code <+: jitSpecialize maxInstructions batch seqLen dim code := by
  obtain ⟨rest, hrest⟩ := beforeBack_isPrefix code
  have hback : ∀ inst ∈ beforeBack code, isBack inst = false := fun inst hi => by
    simpa using List.mem_takeWhile_imp hi
  have hlen := (beforeBack_isPrefix code).length_le
  have hcopy : ((beforeBack code).zipIdx 0).foldl
      (specializeStep maxInstructions batch seqLen dim code) [] = [] ++ beforeBack code :=
    foldl_specializeStep hback (fun inst hi => hshape inst ((beforeBack_isPrefix code).subset hi))
      [] 0 (by simp; omega)
  have hzip : code.zipIdx = (beforeBack code).zipIdx ++ rest.zipIdx (beforeBack code).length := by
    conv_lhs => rw [← hrest]
    rw [List.zipIdx_append, Nat.zero_add]
  rw [jitSpecialize, hzip, List.foldl_append, hcopy, List.nil_append]
  exact prefix_foldl prefix_specializeStep _ _

/-- A program without backward branches is copied. -/
theorem jitSpecialize_eq (hmax : code.length ≤ maxInstructions) (hshape : Carries seqLen dim code)
    (hback : ∀ inst ∈ code, isBack inst = false) :
    jitSpecialize maxInstructions batch seqLen dim code = code :=
  (foldl_specializeStep hback hshape [] 0 (by simpa using hmax)).trans (List.nil_append _)

end Pass

/-! ## Runs before the first backward branch -/

section Runs

variable (env : Env F) (code : List Instr)

/-- All states of the next `n` steps stand before the first backward branch. -/
def Before : ℕ → State F → Prop
  | 0, _ => True
  | n + 1, s => s.pc < (beforeBack code).length ∧
      ∀ s' stop, step env code s = some (s', stop) →
        s'.pc < (beforeBack code).length ∧ (stop = false → Before n s')

/-- The program has no backward branch, or its run never comes to one nor past it. -/
def ForwardRun (stepLimit : ℕ) (regs : Fin 16 → Reg F) (mem : List F) (input : Tensor F) : Prop :=
  (∀ inst ∈ code, isBack inst = false) ∨
    ∀ s, start env regs mem input = some s → Before env code stepLimit s

variable {env code} {code' : List Instr}

/-- A step before the first backward branch is the step of every program that starts the same. -/
theorem step_eq_of_prefix (h : beforeBack code <+: code') {s : State F}
    (hpc : s.pc < (beforeBack code).length)
    (hnext : ∀ s' stop, step env code s = some (s', stop) → s'.pc < (beforeBack code).length) :
    step env code' s = step env code s := by
  have hget : code'[s.pc]? = code[s.pc]? := by
    rw [(List.prefix_iff_getElem?.mp h s.pc hpc),
      (List.prefix_iff_getElem?.mp (beforeBack_isPrefix code) s.pc hpc)]
  have hlen := h.length_le
  have hlen' := (beforeBack_isPrefix code).length_le
  have hinst : code[s.pc]? = some code[s.pc] := List.getElem?_eq_getElem (by omega)
  simp only [step, hget, hinst] at hnext ⊢
  cases hx : exec env s code[s.pc] with
  | none => rfl
  | some r =>
    obtain ⟨s', stop⟩ := r
    have hpc' : s'.pc < (beforeBack code).length := hnext s' _ (by rw [hx]; rfl)
    have hin : ¬ code.length ≤ s'.pc := by omega
    have hin' : ¬ code'.length ≤ s'.pc := by omega
    simp only [Option.map_some, hin, hin']

theorem loop_eq_of_prefix (h : beforeBack code <+: code') (n : ℕ) :
    ∀ s, Before env code n s → loop env code' n s = loop env code n s := by
  induction n with
  | zero => exact fun _ _ => rfl
  | succ n ih =>
    intro s hs
    obtain ⟨hpc, hnext⟩ := hs
    rw [loop, loop, step_eq_of_prefix h hpc fun s' stop hs' => (hnext s' stop hs').1]
    cases hstep : step env code s with
    | none => rfl
    | some r =>
      obtain ⟨s', stop⟩ := r
      cases stop with
      | true => rfl
      | false => exact ih s' ((hnext s' false hstep).2 rfl)

end Runs

/-! ## When the pass preserves a run -/

section Results

variable (env : Env F) (code : List Instr) (stepLimit : ℕ) (regs : Fin 16 → Reg F) (mem : List F)
  (input : Tensor F) {maxInstructions batch seqLen dim : ℕ}

/-- **Specialisation to the shapes that a program carries preserves a run** that never comes to a
backward branch nor past one: output, status, memory and registers are the same, and so is what is
undefined. -/
theorem jitSpecialize_correct (hmax : code.length ≤ maxInstructions)
    (hshape : Carries seqLen dim code) (h : ForwardRun env code stepLimit regs mem input) :
    run env (jitSpecialize maxInstructions batch seqLen dim code) stepLimit regs mem input =
      run env code stepLimit regs mem input := by
  rcases h with hback | h
  · rw [jitSpecialize_eq hmax hshape hback]
  · have hpre : beforeBack code <+: jitSpecialize maxInstructions batch seqLen dim code :=
      beforeBack_prefix_jitSpecialize hmax hshape
    simp only [run, Option.bind_eq_bind]
    cases hs : start env regs mem input with
    | none => rfl
    | some s => simp only [Option.bind_some, loop_eq_of_prefix hpre stepLimit s (h s hs)]

end Results

/-- A branch back by `n` instructions on register 0. -/
def back (n : BitVec 32) : Instr := ⟨.branch, 0, 0, 0, -n, 0, 0⟩

/-- `RELU r1, r0; HALT`, and a loop behind the `HALT`. -/
theorem jitSpecialize_correct_halt :
    run smallInts (jitSpecialize 32 4 1 1 [simple .relu 1 0 0, simple .halt 0 0 0, back 2]) 10
        (fun _ => .null) (List.replicate 65536 0) ⟨[1], 1, [1]⟩ =
      run smallInts [simple .relu 1 0 0, simple .halt 0 0 0, back 2] 10 (fun _ => .null)
        (List.replicate 65536 0) ⟨[1], 1, [1]⟩ := by
  refine jitSpecialize_correct smallInts _ 10 _ _ _ (by decide) ?_ (.inr ?_)
  · decide
  · intro s hs
    obtain rfl := Option.some.inj hs
    refine ⟨by decide, fun s' stop hs => ?_⟩
    obtain ⟨rfl, rfl⟩ := Prod.mk.inj (Option.some.inj hs)
    refine ⟨by decide, fun _ => ⟨by decide, fun s' stop hs => ?_⟩⟩
    obtain ⟨rfl, rfl⟩ := Prod.mk.inj (Option.some.inj hs)
    exact ⟨by decide, fun h => by cases h⟩

/-- `LOAD r1, [0]; ADD r2, r1, r0; STORE r2, [0]; BRANCH r0, -3; HALT`: the virtual machine adds the
input once and stops at the branch, the specialised program adds it once more for each element of
the batch. -/
theorem jitSpecialize_not_correct : ¬ ∀ (maxInstructions batch seqLen dim stepLimit : ℕ)
    (code : List Instr) (regs : Fin 16 → Reg ℤ) (mem : List ℤ) (input : Tensor ℤ),
    code.length ≤ maxInstructions → Carries seqLen dim code →
      SameResult (run smallInts code stepLimit regs mem input)
        (run smallInts (jitSpecialize maxInstructions batch seqLen dim code) stepLimit regs mem
          input) := by
  intro h
  have hrun : ∀ tail : List ℤ, (run smallInts
      [loadCell 1 0, simple .add 2 1 0, simple .store 0 2 0, back 3, simple .halt 0 0 0] 10
      (fun _ => .null) (0 :: tail) ⟨[1], 1, [1]⟩).map Result.output =
        some (some ⟨[1], 1, [1]⟩) := by
    intro tail
    with_unfolding_all rfl
  have hrun' : ∀ tail : List ℤ, (run smallInts (jitSpecialize 32 2 1 1
      [loadCell 1 0, simple .add 2 1 0, simple .store 0 2 0, back 3, simple .halt 0 0 0]) 10
      (fun _ => .null) (0 :: tail) ⟨[1], 1, [1]⟩).map Result.output =
        some (some ⟨[1], 1, [3]⟩) := by
    intro tail
    with_unfolding_all rfl
  refine not_sameResult (hrun _) (hrun' (List.replicate 65535 0)) (by decide)
    (h 32 2 1 1 10 _ _ _ _ (by decide) (by decide))

end SneppxAlg.Npe
