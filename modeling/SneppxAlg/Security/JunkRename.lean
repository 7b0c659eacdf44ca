import Mathlib
import SneppxAlg.Security.InstSubst

/-!
# Junk and renaming

`security/obfuscation/inst_subst.cpp`: `insert_junk` and `insert_junk_extended` put instructions
between those of a block that are meant to have no effect, and `rename_registers_block` gives the names
of a block new ones. `substitute_all_blocks` does so with one block of a control-flow graph after the
other.
-/

namespace SneppxAlg.Obfuscation

open Lib.GuardedRun Lib.Expansion

/-! ## The passes -/

def chooseSubstitution : StateM Rng Bool := do
  return (← rng) % 2 = 0

def nop : Instruction := { type := .nop }

def makePush (src : Text) : Instruction := { type := .push, operand1 := src }

def makePop (dst : Text) : Instruction := { type := .pop, result := dst }

def makeAnd : Text → Text → Text → Instruction := makeBinary .and

/-- An instruction with the junk that `insert_junk` puts behind it. -/
def junkAfter (inst : Instruction) : StateM Rng (List Instruction) := do
  if ← chooseSubstitution then
    match (← rng) % 3 with
    | 0 => return [inst, nop]
    | 1 => return [inst, makeMov inst.result inst.operand1]
    | _ =>
      let dummy ← temp "junk"
      return [inst, makeXor dummy inst.operand1 inst.operand2]
  else return [inst]

def insertJunk (block : List Instruction) : StateM Rng (List Instruction) :=
  expandAll junkAfter block

/-- An instruction with the junk that `insert_junk_extended` puts behind it. -/
def junkExtendedAfter (inst : Instruction) : StateM Rng (List Instruction) := do
  if ← chooseSubstitution then
    match (← rng) % 8 with
    | 0 => return [inst, nop]
    | 1 => return [inst, makeMov inst.result inst.operand1]
    | 2 =>
      let dummy ← temp "dead"
      return [inst, makeMov dummy "0".toList]
    | 3 =>
      let t ← temp "zadd"
      return [inst, makeAdd t inst.operand1 "0".toList]
    | 4 =>
      let t ← temp "zxor"
      return [inst, makeXor t inst.operand1 "0".toList]
    | 5 => return [inst, makePush inst.operand1, makePop inst.operand1]
    | 6 =>
      let rSrc ← temp "r"
      let rDst ← temp "s"
      return [inst, makeMov rSrc inst.operand1, makeMov rDst rSrc, makeAdd rDst rDst "0".toList]
    | _ =>
      let t ← temp "opt"
      let again :=
        if inst.type = .add then makeAdd t inst.operand1 inst.operand2
        else if inst.type = .sub then makeSub t inst.operand1 inst.operand2
        else if inst.type = .xor then makeXor t inst.operand1 inst.operand2
        else makeAnd t inst.operand1 inst.operand2
      return [inst, makeMov t "0".toList, again]
  else return [inst]

def insertJunkExtended (block : List Instruction) : StateM Rng (List Instruction) :=
  expandAll junkExtendedAfter block

/-- `rename_map`, with the number that goes into the new name, and `next_temp`. -/
structure RenameState where
  map : Text → Option ℕ
  nextTemp : ℕ

/-- A name that is not in the map gets the next number. -/
def RenameState.note (s : RenameState) (name : Text) : RenameState :=
  if (s.map name).isSome then s
  else { map := Function.update s.map name (some s.nextTemp), nextTemp := s.nextTemp + 1 }

def renamesResult (s : Text) : Bool := s ≠ [] && s.head? ≠ some '_'

def renamesOperand (s : Text) : Bool := s ≠ [] && s.head? ≠ some '_' && !s.contains '['

/-- The texts of an instruction that get a new name, in the order in which they do. -/
def Instruction.renamed (i : Instruction) : List Text :=
  [i.result].filter renamesResult ++ [i.operand1, i.operand2].filter renamesOperand

/-- The texts of a block that get a new name. -/
def renamed (block : List Instruction) : List Text := block.flatMap Instruction.renamed

/-- The first loop of `rename_registers_block`. -/
def renameMap (block : List Instruction) (nextTemp : ℕ) : RenameState :=
  (renamed block).foldl RenameState.note { map := fun _ => none, nextTemp := nextTemp }

def renameText (map : Text → Option ℕ) (s : Text) : Text :=
  match map s with
  | some k => tempName "rn".toList k
  | none => s

def renameInst (map : Text → Option ℕ) (i : Instruction) : Instruction :=
  { type := i.type, operand1 := renameText map i.operand1, operand2 := renameText map i.operand2,
    result := renameText map i.result }

/-- `rename_registers_block`, with the value that `next_temp` has afterwards. -/
def renameRegistersBlock (block : List Instruction) (nextTemp : ℕ) : List Instruction × ℕ :=
  let s := renameMap block nextTemp
  (block.map (renameInst s.map), s.nextTemp)

/-- The blocks of a control-flow graph by their ids, in the order in which a loop over them goes. -/
abbrev Cfg := List (UInt64 × List Instruction)

def Cfg.block (cfg : Cfg) (id : UInt64) : List Instruction := (cfg.lookup id).getD []

/-- The loop of `substitute_all_blocks`: each block goes through `pass` and is renamed. -/
def transformBlocks (pass : List Instruction → StateM Rng (List Instruction)) :
    Cfg → ℕ → StateM Rng Cfg
  | [], _ => return []
  | (id, block) :: rest, nextTemp => do
    let (block, nextTemp) := renameRegistersBlock (← pass block) nextTemp
    return (id, block) :: (← transformBlocks pass rest nextTemp)

/-- The two junk passes of `substitute_all`. -/
def junkPass (block : List Instruction) : StateM Rng (List Instruction) := do
  insertJunkExtended (← insertJunk block)

/-- Junk and renaming as in `substitute_all_blocks`. -/
def obscureBlocks (cfg : Cfg) : StateM Rng Cfg := transformBlocks junkPass cfg 1000

/-! ## What the junk is -/

/-- An instruction that only sets a temporary, other than those of the renaming. -/
structure DeadResult (i : Instruction) : Prop where
  type : i.type ∈ [InstType.mov, .add, .sub, .xor, .and]
  result : ∃ base k, i.result = tempOf base k ∧ base.length ≤ 40 ∧ base ≠ "rn".toList

/-- Junk that only sets a temporary, and the texts that it reads. -/
structure Dead (reads : Text → Prop) (j : Instruction) : Prop extends DeadResult j where
  reads1 : reads j.operand1
  reads2 : reads j.operand2

/-- What a pass puts in the place of an instruction: `move` and `push` say when there is junk behind it
that reaches its result or the stack, and `reads` which texts the other junk reads. -/
inductive JunkSeq (inst : Instruction) (move push : Prop) (reads : Text → Prop) :
    List Instruction → Prop
  | none : JunkSeq inst move push reads [inst]
  | nop : JunkSeq inst move push reads [inst, nop]
  | move (h : move) : JunkSeq inst move push reads [inst, makeMov inst.result inst.operand1]
  | push (h : push) :
    JunkSeq inst move push reads [inst, makePush inst.operand1, makePop inst.operand1]
  | dead {js : List Instruction} (hlen : js.length ≤ 3) (h : ∀ j ∈ js, Dead reads j) :
    JunkSeq inst move push reads (inst :: js)

def OwnOperand (inst : Instruction) (s : Text) : Prop := s = inst.operand1 ∨ s = inst.operand2

def ExtendedReads (inst : Instruction) (s : Text) : Prop :=
  OwnOperand inst s ∨ s = [] ∨ s = "0".toList ∨ Temporary s

/-- The draws with which a pass of `kinds` kinds of junk moves an operand into the result. -/
def MovesBack (kinds : ℕ) (d : Rng) : Prop := d 0 % 2 = 0 ∧ d 1 % kinds = 1

/-- The draws with which `insert_junk_extended` pushes an operand and pops it. -/
def PushesPops (d : Rng) : Prop := d 0 % 2 = 0 ∧ d 1 % 8 = 5

theorem dead_binary {reads : Text → Prop} {t : InstType}
    (ht : t ∈ [InstType.mov, .add, .sub, .xor, .and]) {base : Text} (hlen : base.length ≤ 40)
    (hne : base ≠ "rn".toList) (k : ℕ) {a b : Text} (ha : reads a) (hb : reads b) :
    Dead reads (makeBinary t (tempOf base k) a b) :=
  ⟨⟨ht, base, k, rfl, hlen, hne⟩, ha, hb⟩

theorem junkSeq_junkAfter (inst : Instruction) (d : Rng) :
    JunkSeq inst (MovesBack 3 d) False (OwnOperand inst) (junkAfter inst d).1 := by
  have hkind : d 1 % 3 = 0 ∨ d 1 % 3 = 1 ∨ d 1 % 3 = 2 := by omega
  by_cases h0 : d 0 % 2 = 0
  · rcases hkind with h1 | h1 | h1 <;>
      simp only [junkAfter, chooseSubstitution, temp, bind, StateT.bind, rng, pure, StateT.pure, h0,
        Nat.zero_add, decide_true, if_true, h1]
    · exact .nop
    · exact .move ⟨h0, h1⟩
    · refine .dead (by simp) (List.forall_mem_singleton.mpr ?_)
      exact dead_binary (by decide) (by decide) (by decide) _ (Or.inl rfl) (Or.inr rfl)
  · simp only [junkAfter, chooseSubstitution, bind, StateT.bind, rng, pure, StateT.pure, h0,
      decide_false, Bool.false_eq_true, if_false]
    exact .none

theorem junkSeq_junkExtendedAfter (inst : Instruction) (d : Rng) :
    JunkSeq inst (MovesBack 8 d) (PushesPops d) (ExtendedReads inst) (junkExtendedAfter inst d).1 := by
  have hkind : d 1 % 8 = 0 ∨ d 1 % 8 = 1 ∨ d 1 % 8 = 2 ∨ d 1 % 8 = 3 ∨ d 1 % 8 = 4 ∨ d 1 % 8 = 5 ∨
      d 1 % 8 = 6 ∨ d 1 % 8 = 7 := by omega
  have hop1 : ExtendedReads inst inst.operand1 := Or.inl (Or.inl rfl)
  have hop2 : ExtendedReads inst inst.operand2 := Or.inl (Or.inr rfl)
  have hnil : ExtendedReads inst [] := Or.inr (Or.inl rfl)
  have hzero : ExtendedReads inst "0".toList := Or.inr (Or.inr (Or.inl rfl))
  have htemp : ∀ base k, ExtendedReads inst (tempOf base k) := fun base k =>
    Or.inr (Or.inr (Or.inr (temporary_tempOf base k)))
  by_cases h0 : d 0 % 2 = 0
  · rcases hkind with h1 | h1 | h1 | h1 | h1 | h1 | h1 | h1 <;>
      simp only [junkExtendedAfter, chooseSubstitution, temp, bind, StateT.bind, rng, pure, StateT.pure,
        h0, Nat.zero_add, decide_true, if_true, h1]
    · exact .nop
    · exact .move ⟨h0, h1⟩
    · refine .dead (by simp) (List.forall_mem_singleton.mpr ?_)
      exact dead_binary (by decide) (by decide) (by decide) _ hzero hnil
    · refine .dead (by simp) (List.forall_mem_singleton.mpr ?_)
      exact dead_binary (by decide) (by decide) (by decide) _ hop1 hzero
    · refine .dead (by simp) (List.forall_mem_singleton.mpr ?_)
      exact dead_binary (by decide) (by decide) (by decide) _ hop1 hzero
    · exact .push ⟨h0, h1⟩
    · refine .dead (by simp) ?_
      simp only [List.forall_mem_cons, List.not_mem_nil, false_imp_iff, implies_true, and_true]
      exact ⟨dead_binary (by decide) (by decide) (by decide) _ hop1 hnil,
        dead_binary (by decide) (by decide) (by decide) _ (htemp _ _) hnil,
        dead_binary (by decide) (by decide) (by decide) _ (htemp _ _) hzero⟩
    · refine .dead (by simp) ?_
      simp only [List.forall_mem_cons, List.not_mem_nil, false_imp_iff, implies_true, and_true]
      refine ⟨dead_binary (by decide) (by decide) (by decide) _ hzero hnil, ?_⟩
      split_ifs
      · exact dead_binary (by decide) (by decide) (by decide) _ hop1 hop2
      · exact dead_binary (by decide) (by decide) (by decide) _ hop1 hop2
      · exact dead_binary (by decide) (by decide) (by decide) _ hop1 hop2
      · exact dead_binary (by decide) (by decide) (by decide) _ hop1 hop2
  · simp only [junkExtendedAfter, chooseSubstitution, bind, StateT.bind, rng, pure, StateT.pure, h0,
      decide_false, Bool.false_eq_true, if_false]
    exact .none

theorem length_junkSeq {inst : Instruction} {move push : Prop} {reads : Text → Prop}
    {seq : List Instruction} (h : JunkSeq inst move push reads seq) : seq.length ≤ 4 := by
  cases h with
  | dead hlen _ =>
    rw [List.length_cons]
    omega
  | _ => simp

/-! ## When junk is without effect -/

variable {w : ℕ} {m n : Machine w} {inst : Instruction}

/-- In the state after an instruction: the move of its first operand into its result changes nothing. -/
def MoveHarmless (m : Machine w) (inst : Instruction) : Prop :=
  IsVar inst.result → ¬ Temporary inst.result → m.read inst.operand1 = m.vars inst.result

theorem assign_read_self (m : Machine w) (s : Text) : m.assign s (m.read s) = m := by
  unfold Machine.assign
  split_ifs with h
  · rw [Machine.read, h]
    simp [Machine.setVar, Expr.eval]
  · rfl

theorem step_dead {j : Instruction} (h : DeadResult j) (m : Machine w) :
    ∃ v, step m j = m.assign j.result v := by
  have ht := h.type
  simp only [List.mem_cons, List.not_mem_nil, or_false] at ht
  unfold step
  rcases ht with ht | ht | ht | ht | ht <;> rw [ht] <;> exact ⟨_, rfl⟩

theorem agree_run_dead {js : List Instruction} (hjs : ∀ j ∈ js, DeadResult j) (h : Agree m n) :
    Agree m (run n js) := by
  induction js generalizing n with
  | nil => exact h
  | cons j js ih =>
    obtain ⟨base, k, hresult, -⟩ := (hjs j List.mem_cons_self).result
    obtain ⟨v, hv⟩ := step_dead (hjs j List.mem_cons_self) n
    refine ih (fun i hi => hjs i (List.mem_cons_of_mem j hi)) ?_
    rw [hv, hresult]
    exact (h.symm.assign_temp (temporary_tempOf base k) v).symm

theorem junkSeq_agree {move push : Prop} {reads : Text → Prop} {seq : List Instruction}
    (h1 : Clean inst.operand1) (h2 : Clean inst.operand2) (hmn : Agree m n)
    (hseq : JunkSeq inst move push reads seq)
    (hmove : move → MoveHarmless (step m inst) inst) : Agree (step m inst) (run n seq) := by
  have hstep : Agree (step m inst) (step n inst) := hmn.step h1 h2
  cases hseq with
  | none => exact hstep
  | nop => exact hstep
  | move h =>
    rw [run_cons, run_cons, run_nil, step_makeMov]
    by_cases hvar : IsVar inst.result
    · by_cases htemp : Temporary inst.result
      · exact (hstep.symm.assign_temp htemp _).symm
      · have hvalue : (step n inst).read inst.operand1 = (step n inst).read inst.result := by
          rw [← hstep.read h1, hmove h hvar htemp, hstep.vars _ htemp, Machine.read, hvar, Expr.eval]
        rwa [hvalue, assign_read_self]
    · rwa [Machine.assign_of_not hvar]
  | push h =>
    have hpair : run (step n inst) [makePush inst.operand1, makePop inst.operand1] =
        (step n inst).assign inst.operand1 ((step n inst).read inst.operand1) := rfl
    rwa [run_cons, hpair, assign_read_self]
  | dead _ h =>
    rw [run_cons]
    exact agree_run_dead (fun j hj => (h j hj).toDeadResult) hstep

/-- The steps at which `insert_junk` is without effect. -/
def Harmless (s : Machine w × Rng) (inst : Instruction) : Prop :=
  MovesBack 3 s.2 → MoveHarmless (step s.1 inst) inst

/-- The steps at which `insert_junk_extended` is without effect. -/
def HarmlessExtended (s : Machine w × Rng) (inst : Instruction) : Prop :=
  (MovesBack 8 s.2 → MoveHarmless (step s.1 inst) inst) ∧ (PushesPops s.2 → '[' ∉ inst.operand1)

/-! ## The instructions after the junk passes -/

variable {block : List Instruction}

def operandsOf (block : List Instruction) : List Text :=
  block.flatMap fun i => [i.operand1, i.operand2]

/-- An operand of the block, or none. -/
def Reads (block : List Instruction) (s : Text) : Prop := s = [] ∨ s ∈ operandsOf block

/-- After `insert_junk`. -/
structure First (block : List Instruction) (i : Instruction) : Prop where
  reads1 : Reads block i.operand1
  reads2 : Reads block i.operand2
  result : DeadResult i ∨ i.result = [] ∨ i.result ∈ block.map Instruction.result

/-- An instruction that reads operands of the block and sets one of its names. -/
structure Kept (block : List Instruction) (i : Instruction) : Prop where
  reads1 : Reads block i.operand1
  reads2 : Reads block i.operand2
  result : i.result = [] ∨ i.result ∈ block.map Instruction.result ∨
    i.result ∈ operandsOf block ∧ '[' ∉ i.result

def JunkReads (block : List Instruction) (s : Text) : Prop :=
  Reads block s ∨ s = "0".toList ∨ Temporary s

theorem first_of_mem (h : inst ∈ block) : First block inst where
  reads1 := Or.inr (List.mem_flatMap.mpr ⟨inst, h, by simp⟩)
  reads2 := Or.inr (List.mem_flatMap.mpr ⟨inst, h, by simp⟩)
  result := Or.inr (Or.inr (List.mem_map_of_mem h))

theorem first_of_junkSeq {move : Prop} {seq : List Instruction} (h : inst ∈ block)
    (hseq : JunkSeq inst move False (OwnOperand inst) seq) : ∀ i ∈ seq, First block i := by
  have hfirst := first_of_mem h
  cases hseq with
  | none => simpa using hfirst
  | nop =>
    simp only [List.forall_mem_cons, List.not_mem_nil, false_imp_iff, implies_true, and_true]
    exact ⟨hfirst, Or.inl rfl, Or.inl rfl, Or.inr (Or.inl rfl)⟩
  | move _ =>
    simp only [List.forall_mem_cons, List.not_mem_nil, false_imp_iff, implies_true, and_true]
    exact ⟨hfirst, hfirst.reads1, Or.inl rfl, Or.inr (Or.inr (List.mem_map.mpr ⟨inst, h, rfl⟩))⟩
  | push hfalse => exact hfalse.elim
  | dead _ hdead =>
    have hown : ∀ s, OwnOperand inst s → Reads block s := by
      rintro s (rfl | rfl)
      · exact hfirst.reads1
      · exact hfirst.reads2
    refine List.forall_mem_cons.mpr ⟨hfirst, fun j hj => ?_⟩
    exact ⟨hown _ (hdead j hj).reads1, hown _ (hdead j hj).reads2, Or.inl (hdead j hj).toDeadResult⟩

theorem First.kept_or_dead (h : First block inst) : Kept block inst ∨ Dead (JunkReads block) inst := by
  rcases h.result with hdead | hresult
  · exact Or.inr ⟨hdead, Or.inl h.reads1, Or.inl h.reads2⟩
  · exact Or.inl ⟨h.reads1, h.reads2, hresult.imp_right Or.inl⟩

theorem kept_or_dead_of_junkSeq {move push : Prop} {seq : List Instruction} (h : First block inst)
    (hseq : JunkSeq inst move push (ExtendedReads inst) seq) (hpush : push → '[' ∉ inst.operand1) :
    ∀ i ∈ seq, Kept block i ∨ Dead (JunkReads block) i := by
  have hself := h.kept_or_dead
  cases hseq with
  | none => simpa using hself
  | nop =>
    simp only [List.forall_mem_cons, List.not_mem_nil, false_imp_iff, implies_true, and_true]
    exact ⟨hself, Or.inl ⟨Or.inl rfl, Or.inl rfl, Or.inl rfl⟩⟩
  | move _ =>
    simp only [List.forall_mem_cons, List.not_mem_nil, false_imp_iff, implies_true, and_true]
    refine ⟨hself, First.kept_or_dead ⟨h.reads1, Or.inl rfl, ?_⟩⟩
    exact h.result.imp_left fun hdead => ⟨by simp [makeMov], hdead.result⟩
  | push hp =>
    simp only [List.forall_mem_cons, List.not_mem_nil, false_imp_iff, implies_true, and_true]
    refine ⟨hself, Or.inl ⟨h.reads1, Or.inl rfl, Or.inl rfl⟩, Or.inl ⟨Or.inl rfl, Or.inl rfl, ?_⟩⟩
    exact h.reads1.imp_right fun hmem => Or.inr ⟨hmem, hpush hp⟩
  | dead _ hdead =>
    have hreads : ∀ s, ExtendedReads inst s → JunkReads block s := by
      rintro s ((rfl | rfl) | rfl | hs)
      · exact Or.inl h.reads1
      · exact Or.inl h.reads2
      · exact Or.inl (Or.inl rfl)
      · exact Or.inr hs
    refine List.forall_mem_cons.mpr ⟨hself, fun j hj => Or.inr ?_⟩
    exact ⟨(hdead j hj).toDeadResult, hreads _ (hdead j hj).reads1, hreads _ (hdead j hj).reads2⟩

theorem mem_renamed_of_result (h : inst.result ∈ block.map Instruction.result)
    (hr : renamesResult inst.result) : inst.result ∈ renamed block := by
  obtain ⟨i, hi, heq⟩ := List.mem_map.mp h
  refine List.mem_flatMap.mpr ⟨i, hi, ?_⟩
  simp [Instruction.renamed, heq, hr]

theorem mem_renamed_of_operand {s : Text} (h : s ∈ operandsOf block) (hs : renamesOperand s) :
    s ∈ renamed block := by
  obtain ⟨i, hi, hmem⟩ := List.mem_flatMap.mp h
  refine List.mem_flatMap.mpr ⟨i, hi, ?_⟩
  simp only [Instruction.renamed, List.mem_append, List.mem_filter]
  exact Or.inr ⟨hmem, hs⟩

theorem not_renamesResult_of_temporary {s : Text} (h : Temporary s) : ¬ renamesResult s := by
  obtain ⟨rest, rfl⟩ := h
  simp [renamesResult]

theorem renamesResult_of_renamesOperand {s : Text} (h : renamesOperand s) : renamesResult s := by
  simp only [renamesOperand, Bool.and_eq_true] at h
  simpa [renamesResult] using h.1

/-- The junk of the passes adds at most the constant zero to the texts that are renamed. -/
theorem renamed_of_kept_or_dead {i : Instruction} (h : Kept block i ∨ Dead (JunkReads block) i) :
    ∀ s ∈ i.renamed, s ∈ renamed block ∨ s = "0".toList := by
  have hreads : ∀ s, Reads block s → renamesOperand s → s ∈ renamed block := by
    rintro s (rfl | hmem) hs
    · simp [renamesOperand] at hs
    · exact mem_renamed_of_operand hmem hs
  intro s hs
  simp only [Instruction.renamed, List.mem_append, List.mem_filter, List.mem_cons, List.not_mem_nil,
    or_false] at hs
  rcases h with h | h
  · rcases hs with ⟨rfl, hs⟩ | ⟨rfl | rfl, hs⟩
    · rcases h.result with hnil | hresult | ⟨hmem, hbracket⟩
      · simp [renamesResult, hnil] at hs
      · exact Or.inl (mem_renamed_of_result hresult hs)
      · refine Or.inl (mem_renamed_of_operand hmem ?_)
        simpa [renamesOperand, renamesResult, hbracket] using hs
    · exact Or.inl (hreads _ h.reads1 hs)
    · exact Or.inl (hreads _ h.reads2 hs)
  · have hjunk : ∀ s, JunkReads block s → renamesOperand s → s ∈ renamed block ∨ s = "0".toList := by
      rintro s (hr | rfl | ht) hs
      · exact Or.inl (hreads s hr hs)
      · exact Or.inr rfl
      · exact absurd (renamesResult_of_renamesOperand hs) (not_renamesResult_of_temporary ht)
    rcases hs with ⟨rfl, hs⟩ | ⟨rfl | rfl, hs⟩
    · obtain ⟨base, k, hresult, -⟩ := h.result
      rw [hresult] at hs
      exact absurd hs (not_renamesResult_of_temporary (temporary_tempOf base k))
    · exact hjunk _ h.reads1 hs
    · exact hjunk _ h.reads2 hs

/-! ## The map of a block -/

structure RenameInv (first : ℕ) (s : RenameState) : Prop where
  le : first ≤ s.nextTemp
  range : ∀ x k, s.map x = some k → first ≤ k ∧ k < s.nextTemp
  inj : ∀ x y k, s.map x = some k → s.map y = some k → x = y

theorem RenameInv.note {first : ℕ} {s : RenameState} (h : RenameInv first s) (name : Text) :
    RenameInv first (s.note name) := by
  unfold RenameState.note
  split_ifs
  · exact h
  · have hnew : ∀ x, s.map x ≠ some s.nextTemp := fun x hx => by
      have := (h.range x _ hx).2
      omega
    refine ⟨by have := h.le; simp; omega, ?_, ?_⟩
    · intro x k hx
      by_cases heq : x = name
      · subst heq
        have := h.le
        simp only [Function.update_self, Option.some.injEq] at hx
        simp
        omega
      · simp only [Function.update_of_ne heq] at hx
        have := h.range x k hx
        simp
        omega
    · intro x y k hx hy
      by_cases hxn : x = name <;> by_cases hyn : y = name
      · rw [hxn, hyn]
      · subst hxn
        simp only [Function.update_self, Option.some.injEq, Function.update_of_ne hyn] at hx hy
        exact absurd hy (hx ▸ hnew y)
      · subst hyn
        simp only [Function.update_self, Option.some.injEq, Function.update_of_ne hxn] at hx hy
        exact absurd hx (hy ▸ hnew x)
      · simp only [Function.update_of_ne hxn] at hx
        simp only [Function.update_of_ne hyn] at hy
        exact h.inj x y k hx hy

theorem note_isSome (s : RenameState) (name x : Text) :
    ((s.note name).map x).isSome ↔ (s.map x).isSome ∨ x = name := by
  unfold RenameState.note
  split_ifs with h
  · constructor
    · exact Or.inl
    · rintro (hx | rfl)
      · exact hx
      · exact h
  · by_cases heq : x = name
    · simp [heq]
    · simp [heq]

theorem nextTemp_note_le (s : RenameState) (name : Text) : (s.note name).nextTemp ≤ s.nextTemp + 1 := by
  unfold RenameState.note
  split_ifs <;> simp

theorem foldl_note (first : ℕ) (xs : List Text) {s : RenameState} (h : RenameInv first s) :
    RenameInv first (xs.foldl RenameState.note s) ∧
      (∀ x, ((xs.foldl RenameState.note s).map x).isSome ↔ (s.map x).isSome ∨ x ∈ xs) ∧
      (xs.foldl RenameState.note s).nextTemp ≤ s.nextTemp + xs.length := by
  induction xs generalizing s with
  | nil => simpa using h
  | cons y xs ih =>
    obtain ⟨hinv, hkeys, hnext⟩ := ih (h.note y)
    refine ⟨hinv, fun x => ?_, ?_⟩
    · rw [List.foldl_cons, hkeys x, note_isSome, List.mem_cons, or_assoc]
    · have := nextTemp_note_le s y
      simp only [List.foldl_cons, List.length_cons]
      omega

theorem start_inv (first : ℕ) : RenameInv first { map := fun _ => none, nextTemp := first } :=
  ⟨le_refl _, by simp, by simp⟩

theorem renameMap_inv (block : List Instruction) (nextTemp : ℕ) :
    RenameInv nextTemp (renameMap block nextTemp) :=
  (foldl_note nextTemp _ (start_inv nextTemp)).1

theorem renameMap_isSome {nextTemp : ℕ} {x : Text} :
    ((renameMap block nextTemp).map x).isSome ↔ x ∈ renamed block := by
  simpa [renameMap] using (foldl_note nextTemp (renamed block) (start_inv nextTemp)).2.1 x

theorem length_renamed_le (block : List Instruction) : (renamed block).length ≤ 3 * block.length := by
  induction block with
  | nil => simp [renamed]
  | cons i block ih =>
    have hresult := List.length_filter_le renamesResult [i.result]
    have hoperands := List.length_filter_le renamesOperand [i.operand1, i.operand2]
    simp only [renamed, List.flatMap_cons, Instruction.renamed, List.length_append, List.length_cons,
      List.length_nil] at ih hresult hoperands ⊢
    omega

theorem nextTemp_renameMap_le (block : List Instruction) (nextTemp : ℕ) :
    (renameMap block nextTemp).nextTemp ≤ nextTemp + 3 * block.length := by
  have hlen := length_renamed_le block
  have hnext : (renameMap block nextTemp).nextTemp ≤ nextTemp + (renamed block).length :=
    (foldl_note nextTemp (renamed block) (start_inv nextTemp)).2.2
  omega

/-! ## Paths -/

/-- Executes the blocks of a path one after the other. -/
def Cfg.runPath (cfg : Cfg) (m : Machine w) (path : List UInt64) : Machine w :=
  path.foldl (fun m id => run m (cfg.block id)) m

end SneppxAlg.Obfuscation
