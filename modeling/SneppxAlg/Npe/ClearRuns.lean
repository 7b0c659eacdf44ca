import SneppxAlg.Npe.Simulation

/-!
# Runs of a program and of its rewriting

A branch names the index of its target in the old program, and no pass moves it. `Clear` says of a
run of the old program that it executes no replaced instruction, never reads what is stale, never
branches to an instruction that has moved, and does not select a stale register for the output.
Such a run is followed by the new program to the same end.
-/

namespace SneppxAlg.Npe

variable {F : Type}

/-! ## Clear runs -/

section Runs

variable (env : Env F) (φ : List Fate) (code : List Instr)

/-- The register that is selected for the output lies above all stale ones. -/
def Selects (σ : Stale) (s : State F) : Prop :=
  σ.regs = ∅ ∨ ∃ r, lastReg s.regs = some r ∧ ∀ d ∈ σ.regs, d < r

/-- The next step reads nothing stale and does not branch to an instruction that has moved; an
instruction that was replaced is not executed. -/
def ClearStep (σ : Stale) (s : State F) (inst : Instr) : Prop :=
  match φ[s.pc]? with
  | some .keep =>
    Fresh σ (reads s inst) ∧ Disjoint (loaded s inst) σ.cells ∧
      (taken env s inst → toSize inst.immediate < code.length →
        place φ (toSize inst.immediate) = toSize inst.immediate)
  | some .drop => True
  | _ => False

def Stale.after (σ : Stale) (s : State F) (inst : Instr) : Stale :=
  match φ[s.pc]? with
  | some .keep => σ.keep s inst
  | some .drop => σ.drop s inst
  | _ => σ

/-- The run of the old program from `s` with `n` steps left is not affected by what is stale or by
what the pass changed. Where the steps run out, none was saved, and the new program does not end
here. -/
def Clear : ℕ → Stale → State F → Prop
  | 0, σ, s => σ.skipped = 0 ∧ place φ s.pc < place φ code.length ∧ Selects σ s
  | n + 1, σ, s =>
    match code[s.pc]? with
    | none => Selects σ s
    | some inst => ClearStep env φ code σ s inst ∧
      match step env code s with
      | none => True
      | some (s', true) => Selects (σ.after φ s inst) s'
      | some (s', false) => Clear n (σ.after φ s inst) s'

variable {env φ code}

/-! ### Rules -/

theorem Clear.keep_step {n : ℕ} {σ : Stale} {s s' : State F} {inst : Instr}
    (hc : code[s.pc]? = some inst) (hf : φ[s.pc]? = some .keep) (hfresh : Fresh σ (reads s inst))
    (hcells : Disjoint (loaded s inst) σ.cells) (hb : inst.opcode ≠ .branch)
    (hs : step env code s = some (s', false)) (h : Clear env φ code n (σ.keep s inst) s') :
    Clear env φ code (n + 1) σ s := by
  simp only [Clear, hc, ClearStep, hf, hs, Stale.after]
  exact ⟨⟨hfresh, hcells, fun ht => absurd ht.1 hb⟩, h⟩

theorem Clear.drop_step {n : ℕ} {σ : Stale} {s s' : State F} {inst : Instr}
    (hc : code[s.pc]? = some inst) (hf : φ[s.pc]? = some .drop)
    (hs : step env code s = some (s', false)) (h : Clear env φ code n (σ.drop s inst) s') :
    Clear env φ code (n + 1) σ s := by
  simp only [Clear, hc, ClearStep, hf, hs, Stale.after]
  exact ⟨trivial, h⟩

theorem Clear.halt_step {n : ℕ} {σ : Stale} {s : State F} {inst : Instr}
    (hc : code[s.pc]? = some inst) (hf : φ[s.pc]? = some .keep) (hh : inst.opcode = .halt)
    (hsel : Selects σ s) : Clear env φ code (n + 1) σ s := by
  have hx : exec env s inst = some (s, true) := by simp only [exec, hh]
  have ht : touched s inst = none := by simp [touched, hh, Opcode.form]
  have hst : stored s inst = ∅ := stored_of_form (by simp [hh, Opcode.form])
  have hσ : σ.keep s inst = σ := by simp [Stale.keep, ht, hst]
  have hr : reads s inst = [] := by simp [reads, Instr.sources, hh, Opcode.form]
  simp only [Clear, hc, ClearStep, hf, step, hx, Option.map_some, Bool.true_or, Stale.after, hσ, hr]
  refine ⟨⟨?_, ?_, ?_⟩, hsel⟩
  · intro x hx
    cases hx
  · simp [loaded, hh]
  · intro ht
    exact absurd ht.1 (by simp [hh])

/-! ### Simulation -/

theorem Stale.after_cells_subset (σ : Stale) (s : State F) (inst : Instr) :
    (σ.after φ s inst).cells ⊆ σ.cells := by
  unfold Stale.after
  split
  · exact Set.sdiff_subset
  · exact subset_rfl
  · exact subset_rfl

theorem Stale.after_regs_subset (hφ : .drop ∉ φ) (σ : Stale) (s : State F) (inst : Instr) :
    (σ.after φ s inst).regs ⊆ σ.regs := by
  unfold Stale.after
  split
  · exact Finset.sdiff_subset
  · next h => exact absurd (List.mem_of_getElem? h) hφ
  · exact subset_rfl

theorem place_of_length_le {i : ℕ} (h : φ.length ≤ i) : place φ i = place φ φ.length := by
  rw [place, place, List.take_of_length_le h, List.take_length]

theorem loop_at_end {s : State F} (h : code.length ≤ s.pc) (n : ℕ) :
    loop env code (n + 1) s = some (s, false) := by
  rw [loop, step, List.getElem?_eq_none h]

theorem loop_succ {s s' : State F} {inst : Instr} {stop : Bool} (hc : code[s.pc]? = some inst)
    (hx : exec env s inst = some (s', stop)) (n : ℕ) :
    loop env code (n + 1) s =
      if (stop || decide (code.length ≤ s'.pc)) = true then some (s', false)
      else loop env code n s' := by
  rw [loop, step, hc]
  simp only [hx, Option.map_some]
  cases stop || decide (code.length ≤ s'.pc) <;> rfl

/-- After a kept instruction the new machine stands at the image of the old one's instruction. -/
theorem Moves.place_eq {inst : Instr} {s t s' t' : State F} {stop : Bool}
    (h : Moves env inst s t s' t' stop) (hf : φ[s.pc]? = some .keep) (hpc : t.pc = place φ s.pc)
    (hb : taken env s inst → toSize inst.immediate < code.length →
      place φ (toSize inst.immediate) = toSize inst.immediate)
    (hgo : stop = false) (hlt : s'.pc < code.length) : t'.pc = place φ s'.pc := by
  cases h with
  | stop => cases hgo
  | next hs ht => rw [ht, hs, hpc, place_succ hf, Fate.size]
  | jump htk hs ht => rw [ht, hs, hb htk (hs ▸ hlt)]

/-- Where the old machine leaves its program, so does the new one. -/
theorem Moves.end_of_end {code' : List Instr} (hal : Aligned φ code code') {inst : Instr}
    {s t s' t' : State F} (h : Moves env inst s t s' t' false) (hf : φ[s.pc]? = some .keep)
    (hpc : t.pc = place φ s.pc) (hge : code.length ≤ s'.pc) : code'.length ≤ t'.pc := by
  cases h with
  | next hs ht =>
    have hp : t'.pc = place φ s'.pc := by rw [ht, hs, hpc, place_succ hf, Fate.size]
    rw [hp, place_of_length_le (hal.length_eq ▸ hge), hal.length_eq, hal.place_length]
  | jump _ hs ht => rw [ht, ← hs]; exact hal.length_le.trans hge

/-- **A clear run of the old program is followed by the new one.** -/
theorem loop_clear {code' : List Instr} (hal : Aligned φ code code') :
    ∀ (n : ℕ) (σ : Stale) (s t sf : State F) (e : Bool),
      Clear env φ code n σ s → Agree σ s t → Intact σ t → t.pc = place φ s.pc →
      loop env code n s = some (sf, e) →
      ∃ tf σf, loop env code' (n + σ.skipped) t = some (tf, e) ∧ Agree σf sf tf ∧ Selects σf sf ∧
        σf.cells ⊆ σ.cells ∧ (.drop ∉ φ → σf.regs ⊆ σ.regs) := by
  intro n
  induction n with
  | zero =>
    intro σ s t sf e hcl ha _ _ hl
    obtain ⟨hsk, -, hsel⟩ := hcl
    obtain ⟨rfl, rfl⟩ := Prod.mk.inj (Option.some.inj hl)
    exact ⟨t, σ, by rw [hsk]; rfl, ha, hsel, subset_rfl, fun _ => subset_rfl⟩
  | succ n ih =>
    intro σ s t sf e hcl ha hi hpc hl
    have hlen := hal.place_length
    cases hc : code[s.pc]? with
    | none =>
      have hge : code.length ≤ s.pc := List.getElem?_eq_none_iff.mp hc
      rw [loop_at_end hge] at hl
      obtain ⟨rfl, rfl⟩ := Prod.mk.inj (Option.some.inj hl)
      have ht : code'.length ≤ t.pc := by
        rw [hpc, place_of_length_le (hal.length_eq ▸ hge), hal.length_eq, hlen]
      refine ⟨t, σ, ?_, ha, ?_, subset_rfl, fun _ => subset_rfl⟩
      · rw [Nat.add_right_comm]
        exact loop_at_end ht _
      · simpa [Clear, hc] using hcl
    | some inst =>
      simp only [Clear, hc] at hcl
      obtain ⟨hstep, hrest⟩ := hcl
      have hlt : s.pc < code.length := (List.getElem?_eq_some_iff.mp hc).1
      cases hx : exec env s inst with
      | none => simp [loop, step, hc, hx] at hl
      | some r =>
        obtain ⟨s', stop⟩ := r
        rw [loop_succ hc hx] at hl
        simp only [step, hc, hx, Option.map_some] at hrest
        cases hf : φ[s.pc]? with
        | none => simp [ClearStep, hf] at hstep
        | some f =>
          cases f with
          | swap | gone => simp [ClearStep, hf] at hstep
          | keep =>
            simp only [ClearStep, hf] at hstep
            obtain ⟨hfresh, hcells, hbranch⟩ := hstep
            have hσ : σ.after φ s inst = σ.keep s inst := by simp [Stale.after, hf]
            have hc' : code'[t.pc]? = some inst := by rw [hpc, hal.get_keep hf, hc]
            obtain ⟨t', hx', hk⟩ := exec_keep ha hi hfresh hcells hx
            rw [Nat.add_right_comm, loop_succ hc' hx']
            rw [hσ] at hrest
            by_cases hend : (stop || decide (code.length ≤ s'.pc)) = true
            · rw [if_pos hend] at hl
              obtain ⟨rfl, rfl⟩ := Prod.mk.inj (Option.some.inj hl)
              have hend' : (stop || decide (code'.length ≤ t'.pc)) = true := by
                cases stop with
                | true => rfl
                | false => simpa using hk.moves.end_of_end hal hf hpc (by simpa using hend)
              rw [if_pos hend']
              simp only [hend] at hrest
              refine ⟨t', _, rfl, hk.agree, hrest, ?_, ?_⟩
              · exact hσ ▸ σ.after_cells_subset s inst
              · exact fun hφ => hσ ▸ σ.after_regs_subset hφ s inst
            · rw [if_neg hend] at hl
              simp only [Bool.not_eq_true] at hend
              simp only [hend] at hrest
              obtain ⟨hgo, hlt'⟩ : stop = false ∧ s'.pc < code.length := by simpa using hend
              have hpc' := hk.moves.place_eq hf hpc hbranch hgo hlt'
              obtain ⟨tf, σf, hl', hag, hsel, hsub, hsubr⟩ :=
                ih _ s' t' sf e hrest hk.agree (hk.intact hgo) hpc' hl
              refine ⟨tf, σf, ?_, hag, hsel, ?_, ?_⟩
              · rw [← hl']
                by_cases hend' : code'.length ≤ t'.pc
                · -- only dropped instructions are left, and the new machine has stopped
                  have hn : n ≠ 0 := by
                    rintro rfl
                    have := hrest.2.1
                    rw [← hpc', hlen] at this
                    omega
                  obtain ⟨m, rfl⟩ := Nat.exists_eq_succ_of_ne_zero hn
                  rw [if_pos (by simp [hend']), Nat.succ_add, loop_at_end hend']
                · rw [if_neg (by simp [hgo, hend'])]
                  rfl
              · exact hsub.trans (hσ ▸ σ.after_cells_subset s inst)
              · exact fun hφ => (hsubr hφ).trans (hσ ▸ σ.after_regs_subset hφ s inst)
          | drop =>
            have hσ : σ.after φ s inst = σ.drop s inst := by simp [Stale.after, hf]
            obtain ⟨rfl, hs', hag, hin⟩ := exec_drop ha hi (hal.get_drop hf hc) hx
            have hpc' : t.pc = place φ s'.pc := by rw [hpc, hs', place_succ hf, Fate.size, Nat.add_zero]
            rw [hσ] at hrest
            by_cases hend : code.length ≤ s'.pc
            · rw [if_pos (by simp [hend])] at hl
              obtain ⟨rfl, rfl⟩ := Prod.mk.inj (Option.some.inj hl)
              have hend' : code'.length ≤ t.pc := by
                rw [hpc', place_of_length_le (hal.length_eq ▸ hend), hal.length_eq, hlen]
              simp only [hend, decide_true, Bool.or_true] at hrest
              refine ⟨t, _, ?_, hag, hrest, ?_, ?_⟩
              · rw [Nat.add_right_comm]
                exact loop_at_end hend' _
              · exact hσ ▸ σ.after_cells_subset s inst
              · exact fun hφ => hσ ▸ σ.after_regs_subset hφ s inst
            · rw [if_neg (by simpa using hend)] at hl
              simp only [hend, decide_false, Bool.or_self] at hrest
              obtain ⟨tf, σf, hl', hag, hsel, hsub, hsubr⟩ := ih _ s' t sf e hrest hag hin hpc' hl
              refine ⟨tf, σf, ?_, hag, hsel, ?_, ?_⟩
              · rw [← hl']
                congr 1
                simp only [Stale.drop]
                omega
              · exact hsub.trans (hσ ▸ σ.after_cells_subset s inst)
              · exact fun hφ => (hsubr hφ).trans (hσ ▸ σ.after_regs_subset hφ s inst)

/-! ## The selected output -/

theorem find?_congr_of_pairwise {l : List (Fin 16)} (hl : l.Pairwise (· > ·)) {p q : Fin 16 → Bool}
    {r : Fin 16} (hp : l.find? p = some r) (hq : ∀ i, r ≤ i → q i = p i) : l.find? q = some r := by
  obtain ⟨hr, l₁, l₂, rfl, hl₁⟩ := List.find?_eq_some_iff_append.mp hp
  refine List.find?_eq_some_iff_append.mpr ⟨by rw [hq r le_rfl, hr], l₁, l₂, rfl, ?_⟩
  intro i hi
  have hlt : i > r := (List.pairwise_append.mp hl).2.2 i hi r List.mem_cons_self
  rw [hq i hlt.le]
  exact hl₁ i hi

theorem pairwise_reverse_finRange (n : ℕ) : (List.finRange n).reverse.Pairwise (· > ·) :=
  List.pairwise_reverse.mpr (List.pairwise_lt_finRange n)

theorem lastReg_eq {σ : Stale} {s t : State F} (ha : Agree σ s t) (hsel : Selects σ s) :
    lastReg t.regs = lastReg s.regs := by
  rcases hsel with h | ⟨r, hr, hlt⟩
  · have : t.regs = s.regs := by
      funext i
      exact (ha.regs i (by simp [h])).symm
    rw [this]
  · rw [hr]
    refine find?_congr_of_pairwise (pairwise_reverse_finRange 16) hr fun i hi => ?_
    rw [ha.regs i fun hm => absurd (hlt i hm) (not_lt.mpr hi)]

theorem lastReg_not_stale {σ : Stale} {s : State F} (hsel : Selects σ s) {r : Fin 16}
    (hr : lastReg s.regs = some r) : r ∉ σ.regs := by
  rcases hsel with h | ⟨r', hr', hlt⟩
  · simp [h]
  · obtain rfl := Option.some.inj (hr.symm.trans hr')
    exact fun hm => lt_irrefl r (hlt r hm)

/-- Two machines that agree on the selected register return the same output and status. -/
theorem finish_eq {σ : Stale} {s t : State F} {e : Bool} {res : Result F} (ha : Agree σ s t)
    (hsel : Selects σ s) (h : finish env s e = some res) :
    finish env t e = some ⟨res.output, res.status, t⟩ ∧ res.final = s := by
  unfold finish at h ⊢
  rw [lastReg_eq ha hsel]
  cases hr : lastReg s.regs with
  | none =>
    simp only [hr, Option.some.injEq] at h
    subst h
    exact ⟨rfl, rfl⟩
  | some r =>
    simp only [hr, Option.bind_eq_bind, Option.bind_eq_some_iff, Option.some.injEq] at h
    obtain ⟨x, hx, out, hout, rfl⟩ := h
    rw [ha.regs r (lastReg_not_stale hsel hr)] at hx
    simp only [Option.bind_eq_bind, hx, hout, Option.bind_some, and_self]

theorem Agree.mem_eq {σ : Stale} {s t : State F} (ha : Agree σ s t) (h : σ.cells = ∅) :
    s.mem = t.mem :=
  List.ext_getElem? fun j => ha.cells j (by simp [h])

/-! ## Runs from the same machine -/

def Stale.none : Stale := ⟨∅, ∅, 0⟩

def ClearRun (env : Env F) (φ : List Fate) (code : List Instr) (stepLimit : ℕ)
    (regs : Fin 16 → Reg F) (mem : List F) (input : Tensor F) : Prop :=
  ∀ s, start env regs mem input = some s → Clear env φ code stepLimit .none s

/-- **A pass preserves every clear run**: the rewritten program, loaded with the same registers and
memory, returns the same output and status and leaves the same memory. When the pass drops nothing,
it leaves the same registers too. -/
theorem run_clear {code' : List Instr} (hal : Aligned φ code code') {stepLimit : ℕ}
    {regs : Fin 16 → Reg F} {mem : List F} {input : Tensor F} {res : Result F}
    (hcl : ClearRun env φ code stepLimit regs mem input)
    (hrun : run env code stepLimit regs mem input = some res) :
    ∃ res', run env code' stepLimit regs mem input = some res' ∧ res'.output = res.output ∧
      res'.status = res.status ∧ res'.final.mem = res.final.mem ∧
      (.drop ∉ φ → res'.final.regs = res.final.regs) := by
  simp only [run, Option.bind_eq_bind, Option.bind_eq_some_iff] at hrun
  obtain ⟨s, hs, ⟨sf, e⟩, hl, hfin⟩ := hrun
  have hpc : s.pc = 0 := by
    simp only [start, Option.bind_eq_bind, Option.bind_eq_some_iff, Option.some.injEq] at hs
    obtain ⟨_, _, _, _, rfl⟩ := hs
    rfl
  have hag : Agree .none s s := ⟨fun _ _ => rfl, rfl, fun _ _ => rfl⟩
  have hin : Intact .none s := fun i hi => absurd hi (Finset.notMem_empty i)
  obtain ⟨tf, σf, hl', hagf, hsel, hcells, hregs⟩ :=
    loop_clear hal stepLimit .none s s sf e (hcl s hs) hag hin (by rw [hpc, place_zero]) hl
  obtain ⟨hfin', rfl⟩ := finish_eq hagf hsel hfin
  have hmem := hagf.mem_eq (Set.subset_empty_iff.mp hcells)
  refine ⟨⟨res.output, res.status, tf⟩, ?_, rfl, rfl, hmem.symm, fun hφ => ?_⟩
  · have hl' : loop env code' stepLimit s = some (tf, e) := hl'
    simp only [run, hs, Option.bind_eq_bind, Option.bind_some, hl']
    exact hfin'
  · funext i
    exact (hagf.regs i fun hm => Finset.notMem_empty i (hregs hφ hm)).symm

end Runs

end SneppxAlg.Npe
