import Mathlib.Data.List.Pairwise
import Mathlib.Data.Set.Function
import SneppxAlg.Security.JunkRename

/-!
# Junk and renaming along paths

Each block of a graph is renamed with a map of its own, and the map takes every text that does not start
with `_` for a variable. So there is one renaming of the variables of the graph under which the new
graph computes what the old one does, along every path, if the texts that are renamed are variables, no
two blocks share one of them (`Connectable`), and the junk is harmless where the path goes
(`obscureBlocks_runPath`).
-/

namespace SneppxAlg.Obfuscation

open Lib.GuardedRun Lib.Expansion

/-! ## The blocks with the draws and numbers they are treated with -/

/-- A block of the graph at its turn in the loop: `next_temp` and the draws left there. -/
structure Entry where
  id : UInt64
  block : List Instruction
  nextTemp : ℕ
  draws : Rng

namespace Entry

/-- The block after the junk passes. -/
def junked (e : Entry) : List Instruction := (junkPass e.block e.draws).1

def renameState (e : Entry) : RenameState := renameMap e.junked e.nextTemp

/-- The block after the renaming. -/
def rewritten (e : Entry) : List Instruction := e.junked.map (renameInst e.renameState.map)

end Entry

def entries : Cfg → ℕ → Rng → List Entry
  | [], _, _ => []
  | (id, block) :: rest, nextTemp, d =>
    let e : Entry := { id := id, block := block, nextTemp := nextTemp, draws := d }
    e :: entries rest e.renameState.nextTemp (junkPass block d).2

theorem transformBlocks_eq (cfg : Cfg) (nextTemp : ℕ) (d : Rng) :
    (transformBlocks junkPass cfg nextTemp d).1 =
      (entries cfg nextTemp d).map fun e => (e.id, e.rewritten) := by
  induction cfg generalizing nextTemp d with
  | nil => rfl
  | cons b rest ih =>
    have hrest := ih (renameMap (junkPass b.2 d).1 nextTemp).nextTemp (junkPass b.2 d).2
    exact congrArg (fun l => (b.1, (renameRegistersBlock (junkPass b.2 d).1 nextTemp).1) :: l) hrest

theorem map_entries (cfg : Cfg) (nextTemp : ℕ) (d : Rng) :
    (entries cfg nextTemp d).map (fun e => (e.id, e.block)) = cfg := by
  induction cfg generalizing nextTemp d with
  | nil => rfl
  | cons b rest ih => simp [entries, ih]

theorem lookup_map_entries (es : List Entry) (f : Entry → List Instruction) (id : UInt64) :
    (es.map fun e => (e.id, f e)).lookup id = (es.find? fun e => id == e.id).map f := by
  induction es with
  | nil => rfl
  | cons e es ih =>
    rw [List.map_cons, List.lookup_cons, List.find?_cons, ih]
    cases id == e.id <;> rfl

/-- A step of a path goes through one block in both graphs, or through none. -/
theorem block_cases (cfg : Cfg) (d : Rng) (id : UInt64) :
    (cfg.block id = [] ∧ (obscureBlocks cfg d).1.block id = []) ∨
      ∃ e ∈ entries cfg 1000 d, e.id = id ∧ cfg.block id = e.block ∧
        (obscureBlocks cfg d).1.block id = e.rewritten := by
  have hold : cfg.lookup id = ((entries cfg 1000 d).find? fun e => id == e.id).map Entry.block := by
    rw [← lookup_map_entries, map_entries]
  have hnew : (obscureBlocks cfg d).1.lookup id =
      ((entries cfg 1000 d).find? fun e => id == e.id).map Entry.rewritten := by
    rw [← lookup_map_entries, ← transformBlocks_eq]
    rfl
  cases hfind : (entries cfg 1000 d).find? fun e => id == e.id with
  | none => exact Or.inl (by simp [Cfg.block, hold, hnew, hfind])
  | some e =>
    refine Or.inr ⟨e, List.mem_of_find?_eq_some hfind, ?_, ?_⟩
    · have := List.find?_some hfind
      exact (beq_iff_eq.mp this).symm
    · simp [Cfg.block, hold, hnew, hfind]

/-! ## Numbers -/

theorem length_junked_le (e : Entry) : e.junked.length ≤ 16 * e.block.length := by
  have hfirst : (insertJunk e.block e.draws).1.length ≤ 4 * e.block.length :=
    length_expandAll (fun i d => length_junkSeq (junkSeq_junkAfter i d)) e.draws
  have hsecond : e.junked.length ≤ 4 * (insertJunk e.block e.draws).1.length :=
    length_expandAll (fun i d => length_junkSeq (junkSeq_junkExtendedAfter i d)) _
  omega

/-- The numbers that a graph takes from `next_temp` on. -/
theorem nextTemp_le_of_mem_entries (cfg : Cfg) (nextTemp : ℕ) (d : Rng) :
    ∀ e ∈ entries cfg nextTemp d, nextTemp ≤ e.nextTemp ∧
      e.renameState.nextTemp ≤ nextTemp + 48 * (cfg.map fun b => b.2.length).sum := by
  induction cfg generalizing nextTemp d with
  | nil => simp [entries]
  | cons b rest ih =>
    let first : Entry := { id := b.1, block := b.2, nextTemp := nextTemp, draws := d }
    have hlen : first.junked.length ≤ 16 * b.2.length := length_junked_le first
    have hnext : first.renameState.nextTemp ≤ nextTemp + 3 * first.junked.length :=
      nextTemp_renameMap_le first.junked nextTemp
    have hle : nextTemp ≤ first.renameState.nextTemp := (renameMap_inv first.junked nextTemp).le
    simp only [entries, List.mem_cons, List.map_cons, List.sum_cons]
    rintro e (rfl | he)
    · exact ⟨le_refl _, show first.renameState.nextTemp ≤ _ by omega⟩
    · have := ih first.renameState.nextTemp (junkPass b.2 d).2 e he
      omega

/-- No number goes into two names. -/
theorem index_unique {cfg : Cfg} {nextTemp : ℕ} {d : Rng} :
    ∀ e ∈ entries cfg nextTemp d, ∀ e' ∈ entries cfg nextTemp d, ∀ x y k,
      e.renameState.map x = some k → e'.renameState.map y = some k → x = y := by
  have hrange : ∀ (e : Entry) x k, e.renameState.map x = some k →
      e.nextTemp ≤ k ∧ k < e.renameState.nextTemp := fun e =>
    (renameMap_inv e.junked e.nextTemp).range
  induction cfg generalizing nextTemp d with
  | nil => simp [entries]
  | cons b rest ih =>
    simp only [entries, List.mem_cons]
    rintro e (rfl | he) e' (rfl | he') x y k hx hy
    · exact (renameMap_inv _ _).inj x y k hx hy
    · have h1 := (hrange _ x k hx).2
      have h2 := (hrange e' y k hy).1
      have h3 := (nextTemp_le_of_mem_entries rest _ _ e' he').1
      omega
    · have h1 := (hrange e x k hx).1
      have h2 := (hrange _ y k hy).2
      have h3 := (nextTemp_le_of_mem_entries rest _ _ e he).1
      omega
    · exact ih e he e' he' x y k hx hy

/-! ## One renaming for the graph -/

/-- The variables of a graph. -/
def Cfg.names (cfg : Cfg) : List Text := cfg.flatMap fun b => Obfuscation.names b.2

/-- What one block renames does not occur in the other. -/
def Apart (b b' : List Instruction) : Prop :=
  (∀ x ∈ names b, x ∉ renamed b') ∧ ∀ x ∈ names b', x ∉ renamed b

/-- The graphs whose names can be kept together. -/
structure Connectable (cfg : Cfg) : Prop where
  fresh : ∀ x ∈ cfg.names, ¬ Temporary x
  /-- What is renamed is a variable: an operand that is none is left alone, and so are its variables. -/
  operands : ∀ b ∈ cfg, ∀ s ∈ operandsOf b.2,
    s = [] ∨ IsVar s ∨ s ∉ renamed b.2 ∧ ∀ x ∈ (readOperand s).vars, x ∉ renamed b.2
  separate : cfg.Pairwise fun b b' => Apart b.2 b'.2
  /-- `next_temp` stays an `int`. -/
  size : 1000 + 48 * (cfg.map fun b => b.2.length).sum ≤ 2 ^ 31

/-- The name of a variable after the passes. -/
def newName (es : List Entry) (x : Text) : Text :=
  match es.find? fun e => x ∈ renamed e.block with
  | some e => renameText e.renameState.map x
  | none => x

section Names

variable {cfg : Cfg} {d : Rng} {e e' : Entry} {x y : Text}

theorem mem_cfg_of_mem_entries {nextTemp : ℕ} (he : e ∈ entries cfg nextTemp d) :
    (e.id, e.block) ∈ cfg := by
  have := List.mem_map_of_mem (f := fun e : Entry => (e.id, e.block)) he
  rwa [map_entries] at this

theorem mem_names_of_entry (he : e ∈ entries cfg 1000 d) (hx : x ∈ names e.block) : x ∈ cfg.names :=
  List.mem_flatMap.mpr ⟨_, mem_cfg_of_mem_entries he, hx⟩

theorem Connectable.separated (h : Connectable cfg) (he : e ∈ entries cfg 1000 d)
    (he' : e' ∈ entries cfg 1000 d) (hx : x ∈ names e.block) (hx' : x ∈ renamed e'.block) : e = e' := by
  have hpairs : (entries cfg 1000 d).Pairwise fun e e' => Apart e.block e'.block := by
    have := h.separate
    rwa [← map_entries cfg 1000 d, List.pairwise_map] at this
  have hsymm : Std.Symm fun e e' : Entry => Apart e.block e'.block := ⟨fun _ _ h => ⟨h.2, h.1⟩⟩
  by_contra hne
  exact (hpairs.forall he he' hne).1 x hx hx'

/-- A name that a block renames is a variable, if it is one of the names of the block. -/
theorem Connectable.isVar (h : Connectable cfg) (he : e ∈ entries cfg 1000 d) (hx : x ∈ names e.block)
    (hx' : x ∈ renamed e.block) : IsVar x := by
  obtain ⟨i, hi, hmem⟩ := List.mem_flatMap.mp hx
  have hoperand : ∀ s ∈ operandsOf e.block, x ∈ (readOperand s).vars → IsVar x := by
    intro s hs hxs
    rcases h.operands _ (mem_cfg_of_mem_entries he) s hs with rfl | hvar | ⟨-, hvars⟩
    · simp [readOperand, atom, Expr.vars] at hxs
    · rw [hvar, Expr.vars, List.mem_singleton] at hxs
      rwa [hxs]
    · exact absurd hx' (hvars x hxs)
  have hops : ∀ s ∈ [i.operand1, i.operand2], s ∈ operandsOf e.block := fun s hs =>
    List.mem_flatMap.mpr ⟨i, hi, hs⟩
  simp only [Instruction.vars, List.mem_append] at hmem
  rcases hmem with (hmem | hmem) | hmem
  · exact hoperand _ (hops _ (by simp)) hmem
  · exact hoperand _ (hops _ (by simp)) hmem
  · split_ifs at hmem with hvar
    · rw [List.mem_singleton] at hmem
      rwa [hmem]
    · simp at hmem

theorem newName_of_renamed (h : Connectable cfg) (he : e ∈ entries cfg 1000 d) (hx : x ∈ names e.block)
    (hx' : x ∈ renamed e.block) :
    newName (entries cfg 1000 d) x = renameText e.renameState.map x := by
  unfold newName
  split
  · next e' hfind =>
    have hmem : x ∈ renamed e'.block := by simpa using List.find?_some hfind
    rw [h.separated he (List.mem_of_find?_eq_some hfind) hx hmem]
  · next hfind => exact absurd hx' (by simpa using List.find?_eq_none.mp hfind e he)

theorem newName_of_not_renamed (h : Connectable cfg) (he : e ∈ entries cfg 1000 d)
    (hx : x ∈ names e.block) (hx' : x ∉ renamed e.block) : newName (entries cfg 1000 d) x = x := by
  unfold newName
  split
  · next e' hfind =>
    have hmem : x ∈ renamed e'.block := by simpa using List.find?_some hfind
    rw [h.separated he (List.mem_of_find?_eq_some hfind) hx hmem] at hx'
    exact absurd hmem hx'
  · rfl

/-- A variable of the graph either keeps its name or gets the one with the number of its block. -/
theorem newName_cases (h : Connectable cfg) (hx : x ∈ cfg.names) :
    newName (entries cfg 1000 d) x = x ∨
      IsVar x ∧ ∃ e ∈ entries cfg 1000 d, ∃ k, e.renameState.map x = some k ∧ k < 2 ^ 31 ∧
        newName (entries cfg 1000 d) x = tempName "rn".toList k := by
  obtain ⟨b, hb, hxb⟩ := List.mem_flatMap.mp hx
  obtain ⟨e, he, rfl⟩ : ∃ e ∈ entries cfg 1000 d, (e.id, e.block) = b := by
    rwa [← map_entries cfg 1000 d, List.mem_map] at hb
  by_cases hx' : x ∈ renamed e.block
  · rw [newName_of_renamed h he hxb hx']
    unfold renameText
    split
    · next k hk =>
      have hrange := ((renameMap_inv _ _).range x k hk).2
      have hbound := (nextTemp_le_of_mem_entries cfg 1000 d e he).2
      have hsize := h.size
      simp only [Entry.renameState] at hbound
      exact Or.inr ⟨h.isVar he hxb hx', e, he, k, hk, by omega, rfl⟩
    · exact Or.inl rfl
  · exact Or.inl (newName_of_not_renamed h he hxb hx')

theorem newName_eq_tempName (h : Connectable cfg) (hx : x ∈ cfg.names) {base : Text} {k : ℕ}
    (hbase : base.length ≤ 40) (hk : k < 10 ^ 20)
    (heq : newName (entries cfg 1000 d) x = tempName base k) :
    base = "rn".toList ∧ IsVar x ∧ ∃ e ∈ entries cfg 1000 d, e.renameState.map x = some k := by
  rcases newName_cases (d := d) h hx with hself | ⟨hvar, e, he, k', hmap, hk', hname⟩
  · rw [hself] at heq
    exact absurd (heq ▸ temporary_tempName base k) (h.fresh x hx)
  · rw [hname] at heq
    obtain ⟨hb, rfl⟩ := tempName_inj (by decide) hbase (by omega) hk heq
    exact ⟨hb.symm, hvar, e, he, hmap⟩

theorem newName_injOn (h : Connectable cfg) :
    Set.InjOn (newName (entries cfg 1000 d)) {x | x ∈ cfg.names} := by
  intro x hx y hy heq
  rcases newName_cases (d := d) h hx with hself | ⟨-, e, he, k, hmap, hk, hname⟩
  · rcases newName_cases (d := d) h hy with hself' | ⟨-, e', he', k', hmap', hk', hname'⟩
    · rwa [hself, hself'] at heq
    · rw [hself, hname'] at heq
      exact absurd (heq ▸ temporary_tempName _ k') (h.fresh x hx)
  · rw [hname] at heq
    obtain ⟨-, -, e', he', hmap'⟩ := newName_eq_tempName h hy (by decide) (by omega) heq.symm
    exact index_unique e he e' he' x y k hmap hmap'

end Names

/-! ## Machines up to the renaming -/

section Machines

variable {w : ℕ} {cfg : Cfg} {d : Rng} {e : Entry} {m m' : Machine w}

/-- The variables of a graph have the values of their new names. -/
structure Related (cfg : Cfg) (rename : Text → Text) (m m' : Machine w) : Prop where
  vars : ∀ x ∈ cfg.names, m.vars x = m'.vars (rename x)
  stack : m.stack = m'.stack
  memory : m.memory = m'.memory

/-- The block with the junk of a turn of the loop is one whose junk stays within the block. -/
def Entry.Tame (e : Entry) : Prop :=
  ∀ i ∈ e.junked, Kept e.block i ∨ Dead (JunkReads e.block) i

theorem Entry.Tame.map_eq_none {x : Text} (h : e.Tame) (hx : x ∉ renamed e.block)
    (hzero : x ≠ "0".toList) : e.renameState.map x = none := by
  rw [← Option.not_isSome_iff_eq_none]
  intro hsome
  obtain ⟨i, hi, hmem⟩ := List.mem_flatMap.mp (renameMap_isSome.mp hsome)
  rcases renamed_of_kept_or_dead (h i hi) x hmem with hr | hz
  · exact hx hr
  · exact hzero hz

theorem renameText_of_not_renamed {x : Text} (h : e.Tame) (hx : x ∉ renamed e.block)
    (hzero : x ≠ "0".toList) : renameText e.renameState.map x = x := by
  rw [renameText, h.map_eq_none hx hzero]

theorem renameText_of_isVar {x : Text} (h : Connectable cfg) (he : e ∈ entries cfg 1000 d)
    (ht : e.Tame) (hx : x ∈ names e.block) (hvar : IsVar x) :
    renameText e.renameState.map x = newName (entries cfg 1000 d) x := by
  by_cases hx' : x ∈ renamed e.block
  · exact (newName_of_renamed h he hx hx').symm
  · rw [newName_of_not_renamed h he hx hx', renameText_of_not_renamed ht hx']
    rintro rfl
    exact absurd hvar (by decide)

theorem not_mem_renamed_nil (block : List Instruction) : ([] : Text) ∉ renamed block := by
  intro h
  obtain ⟨i, -, hmem⟩ := List.mem_flatMap.mp h
  simp [Instruction.renamed, renamesResult, renamesOperand] at hmem

theorem mem_names_of_operand {block : List Instruction} {s x : Text} (hs : s ∈ operandsOf block)
    (hx : x ∈ (readOperand s).vars) : x ∈ names block := by
  obtain ⟨i, hi, hmem⟩ := List.mem_flatMap.mp hs
  refine List.mem_flatMap.mpr ⟨i, hi, ?_⟩
  simp only [List.mem_cons, List.not_mem_nil, or_false] at hmem
  rcases hmem with rfl | rfl <;> simp [Instruction.vars, hx]

theorem isVar_newName (h : Connectable cfg) {x : Text} (hx : x ∈ cfg.names) (hvar : IsVar x) :
    IsVar (newName (entries cfg 1000 d) x) := by
  rcases newName_cases (d := d) h hx with hself | ⟨-, -, -, k, -, -, hname⟩
  · rwa [hself]
  · rw [hname]
    exact isVar_of_temporary (temporary_tempName _ k)

theorem Related.setVar {rename : Text → Text} (h : Related cfg rename m m')
    (hinj : Set.InjOn rename {x | x ∈ cfg.names}) {r : Text} (hr : r ∈ cfg.names) (v : BitVec w) :
    Related cfg rename (m.setVar r v) (m'.setVar (rename r) v) := by
  refine ⟨fun x hx => ?_, h.stack, h.memory⟩
  by_cases hxr : x = r
  · simp [Machine.setVar, hxr]
  · have hne : rename x ≠ rename r := fun heq => hxr (hinj hx hr heq)
    simpa [Machine.setVar, hxr, hne] using h.vars x hx

/-- A value that goes into a name which stands for no variable is not seen. -/
theorem Related.setVar_right {rename : Text → Text} (h : Related cfg rename m m') {t : Text}
    (ht : ∀ x ∈ cfg.names, rename x ≠ t) (v : BitVec w) : Related cfg rename m (m'.setVar t v) := by
  refine ⟨fun x hx => ?_, h.stack, h.memory⟩
  simpa [Machine.setVar, ht x hx] using h.vars x hx

theorem Related.setVar_left {rename : Text → Text} (h : Related cfg rename m m') {t : Text}
    (ht : t ∉ cfg.names) (v : BitVec w) : Related cfg rename (m.setVar t v) m' := by
  refine ⟨fun x hx => ?_, h.stack, h.memory⟩
  have hne : x ≠ t := fun heq => ht (heq ▸ hx)
  simpa [Machine.setVar, hne] using h.vars x hx

theorem renameText_of_temporary {t : Text} (h : Temporary t) :
    renameText e.renameState.map t = t := by
  have hnone : e.renameState.map t = none := by
    rw [← Option.not_isSome_iff_eq_none]
    intro hsome
    obtain ⟨i, -, hmem⟩ := List.mem_flatMap.mp (renameMap_isSome.mp hsome)
    have hresult := not_renamesResult_of_temporary h
    simp only [Instruction.renamed, List.mem_append, List.mem_filter] at hmem
    rcases hmem with hmem | hmem
    · exact hresult hmem.2
    · exact hresult (renamesResult_of_renamesOperand hmem.2)
  rw [renameText, hnone]

section Renamed

variable (h : Related cfg (newName (entries cfg 1000 d)) m m') (hc : Connectable cfg)

include h hc

theorem Related.step_dead {i : Instruction} (hi : DeadResult i) :
    Related cfg (newName (entries cfg 1000 d)) (step m i)
      (step m' (renameInst e.renameState.map i)) := by
  obtain ⟨base, k, hresult, hlen, hbase⟩ := hi.result
  have htemp : Temporary i.result := hresult ▸ temporary_tempOf base k
  have hsame : (renameInst e.renameState.map i).result = i.result := renameText_of_temporary htemp
  have hi' : DeadResult (renameInst e.renameState.map i) :=
    ⟨hi.type, base, k, hsame.trans hresult, hlen, hbase⟩
  obtain ⟨v, hv⟩ := Obfuscation.step_dead hi m
  obtain ⟨v', hv'⟩ := Obfuscation.step_dead hi' m'
  have hvar := isVar_of_temporary htemp
  rw [hv, hv', hsame, Machine.assign, if_pos hvar, Machine.assign, if_pos hvar]
  refine Related.setVar_left (Related.setVar_right h (fun x hx heq => ?_) v')
    (fun hmem => hc.fresh _ hmem htemp) v
  rw [hresult] at heq
  exact hbase (newName_eq_tempName hc hx hlen (by omega) heq).1

variable (he : e ∈ entries cfg 1000 d) (ht : e.Tame)

include he ht

theorem Related.read {s : Text} (hs : Reads e.block s) :
    m.read s = m'.read (renameText e.renameState.map s) := by
  have hnil : m.read [] = m'.read (renameText e.renameState.map []) := by
    rw [renameText_of_not_renamed ht (not_mem_renamed_nil _) (by decide), read_nil, read_nil]
  rcases hs with rfl | hs
  · exact hnil
  · rcases hc.operands _ (mem_cfg_of_mem_entries he) s hs with rfl | hvar | ⟨hnot, hvars⟩
    · exact hnil
    · have hx : s ∈ names e.block := mem_names_of_operand hs (by rw [hvar]; exact List.mem_singleton.mpr rfl)
      have hnew := mem_names_of_entry he hx
      rw [renameText_of_isVar hc he ht hx hvar, Machine.read, hvar, Machine.read,
        isVar_newName hc hnew hvar]
      exact h.vars s hnew
    · have hzero : s ≠ "0".toList := by
        rintro rfl
        exact hnot (mem_renamed_of_operand hs (by decide))
      rw [renameText_of_not_renamed ht hnot hzero]
      refine Expr.eval_congr fun x hx => ?_
      have hxn := mem_names_of_operand hs hx
      rw [h.vars x (mem_names_of_entry he hxn), newName_of_not_renamed hc he hxn (hvars x hx)]

theorem Related.assign {i : Instruction} (hi : Kept e.block i) (v : BitVec w) :
    Related cfg (newName (entries cfg 1000 d)) (m.assign i.result v)
      (m'.assign (renameText e.renameState.map i.result) v) := by
  by_cases hvar : IsVar i.result
  · have hx : i.result ∈ names e.block := by
      rcases hi.result with hnil | hres | ⟨hop, -⟩
      · rw [hnil] at hvar
        exact absurd hvar (by decide)
      · obtain ⟨j, hj, heq⟩ := List.mem_map.mp hres
        refine List.mem_flatMap.mpr ⟨j, hj, ?_⟩
        simp [Instruction.vars, heq, hvar]
      · exact mem_names_of_operand hop (by rw [hvar]; exact List.mem_singleton.mpr rfl)
    have hnew := mem_names_of_entry he hx
    rw [renameText_of_isVar hc he ht hx hvar, Machine.assign, if_pos hvar, Machine.assign,
      if_pos (isVar_newName hc hnew hvar)]
    exact h.setVar (newName_injOn hc) hnew v
  · rw [Machine.assign_of_not hvar]
    unfold renameText
    split
    · next k hk =>
      -- the text is taken for a name: no variable of the graph has got this one
      rw [Machine.assign, if_pos (isVar_of_temporary (temporary_tempName _ k))]
      refine h.setVar_right (fun x hx heq => ?_) v
      have hbound : k < 10 ^ 20 := by
        have := ((renameMap_inv _ _).range _ k hk).2
        have := (nextTemp_le_of_mem_entries cfg 1000 d e he).2
        have := hc.size
        simp only [Entry.renameState] at *
        omega
      obtain ⟨-, hxvar, e', he', hmap⟩ := newName_eq_tempName hc hx (by decide) hbound heq
      rw [index_unique e' he' e he x _ k hmap hk] at hxvar
      exact hvar hxvar
    · rwa [Machine.assign_of_not hvar]

theorem Related.step_kept {i : Instruction} (hi : Kept e.block i) :
    Related cfg (newName (entries cfg 1000 d)) (step m i)
      (step m' (renameInst e.renameState.map i)) := by
  have hread1 := h.read hc he ht hi.reads1
  have hread2 := h.read hc he ht hi.reads2
  have hvars := h.vars
  unfold Obfuscation.step
  simp only [renameInst]
  rw [hread1, hread2, h.stack, h.memory]
  split
  · exact ⟨hvars, rfl, rfl⟩
  · split
    · exact h
    · refine Related.assign ?_ hc he ht hi _
      exact ⟨hvars, rfl, rfl⟩
  · exact h.assign hc he ht hi _
  · exact ⟨hvars, rfl, rfl⟩
  · split
    · exact h.assign hc he ht hi _
    · exact h

theorem Related.run_rename :
    Related cfg (newName (entries cfg 1000 d)) (run m e.junked) (run m' e.rewritten) := by
  have hrun : ∀ is : List Instruction, (∀ i ∈ is, i ∈ e.junked) → ∀ m m' : Machine w,
      Related cfg (newName (entries cfg 1000 d)) m m' →
      Related cfg (newName (entries cfg 1000 d)) (run m is)
        (run m' (is.map (renameInst e.renameState.map))) := by
    intro is his
    induction is with
    | nil => exact fun _ _ h => h
    | cons i is ih =>
      intro m m' h
      refine ih (fun j hj => his j (List.mem_cons_of_mem i hj)) _ _ ?_
      rcases ht i (his i List.mem_cons_self) with hkept | hdead
      · exact h.step_kept hc he ht hkept
      · exact h.step_dead hc hdead.toDeadResult
  exact hrun e.junked (fun _ hi => hi) m m' h

end Renamed

/-- The junk of both passes is harmless in a run of the block. -/
structure BlockHarmless (m : Machine w) (block : List Instruction) (d : Rng) : Prop where
  first : Guarded (stepWith step junkAfter) Harmless (m, d) block
  extended : Guarded (stepWith step junkExtendedAfter) HarmlessExtended (m, (insertJunk block d).2)
    (insertJunk block d).1

theorem first_insertJunk (block : List Instruction) (d : Rng) :
    ∀ i ∈ (insertJunk block d).1, First block i :=
  forall_mem_expandAll (fun i hi d => first_of_junkSeq hi (junkSeq_junkAfter i d)) d

theorem BlockHarmless.tame (h : BlockHarmless m e.block e.draws) : e.Tame :=
  forall_mem_of_guarded (fun i hi _ d hok =>
    kept_or_dead_of_junkSeq (first_insertJunk e.block e.draws i hi) (junkSeq_junkExtendedAfter i d)
      hok.2) h.extended

theorem clean_of_reads {block : List Instruction} (h : ∀ x ∈ names block, ¬ Temporary x) {s : Text}
    (hs : Reads block s) : Clean s := by
  rcases hs with rfl | hs
  · decide
  · exact fun x hx => h x (mem_names_of_operand hs hx)

theorem BlockHarmless.agree (h : BlockHarmless m e.block e.draws)
    (hfresh : ∀ x ∈ names e.block, ¬ Temporary x) : Agree (run m e.block) (run m e.junked) := by
  have hfirst : Agree (run m e.block) (run m (insertJunk e.block e.draws).1) := by
    refine simulation (R := Agree) (fun i hi m n d hmn hok => ?_) h.first (Agree.refl m)
    have hreads := first_of_mem hi
    exact junkSeq_agree (clean_of_reads hfresh hreads.reads1) (clean_of_reads hfresh hreads.reads2) hmn
      (junkSeq_junkAfter i d) hok
  have hsecond : Agree (run m (insertJunk e.block e.draws).1) (run m e.junked) := by
    refine simulation (R := Agree) (fun i hi m n d hmn hok => ?_) h.extended (Agree.refl m)
    have hreads := first_insertJunk e.block e.draws i hi
    exact junkSeq_agree (clean_of_reads hfresh hreads.reads1) (clean_of_reads hfresh hreads.reads2) hmn
      (junkSeq_junkExtendedAfter i d) hok.1
  exact hfirst.trans hsecond

theorem Related.run_block (h : Related cfg (newName (entries cfg 1000 d)) m m') (hc : Connectable cfg)
    (he : e ∈ entries cfg 1000 d) (hharm : BlockHarmless m e.block e.draws) :
    Related cfg (newName (entries cfg 1000 d)) (run m e.block) (run m' e.rewritten) := by
  have hfresh : ∀ x ∈ names e.block, ¬ Temporary x := fun x hx =>
    hc.fresh x (mem_names_of_entry he hx)
  have hagree := hharm.agree hfresh
  have hrename := h.run_rename hc he hharm.tame
  refine ⟨fun x hx => ?_, hagree.stack.trans hrename.stack, hagree.memory.trans hrename.memory⟩
  rw [hagree.vars x (hc.fresh x hx)]
  exact hrename.vars x hx

/-- The blocks that a path goes through, each with junk that is harmless in the state in which the path
reaches it. -/
def PathHarmless (cfg : Cfg) (d : Rng) : Machine w → List UInt64 → Prop :=
  Guarded (fun m id => run m (cfg.block id)) fun m id =>
    ∀ e ∈ entries cfg 1000 d, e.id = id → BlockHarmless m e.block e.draws

/-- Junk and renaming of a graph. There is one renaming of its variables under which the graph after the
passes computes the same along every path, from every state, with harmless junk on the way. -/
theorem obscureBlocks_runPath (cfg : Cfg) (d : Rng) (hc : Connectable cfg) :
    ∃ rename : Text → Text, Set.InjOn rename {x | x ∈ cfg.names} ∧
      ∀ (w : ℕ) (m m' : Machine w) (path : List UInt64), Related cfg rename m m' →
        PathHarmless cfg d m path →
        Related cfg rename (cfg.runPath m path) ((obscureBlocks cfg d).1.runPath m' path) := by
  refine ⟨newName (entries cfg 1000 d), newName_injOn hc, ?_⟩
  intro w m m' path
  induction path generalizing m m' with
  | nil => exact fun h _ => h
  | cons id path ih =>
    intro h hharm
    refine ih _ _ ?_ hharm.2
    rcases block_cases cfg d id with ⟨hold, hnew⟩ | ⟨e, he, hid, hold, hnew⟩
    · simp only [hold, hnew]
      exact h
    · simp only [hold, hnew]
      exact h.run_block hc he (hharm.1 e he hid)

end Machines

/-- A state with the values under the new names. -/
theorem exists_related {cfg : Cfg} {rename : Text → Text} {w : ℕ} (m : Machine w)
    (hinj : Set.InjOn rename {x | x ∈ cfg.names}) : ∃ m', Related cfg rename m m' := by
  refine ⟨{ m with vars := fun t => m.vars (Function.invFunOn rename {x | x ∈ cfg.names} t) }, ?_, rfl, rfl⟩
  intro x hx
  exact congrArg m.vars (hinj.leftInvOn_invFunOn hx).symm

/-- A graph of two blocks, a move and a sum, that have no variable in common. -/
def twoBlocks : Cfg :=
  [(1, [makeMov "x".toList "y".toList]), (2, [makeAdd "v".toList "u".toList "y2".toList])]

/-- The operands of `twoBlocks` hold 5, 3 and 4. -/
def operandsSet : Machine 64 :=
  (((Machine.zero 64).setVar "y".toList 5).setVar "u".toList 3).setVar "y2".toList 4

theorem obscureBlocks_twoBlocks :
    ∃ (rename : Text → Text) (m' : Machine 64), Set.InjOn rename {x | x ∈ twoBlocks.names} ∧
      Related twoBlocks rename operandsSet m' ∧
      Related twoBlocks rename (twoBlocks.runPath operandsSet [1, 2])
        ((obscureBlocks twoBlocks fun n => n + 2).1.runPath m' [1, 2]) ∧
      (twoBlocks.runPath operandsSet [1, 2]).vars "x".toList = 5 ∧
      (twoBlocks.runPath operandsSet [1, 2]).vars "v".toList = 7 := by
  have hc : Connectable twoBlocks :=
    ⟨by decide, by decide, List.pairwise_pair.mpr ⟨by decide, by decide⟩, by decide⟩
  have hharm : PathHarmless twoBlocks (fun n => n + 2) operandsSet [1, 2] := by
    refine ⟨fun e he hid => ?_, fun e he hid => ?_, trivial⟩
    · rcases List.mem_pair.mp he with rfl | rfl
      · -- the move with a push and a pop behind it, and then a dead temporary
        exact ⟨⟨fun h => absurd h.2 (by decide), trivial⟩,
          ⟨fun h => absurd h.2 (by decide), fun h => by decide⟩,
          ⟨fun h => absurd h.2 (by decide), fun h => absurd h.2 (by decide)⟩, trivial⟩
      · exact absurd hid (by decide)
    · rcases List.mem_pair.mp he with rfl | rfl
      · exact absurd hid (by decide)
      · exact ⟨⟨fun h => absurd h.1 (by decide), trivial⟩,
          ⟨fun h => absurd h.2 (by decide), fun h => absurd h.2 (by decide)⟩, trivial⟩
  obtain ⟨rename, hinj, hruns⟩ := obscureBlocks_runPath twoBlocks (fun n => n + 2) hc
  obtain ⟨m', hm'⟩ := exists_related operandsSet hinj
  exact ⟨rename, m', hinj, hm', hruns 64 operandsSet m' [1, 2] hm' hharm, by decide, by decide⟩

/-- The graph of `run_self_test`. -/
def selfTestGraph : Cfg := [(1, selfTestBlock), (2, [])]

/-- No renaming connects the graph of the self-test with what the passes make of it, not even without
junk: its constants are renamed. -/
theorem obscureBlocks_selfTestGraph :
    ¬ ∃ rename : Text → Text, ∀ m m' : Machine 64, Related selfTestGraph rename m m' →
      Related selfTestGraph rename (selfTestGraph.runPath m [1])
        ((obscureBlocks selfTestGraph fun _ => 1).1.runPath m' [1]) := by
  rintro ⟨rename, h⟩
  have hafter := (h (.zero 64) (.zero 64) ⟨fun _ _ => rfl, rfl, rfl⟩).vars "r0".toList (by decide)
  have hblock : (obscureBlocks selfTestGraph fun _ => 1).1.block 1 =
      [makeMov "_t1000_rn".toList "_t1001_rn".toList,
        makeAdd "_t1000_rn".toList "_t1000_rn".toList "_t1002_rn".toList] := by decide
  have hold : (selfTestGraph.runPath (.zero 64) [1]).vars "r0".toList = 15 := by decide
  have hnew : ∀ x, ((obscureBlocks selfTestGraph fun _ => 1).1.runPath (.zero 64) [1]).vars x = 0 := by
    intro x
    simp only [Cfg.runPath, List.foldl_cons, List.foldl_nil, hblock, run_cons, run_nil, step_makeMov,
      step_makeAdd]
    have hmov : (Machine.zero 64).read "_t1001_rn".toList = 0 := by decide
    have hadd : ((Machine.zero 64).assign "_t1000_rn".toList 0).read "_t1000_rn".toList +
        ((Machine.zero 64).assign "_t1000_rn".toList 0).read "_t1002_rn".toList = 0 := by decide
    rw [hmov, hadd, Machine.assign_assign, Machine.assign]
    split_ifs
    · by_cases hx : x = "_t1000_rn".toList <;> simp [Machine.setVar, Machine.zero, hx]
    · rfl
  rw [hold, hnew] at hafter
  exact absurd hafter (by decide)

end SneppxAlg.Obfuscation
