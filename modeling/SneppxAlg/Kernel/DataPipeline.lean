import Mathlib
import SneppxAlg.Lib.Loops
import SneppxAlg.Lib.Shuffle

/-!
# The data pipeline

`SNEPPX_data_pipeline_get_batch` and `SNEPPX_data_pipeline_shuffle` of `kernel/data/data_pipeline.c`. The rows
that have been loaded are read in batches, in the order of `shuffle_indices`, and from the start again when no
row is left.

Between two resets of the position the calls return the rows in that order, each once, as long as a call that
gets its two buffers gets its two tensors as well (`rows_good`). Otherwise it returns 0 and the rows are lost:
the position has moved on. The test for the last batch adds the batch size to the position and may overflow,
but only when all rows have been returned, and then the batch is too large for memory and the call fails.
-/

namespace SneppxAlg.DataPipeline

open Lib.Shuffle

variable {V : Type*}

/-- The two buffers are flat; `V` are the values of a `float`. -/
structure Pipeline (V : Type*) where
  batchSize : ℕ
  dataBuffer : List V
  labelBuffer : List V
  numSamples : ℕ
  numFeatures : ℕ
  numLabels : ℕ
  shuffleIndices : Option (List ℕ)
  currentPos : ℕ

structure Row (V : Type*) where
  features : List V
  labels : List V
deriving DecidableEq

def Pipeline.row (p : Pipeline V) (idx : ℕ) : Row V where
  features := (p.dataBuffer.drop (idx * p.numFeatures)).take p.numFeatures
  labels := (p.labelBuffer.drop (idx * p.numLabels)).take p.numLabels

/-- The two `memcpy`, which are undefined beyond the buffers. -/
def Pipeline.copyRow (p : Pipeline V) (idx : ℕ) : Option (Row V) :=
  if (idx + 1) * p.numFeatures ≤ p.dataBuffer.length ∧ (idx + 1) * p.numLabels ≤ p.labelBuffer.length then
    some (p.row idx)
  else none

/-- The index that is read at a position. -/
def Pipeline.indexAt (p : Pipeline V) (k : ℕ) : Option ℕ :=
  match p.shuffleIndices with
  | some indices => indices[k]?
  | none => some k

/-- `actual` at first. The sum is one of `size_t`. -/
def Pipeline.actual (p : Pipeline V) : ℕ :=
  if p.numSamples < (p.currentPos + p.batchSize) % 2 ^ 64 then p.numSamples - p.currentPos else p.batchSize

/-- What a call finds of memory: which requests for a buffer succeed, and whether `SNEPPX_tensor_empty` creates
the tensor of the batch and that of its labels. -/
structure Memory where
  buffer : ℕ → Bool
  batch : Bool
  labels : Bool

/-- What a call does: the pipeline after it, whether it has set `current_pos` to 0, and the two tensors or null
pointers, if it does not return -1. -/
structure Call (V : Type*) where
  pipe : Pipeline V
  reset : Bool
  tensors : Option (Option (List (List V)) × Option (List (List V)))

/-- The rows that the caller gets. -/
def Call.rows (c : Call V) : Option (List (Row V)) :=
  match c.tensors with
  | some (some features, some labels) => some (List.zipWith Row.mk features labels)
  | _ => none

/-- The buffers for a batch, the loop that fills them, the new position, and the tensors. -/
def Pipeline.readBatch (p : Pipeline V) (mem : Memory) (actual : ℕ) (reset : Bool) : Option (Call V) :=
  if mem.buffer (actual * p.numFeatures * 4 % 2 ^ 64) && mem.buffer (actual * p.numLabels * 4 % 2 ^ 64) then
    ((List.range actual).mapM fun i => (p.indexAt (p.currentPos + i)).bind p.copyRow).map fun rows =>
      ⟨{ p with currentPos := p.currentPos + actual }, reset,
        some (if mem.batch then some (rows.map Row.features) else none,
          if mem.labels then some (rows.map Row.labels) else none)⟩
  else some ⟨p, reset, none⟩

/-- `SNEPPX_data_pipeline_get_batch`. -/
def getBatch (mem : Memory) (p : Pipeline V) : Option (Call V) :=
  if p.numSamples = 0 then some ⟨p, false, none⟩
  else if p.actual = 0 then
    Pipeline.readBatch { p with currentPos := 0 } mem (min p.batchSize p.numSamples) true
  else p.readBatch mem p.actual false

/-- The loop of `SNEPPX_data_pipeline_shuffle` from place `i` down; `draw` is what the generator gives there. -/
def shuffleFrom (draw : ℕ → ℕ) : ℕ → List ℕ → List ℕ
  | 0, indices => indices
  | i + 1, indices => shuffleFrom draw i (swap indices (i + 1) (min (draw (i + 1)) (i + 1)))

/-- `SNEPPX_data_pipeline_shuffle`. -/
def shuffle (draw : ℕ → ℕ) (p : Pipeline V) : Call V :=
  match p.shuffleIndices with
  | none => ⟨p, false, none⟩
  | some indices =>
    if p.numSamples < 2 then ⟨p, false, none⟩
    else
      ⟨{ p with shuffleIndices := some (shuffleFrom draw (p.numSamples - 1) indices), currentPos := 0 }, true,
        none⟩

/-! ## Runs -/

inductive Op where
  | getBatch (mem : Memory)
  | shuffle (draw : ℕ → ℕ)

def call (p : Pipeline V) : Op → Option (Call V)
  | .getBatch mem => getBatch mem p
  | .shuffle draw => some (shuffle draw p)

/-- The order in which a pipeline reads its rows. -/
def Pipeline.order (p : Pipeline V) : List ℕ := p.shuffleIndices.getD (List.range p.numSamples)

/-- The batches that have been returned between two resets, with the order at the first of them. -/
structure Pass (V : Type*) where
  order : List ℕ
  batches : List (List (Row V))

def Pass.rows (e : Pass V) : List (Row V) := e.batches.flatten

/-- What has been returned: the passes that a wrap-around or a shuffle has ended, and the last one. `unserved` is
the memory of the calls that have returned no rows. -/
structure Log (V : Type*) where
  wrapped : List (Pass V)
  shuffled : List (Pass V)
  current : Pass V
  unserved : List Memory

/-- Before the first call. -/
def Log.start (order : List ℕ) : Log V := ⟨[], [], ⟨order, []⟩, []⟩

def Log.passes (log : Log V) : List (Pass V) := log.current :: (log.wrapped ++ log.shuffled)

/-- The end of a pass. -/
def Log.close (log : Log V) (order : List ℕ) : Op → Log V
  | .getBatch _ => ⟨log.current :: log.wrapped, log.shuffled, ⟨order, []⟩, log.unserved⟩
  | .shuffle _ => ⟨log.wrapped, log.current :: log.shuffled, ⟨order, []⟩, log.unserved⟩

def Log.push (log : Log V) (rows : List (Row V)) : Log V :=
  { log with current := { log.current with batches := log.current.batches ++ [rows] } }

/-- A call without rows. -/
def Log.miss (log : Log V) : Op → Log V
  | .getBatch mem => { log with unserved := mem :: log.unserved }
  | .shuffle _ => log

def Log.add (log : Log V) (op : Op) (c : Call V) : Log V :=
  let log := if c.reset then log.close c.pipe.order op else log
  match c.rows with
  | none => log.miss op
  | some rows => log.push rows

def run : List Op → Pipeline V → Log V → Option (Pipeline V × Log V)
  | [], p, log => some (p, log)
  | op :: ops, p, log => (call p op).bind fun c => run ops c.pipe (log.add op c)

/-! ## What it should return -/

/-- The batch size is a `size_t` and not 0, and the buffers hold the rows. -/
structure HoldsRows (p : Pipeline V) : Prop where
  batch : 0 < p.batchSize ∧ p.batchSize < 2 ^ 64
  samples : 0 < p.numSamples
  features : 0 < p.numFeatures
  labels : p.numLabels = 1
  data : p.dataBuffer.length = p.numSamples * p.numFeatures
  label : p.labelBuffer.length = p.numSamples * p.numLabels

/-- What `SNEPPX_data_pipeline_load` leaves in a pipeline. The indices are missing if there was no memory for
them. -/
structure Loaded (p : Pipeline V) : Prop extends HoldsRows p where
  indices : p.shuffleIndices = none ∨ p.shuffleIndices = some (List.range p.numSamples)
  pos : p.currentPos = 0

/-- The bytes of the two buffers. -/
def Pipeline.bytes (p : Pipeline V) : ℕ := (p.dataBuffer.length + p.labelBuffer.length) * 4

/-- There is memory for as much as the pipeline holds, and for the tensors. -/
def Memory.Ample (mem : Memory) (p : Pipeline V) : Prop :=
  (∀ size ≤ p.bytes, mem.buffer size = true) ∧ mem.batch = true ∧ mem.labels = true

/-- In a pass the calls return the rows in the order of a permutation, and at least one row each. If the pass
has ended because no row was left, these are all rows. A call returns rows if there is memory for them, unless
the position and the batch size can overflow. -/
structure Log.Good (p : Pipeline V) (log : Log V) : Prop where
  perm : ∀ e ∈ log.passes, e.order.Perm (List.range p.numSamples)
  rows : ∀ e ∈ log.passes, e.rows <+: e.order.map p.row
  nonempty : ∀ e ∈ log.passes, ∀ b ∈ e.batches, b ≠ []
  whole : ∀ e ∈ log.wrapped, e.rows = e.order.map p.row
  served : p.numSamples + p.batchSize < 2 ^ 64 → ∀ mem ∈ log.unserved, ¬mem.Ample p

/-! ## One call -/

section

variable {p : Pipeline V}

theorem shuffleFrom_perm (draw : ℕ → ℕ) (i : ℕ) (indices : List ℕ) :
    (shuffleFrom draw i indices).Perm indices := by
  induction i generalizing indices with
  | zero => exact List.Perm.refl _
  | succ i ih => exact (ih _).trans (swap_perm _ _ _)

/-- What holds of a pipeline that has been loaded, after any calls. -/
structure Valid (p : Pipeline V) : Prop extends HoldsRows p where
  perm : p.order.Perm (List.range p.numSamples)
  pos : p.currentPos ≤ p.numSamples

theorem Loaded.valid (h : Loaded p) : Valid p :=
  { h with
    perm := by
      rcases h.indices with hnone | hsome
      · rw [Pipeline.order, hnone, Option.getD_none]
      · rw [Pipeline.order, hsome, Option.getD_some]
    pos := by
      rw [h.pos]
      exact Nat.zero_le _ }

theorem Valid.length_order (h : Valid p) : p.order.length = p.numSamples := by
  rw [h.perm.length_eq, List.length_range]

theorem Valid.copyRow (h : Valid p) {idx : ℕ} (hidx : idx < p.numSamples) : p.copyRow idx = some (p.row idx) := by
  refine if_pos ⟨?_, ?_⟩
  · rw [h.data]
    exact Nat.mul_le_mul_right _ hidx
  · rw [h.label]
    exact Nat.mul_le_mul_right _ hidx

theorem Valid.indexAt (h : Valid p) {k : ℕ} (hk : k < p.order.length) : p.indexAt k = some p.order[k] := by
  have hsamples : k < p.numSamples := h.length_order ▸ hk
  rw [← List.getElem?_eq_getElem]
  cases hindices : p.shuffleIndices with
  | none => simp [Pipeline.indexAt, Pipeline.order, hindices, hsamples]
  | some indices => simp [Pipeline.indexAt, Pipeline.order, hindices]

def Pipeline.rest (p : Pipeline V) : List (Row V) := (p.order.map p.row).drop p.currentPos

theorem zipWith_rows (rows : List (Row V)) :
    List.zipWith Row.mk (rows.map Row.features) (rows.map Row.labels) = rows := by
  induction rows with
  | nil => rfl
  | cons row rows ih => rw [List.map_cons, List.map_cons, List.zipWith_cons_cons, ih]

theorem Valid.granted (h : Valid p) {mem : Memory} (hmem : mem.Ample p) {actual : ℕ} (hactual : actual ≤ p.numSamples) :
    mem.buffer (actual * p.numFeatures * 4 % 2 ^ 64) && mem.buffer (actual * p.numLabels * 4 % 2 ^ 64) := by
  have hdata : actual * p.numFeatures ≤ p.dataBuffer.length := h.data ▸ Nat.mul_le_mul_right _ hactual
  have hlabel : actual * p.numLabels ≤ p.labelBuffer.length := h.label ▸ Nat.mul_le_mul_right _ hactual
  have hle {size : ℕ} (hsize : size * 4 ≤ p.bytes) : mem.buffer (size * 4 % 2 ^ 64) = true :=
    hmem.1 _ ((Nat.mod_le _ _).trans hsize)
  rw [Pipeline.bytes] at hle
  rw [hle (by omega), hle (by omega), Bool.and_self]

/-- The call returns -1 for want of memory, or it returns the next rows. -/
theorem Valid.readBatch (h : Valid p) {mem : Memory} (htensors : mem.batch = true ∧ mem.labels = true) {actual : ℕ}
    (hactual : p.currentPos + actual ≤ p.numSamples) (reset : Bool) :
    (p.readBatch mem actual reset = some ⟨p, reset, none⟩ ∧ ¬mem.Ample p) ∨
      ∃ c, p.readBatch mem actual reset = some c ∧ c.pipe = { p with currentPos := p.currentPos + actual } ∧
        c.reset = reset ∧ c.rows = some (p.rest.take actual) := by
  by_cases hgrant : mem.buffer (actual * p.numFeatures * 4 % 2 ^ 64) && mem.buffer (actual * p.numLabels * 4 % 2 ^ 64)
  · have hlen : p.rest.length = p.numSamples - p.currentPos := by
      rw [Pipeline.rest, List.length_drop, List.length_map, h.length_order]
    refine .inr ⟨⟨{ p with currentPos := p.currentPos + actual }, reset,
      some (some ((p.rest.take actual).map Row.features), some ((p.rest.take actual).map Row.labels))⟩, ?_, rfl, rfl,
      congrArg some (zipWith_rows _)⟩
    rw [Pipeline.readBatch, if_pos hgrant,
      Lib.Loops.mapM_range_eq_some (l := p.rest) (by omega) fun i hi => ?_, htensors.1, htensors.2]
    · rfl
    · have hlt : p.currentPos + i < p.order.length := by
        rw [h.length_order]
        omega
      have hmem := h.perm.mem_iff.mp (List.getElem_mem hlt)
      rw [h.indexAt hlt, Option.bind_some, h.copyRow (List.mem_range.mp hmem)]
      simp [Pipeline.rest]
  · exact .inl ⟨if_neg hgrant, fun hmem => hgrant (h.granted hmem (by omega))⟩

theorem Valid.actual_cases (h : Valid p) :
    (p.actual = 0 ∧ p.currentPos = p.numSamples) ∨ (0 < p.actual ∧ p.currentPos + p.actual ≤ p.numSamples) ∨
      (p.actual = p.batchSize ∧ 2 ^ 64 ≤ p.currentPos + p.batchSize) := by
  have hbatch := h.batch
  have hpos := h.pos
  rw [Pipeline.actual]
  split_ifs with hlast
  · omega
  · omega

/-- A batch size with which the sum overflows is close to `2 ^ 64`. The buffers that are already there leave
no room for such a batch. -/
theorem Valid.buffer_eq_false (h : Valid p) {mem : Memory}
    (hspace : ∀ size, mem.buffer size = true → size + p.bytes ≤ 2 ^ 64)
    (hover : 2 ^ 64 ≤ p.currentPos + p.batchSize) : mem.buffer (p.batchSize * p.numFeatures * 4 % 2 ^ 64) = false := by
  by_contra hgrant
  have hle := hspace _ (by simpa using hgrant)
  have hlt := h.batch.2
  have hpos := h.pos
  have hsum : p.batchSize * p.numFeatures + (2 ^ 64 - p.batchSize) * p.numFeatures = 2 ^ 64 * p.numFeatures := by
    rw [← Nat.add_mul, Nat.add_sub_cancel' (Nat.le_of_lt hlt)]
  have hfew : (2 ^ 64 - p.batchSize) * p.numFeatures ≤ p.numSamples * p.numFeatures :=
    Nat.mul_le_mul_right _ (by omega)
  have hsome : 0 < (2 ^ 64 - p.batchSize) * p.numFeatures := Nat.mul_pos (by omega) h.features
  have hsamples := h.samples
  rw [Pipeline.bytes, h.data, h.label, h.labels] at hle
  omega

/-- What a call of `SNEPPX_data_pipeline_get_batch` does. -/
theorem Valid.getBatch (h : Valid p) {mem : Memory} (htensors : mem.batch = true ∧ mem.labels = true)
    (hspace : ∀ size, mem.buffer size = true → size + p.bytes ≤ 2 ^ 64) :
    ∃ q reset, ((reset = false ∧ q = p) ∨
        (reset = true ∧ p.currentPos = p.numSamples ∧ q = { p with currentPos := 0 })) ∧
      ((getBatch mem p = some ⟨q, reset, none⟩ ∧ (p.numSamples + p.batchSize < 2 ^ 64 → ¬mem.Ample p)) ∨
        ∃ k c, 0 < k ∧ q.currentPos + k ≤ p.numSamples ∧ getBatch mem p = some c ∧
          c.pipe = { q with currentPos := q.currentPos + k } ∧ c.reset = reset ∧ c.rows = some (q.rest.take k)) := by
  have hsamples := h.samples
  have hbatch := h.batch
  rw [DataPipeline.getBatch, if_neg (by omega)]
  rcases h.actual_cases with ⟨hzero, hend⟩ | ⟨hsome, hfits⟩ | ⟨hactual, hover⟩
  · have hvalid : Valid { p with currentPos := 0 } := { h with pos := Nat.zero_le _ }
    have hk : 0 + min p.batchSize p.numSamples ≤ p.numSamples := by omega
    refine ⟨{ p with currentPos := 0 }, true, .inr ⟨rfl, hend, rfl⟩, ?_⟩
    rw [if_pos hzero]
    rcases hvalid.readBatch htensors hk true with ⟨hread, hfew⟩ | ⟨c, hread⟩
    · exact .inl ⟨hread, fun _ => hfew⟩
    · exact .inr ⟨_, c, by omega, hk, hread⟩
  · refine ⟨p, false, .inl ⟨rfl, rfl⟩, ?_⟩
    rw [if_neg (by omega)]
    rcases h.readBatch htensors hfits false with ⟨hread, hfew⟩ | ⟨c, hread⟩
    · exact .inl ⟨hread, fun _ => hfew⟩
    · exact .inr ⟨_, c, hsome, hfits, hread⟩
  · have hpos := h.pos
    refine ⟨p, false, .inl ⟨rfl, rfl⟩, .inl ⟨?_, fun hsmall => absurd hsmall (by omega)⟩⟩
    rw [if_neg (by omega), Pipeline.readBatch, hactual, h.buffer_eq_false hspace hover]
    rfl

/-! ## Any calls -/

variable {p₀ q : Pipeline V} {log : Log V}

theorem Log.Good.close (h : log.Good p) {order : List ℕ} (hperm : order.Perm (List.range p.numSamples)) {op : Op}
    (hwhole : ∀ mem, op = .getBatch mem → log.current.rows = log.current.order.map p.row) :
    (log.close order op).Good p := by
  have hnew : ∀ e ∈ (log.close order op).passes, e = ⟨order, []⟩ ∨ e ∈ log.passes := by
    intro e he
    cases op <;> simpa [Log.close, Log.passes, or_left_comm] using he
  have hunserved : (log.close order op).unserved = log.unserved := by cases op <;> rfl
  refine ⟨fun e he => ?_, fun e he => ?_, fun e he => ?_, fun e he => ?_, hunserved ▸ h.served⟩
  · rcases hnew e he with rfl | he
    · exact hperm
    · exact h.perm e he
  · rcases hnew e he with rfl | he
    · exact List.nil_prefix
    · exact h.rows e he
  · rcases hnew e he with rfl | he
    · simp
    · exact h.nonempty e he
  · cases op with
    | getBatch mem =>
      rcases List.mem_cons.mp he with rfl | he
      · exact hwhole mem rfl
      · exact h.whole e he
    | shuffle draw => exact h.whole e he

theorem Log.Good.push (h : log.Good p) {rows : List (Row V)} (hrows : rows ≠ [])
    (hpre : log.current.rows ++ rows <+: log.current.order.map p.row) : (log.push rows).Good p := by
  have hcurrent : log.current ∈ log.passes := List.mem_cons_self
  have hold : ∀ e ∈ log.wrapped ++ log.shuffled, e ∈ log.passes := fun e he => List.mem_cons_of_mem _ he
  refine ⟨?_, ?_, ?_, h.whole, h.served⟩
  · exact List.forall_mem_cons.mpr ⟨h.perm log.current hcurrent, fun e he => h.perm e (hold e he)⟩
  · refine List.forall_mem_cons.mpr ⟨?_, fun e he => h.rows e (hold e he)⟩
    simpa [Log.push, Pass.rows] using hpre
  · refine List.forall_mem_cons.mpr ⟨fun b hb => ?_, fun e he => h.nonempty e (hold e he)⟩
    rcases List.mem_append.mp hb with hb | hb
    · exact h.nonempty _ hcurrent b hb
    · exact List.mem_singleton.mp hb ▸ hrows

theorem Log.Good.miss (h : log.Good p) {mem : Memory} (hfew : p.numSamples + p.batchSize < 2 ^ 64 → ¬mem.Ample p) :
    (log.miss (.getBatch mem)).Good p :=
  { h with served := fun hsmall => List.forall_mem_cons.mpr ⟨hfew hsmall, h.served hsmall⟩ }

/-- The rows of the last pass are those in front of the position. -/
structure Inv (p₀ p : Pipeline V) (log : Log V) : Prop extends log.Good p₀ where
  valid : Valid p
  samples : p.numSamples = p₀.numSamples
  batch : p.batchSize = p₀.batchSize
  row : p.row = p₀.row
  bytes : p.bytes = p₀.bytes
  order : log.current.order = p.order
  read : log.current.rows = (p.order.map p.row).take p.currentPos

theorem Loaded.inv (h : Loaded p) : Inv p p (.start p.order) where
  perm := by simpa [Log.start, Log.passes] using h.valid.perm
  rows := by simp [Log.start, Log.passes, Pass.rows]
  nonempty := by simp [Log.start, Log.passes]
  whole := by simp [Log.start]
  served := by simp [Log.start]
  valid := h.valid
  samples := rfl
  batch := rfl
  row := rfl
  bytes := rfl
  order := rfl
  read := by simp [Log.start, Pass.rows, h.pos]

theorem Inv.push (h : Inv p₀ p log) {k : ℕ} (hk : 0 < k) (hfits : p.currentPos + k ≤ p.numSamples) :
    Inv p₀ { p with currentPos := p.currentPos + k } (log.push (p.rest.take k)) := by
  have htake : (p.order.map p.row).take p.currentPos ++ p.rest.take k =
      (p.order.map p.row).take (p.currentPos + k) := by
    rw [Pipeline.rest, List.take_add]
  have hlen : p.rest.length = p.numSamples - p.currentPos := by
    rw [Pipeline.rest, List.length_drop, List.length_map, h.valid.length_order]
  have hgood : (log.push (p.rest.take k)).Good p₀ := by
    refine h.toGood.push (List.ne_nil_of_length_pos ?_) ?_
    · rw [List.length_take]
      omega
    · rw [h.read, htake, h.order, ← h.row]
      exact List.take_prefix _ _
  exact
    { hgood with
      valid := { h.valid with pos := hfits }
      samples := h.samples
      batch := h.batch
      row := h.row
      bytes := h.bytes
      order := h.order
      read := by
        change (log.current.batches ++ [p.rest.take k]).flatten = (p.order.map p.row).take (p.currentPos + k)
        rw [← htake, ← h.read]
        simp [Pass.rows] }

theorem Inv.close (h : Inv p₀ p log) {op : Op} (hq : Valid q) (hsamples : q.numSamples = p.numSamples)
    (hbatch : q.batchSize = p.batchSize) (hrow : q.row = p.row) (hbytes : q.bytes = p.bytes) (hpos : q.currentPos = 0)
    (hwhole : ∀ mem, op = .getBatch mem → p.currentPos = p.numSamples) : Inv p₀ q (log.close q.order op) := by
  have hgood : (log.close q.order op).Good p₀ := by
    refine h.toGood.close ?_ fun mem hop => ?_
    · rw [← h.samples, ← hsamples]
      exact hq.perm
    · rw [h.read, h.order, ← h.row, hwhole mem hop, List.take_of_length_le]
      exact Nat.le_of_eq (by rw [List.length_map, h.valid.length_order])
  exact
    { hgood with
      valid := hq
      samples := hsamples.trans h.samples
      batch := hbatch.trans h.batch
      row := hrow.trans h.row
      bytes := hbytes.trans h.bytes
      order := by cases op <;> rfl
      read := by cases op <;> simp [Log.close, Pass.rows, hpos] }

theorem Inv.miss (h : Inv p₀ p log) {mem : Memory} (hfew : p₀.numSamples + p₀.batchSize < 2 ^ 64 → ¬mem.Ample p₀) :
    Inv p₀ p (log.miss (.getBatch mem)) :=
  { h.toGood.miss hfew with
    valid := h.valid
    samples := h.samples
    batch := h.batch
    row := h.row
    bytes := h.bytes
    order := h.order
    read := h.read }

theorem Inv.getBatch (h : Inv p₀ p log) {mem : Memory} (htensors : mem.batch = true ∧ mem.labels = true)
    (hspace : ∀ size, mem.buffer size = true → size + p₀.bytes ≤ 2 ^ 64) :
    ∃ c, getBatch mem p = some c ∧ Inv p₀ c.pipe (log.add (.getBatch mem) c) := by
  obtain ⟨q, reset, hreset, hcall⟩ := h.valid.getBatch htensors (h.bytes ▸ hspace)
  have hq : Inv p₀ q (if reset then log.close q.order (.getBatch mem) else log) := by
    rcases hreset with ⟨rfl, rfl⟩ | ⟨rfl, hend, rfl⟩
    · exact h
    · have hvalid : Valid { p with currentPos := 0 } := { h.valid with pos := Nat.zero_le _ }
      rw [if_pos rfl]
      exact h.close hvalid rfl rfl rfl rfl rfl fun _ _ => hend
  rcases hcall with ⟨hcall, hfew⟩ | ⟨k, c, hk, hfits, hcall, hpipe, rfl, hrows⟩
  · rw [h.samples, h.batch, Memory.Ample, h.bytes] at hfew
    exact ⟨_, hcall, hq.miss hfew⟩
  · have hsamples : q.numSamples = p.numSamples := hq.samples.trans h.samples.symm
    refine ⟨c, hcall, ?_⟩
    rw [Log.add, hrows, hpipe]
    exact hq.push hk (hsamples ▸ hfits)

theorem Inv.shuffle (h : Inv p₀ p log) (draw : ℕ → ℕ) :
    Inv p₀ (shuffle draw p).pipe (log.add (.shuffle draw) (shuffle draw p)) := by
  cases hindices : p.shuffleIndices with
  | none =>
    rw [DataPipeline.shuffle, hindices]
    exact h
  | some indices =>
    rw [DataPipeline.shuffle, hindices]
    dsimp only
    split_ifs with hfew
    · exact h
    · have hperm := h.valid.perm
      rw [Pipeline.order, hindices, Option.getD_some] at hperm
      have hvalid : Valid
          { p with shuffleIndices := some (shuffleFrom draw (p.numSamples - 1) indices), currentPos := 0 } :=
        { h.valid with perm := (shuffleFrom_perm draw _ indices).trans hperm, pos := Nat.zero_le _ }
      exact h.close hvalid rfl rfl rfl rfl rfl fun mem (hop : Op.shuffle draw = .getBatch mem) => by simp at hop

/-- A call that gets its buffers gets its tensors, and the buffers of the pipeline and those of a batch fit into 64
bits of addresses. -/
def Op.Provided (p : Pipeline V) : Op → Prop
  | .getBatch mem => (mem.batch = true ∧ mem.labels = true) ∧ ∀ size, mem.buffer size = true → size + p.bytes ≤ 2 ^ 64
  | .shuffle _ => True

theorem Inv.run (h : Inv p₀ p log) {ops : List Op} (hops : ∀ op ∈ ops, op.Provided p₀) :
    ∃ p' log', run ops p log = some (p', log') ∧ Inv p₀ p' log' := by
  induction ops generalizing p log with
  | nil => exact ⟨p, log, rfl, h⟩
  | cons op ops ih =>
    have hcall : ∃ c, call p op = some c ∧ Inv p₀ c.pipe (log.add op c) := by
      have hop := hops op List.mem_cons_self
      cases op with
      | getBatch mem => exact h.getBatch hop.1 hop.2
      | shuffle draw => exact ⟨_, rfl, h.shuffle draw⟩
    obtain ⟨c, hc, hinv⟩ := hcall
    obtain ⟨p', log', hrun, hinv'⟩ := ih hinv fun op hop => hops op (List.mem_cons_of_mem _ hop)
    exact ⟨p', log', by rw [DataPipeline.run, hc, Option.bind_some, hrun], hinv'⟩

end

/-- Between two resets of the position the calls return the rows once each, in the order of the indices. -/
theorem rows_good {p : Pipeline V} (h : Loaded p) {ops : List Op} (hops : ∀ op ∈ ops, op.Provided p) :
    ∃ p' log, run ops p (.start p.order) = some (p', log) ∧ log.Good p ∧
      log.current.order = p'.order ∧ log.current.rows.length = p'.currentPos := by
  obtain ⟨p', log, hrun, hinv⟩ := h.inv.run hops
  refine ⟨p', log, hrun, hinv.toGood, hinv.order, ?_⟩
  rw [hinv.read, List.length_take, List.length_map, hinv.valid.length_order]
  exact Nat.min_eq_left hinv.valid.pos

/-- Three rows, read two at a time. -/
def threeRows : Pipeline ℕ where
  batchSize := 2
  dataBuffer := [1, 2, 3, 4, 5, 6]
  labelBuffer := [10, 20, 30]
  numSamples := 3
  numFeatures := 2
  numLabels := 1
  shuffleIndices := some [0, 1, 2]
  currentPos := 0

theorem loaded_threeRows : Loaded threeRows :=
  { batch := by decide, samples := by decide, features := by decide, labels := rfl, data := rfl, label := rfl,
    indices := .inr rfl, pos := rfl }

/-- Memory for buffers, and for the tensors as given. -/
def memory (batch labels : Bool) : Memory := ⟨fun size => size ≤ 2 ^ 40, batch, labels⟩

/-- Two batches, a third one from the start again, and one more after a shuffle. -/
def threeRowsOps : List Op :=
  [.getBatch (memory true true), .getBatch (memory true true), .getBatch (memory true true), .shuffle fun _ => 0,
    .getBatch (memory true true)]

theorem rows_good_threeRows :
    ∃ p' log, run threeRowsOps threeRows (.start threeRows.order) = some (p', log) ∧
      log.Good threeRows ∧ log.current.order = p'.order ∧ log.current.rows.length = p'.currentPos := by
  refine rows_good loaded_threeRows fun op hop => ?_
  have hprovided : Op.Provided threeRows (.getBatch (memory true true)) := by
    refine ⟨⟨rfl, rfl⟩, fun size hsize => ?_⟩
    have hle : size ≤ 2 ^ 40 := of_decide_eq_true hsize
    have hbytes : threeRows.bytes = 36 := rfl
    omega
  simp only [threeRowsOps, List.mem_cons, List.not_mem_nil, or_false] at hop
  rcases hop with rfl | rfl | rfl | rfl | rfl
  · exact hprovided
  · exact hprovided
  · exact hprovided
  · exact trivial
  · exact hprovided

/-- A batch without a tensor for its labels, and the next one. -/
def lostOps : List Op := [.getBatch (memory true false), .getBatch (memory true true)]

/-- The first two rows are never returned. -/
theorem not_good_lost : Loaded threeRows ∧
    ¬∃ p' log, run lostOps threeRows (.start threeRows.order) = some (p', log) ∧ log.Good threeRows := by
  refine ⟨loaded_threeRows, ?_⟩
  rintro ⟨p', log, hrun, hgood⟩
  have hlog : log = ⟨[], [], ⟨[0, 1, 2], [[⟨[5, 6], [30]⟩]]⟩, [memory true false]⟩ :=
    congrArg Prod.snd (Option.some.inj hrun).symm
  have hrows := hgood.rows log.current List.mem_cons_self
  rw [hlog] at hrows
  exact absurd hrows (by decide)

end SneppxAlg.DataPipeline
