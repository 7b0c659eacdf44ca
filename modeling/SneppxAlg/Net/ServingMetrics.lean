import SneppxAlg.Fs.Safetensors
import SneppxAlg.Net.ServingEngine

/-!
# The latency histogram

The metrics of `net/http/serving_engine.c` and their export for Prometheus. Each latency is counted in the
first bucket whose bound is not below it, and in the last one if there is none. In the export a line
`le="b"` should give the number of all latencies up to `b`, but it gives the counter of the one bucket.

So with latencies in the lower buckets the lines are wrong, and the last one is also wrong with latencies
beyond its bound. The lines are right only if no latency is in one of the first 14 buckets, and if as many
are in the 15th as are beyond the last bound (`accurate_iff`).

Counters are integers without bound. A number that is printed from a `double` is a text of its own
(`FloatText`), since only its shape matters.
-/

namespace SneppxAlg.Serving

open Safetensors (ascii)

/-- `kBuckets`: bounds in microseconds. -/
def kBuckets : Fin 16 → ℤ :=
  ![50, 100, 250, 500, 1000, 2500, 5000, 10000, 25000, 50000, 100000, 250000, 500000, 1000000, 2500000,
    100000000]

local instance neZero_buckets : NeZero 16 := ⟨by decide⟩

def bucketLoop (us : ℤ) : List (Fin 16) → Fin 16
  | [] => 15
  | i :: is => if us ≤ kBuckets i then i else bucketLoop us is

/-- `bucket_index`. -/
def bucketIndex (us : ℤ) : Fin 16 := bucketLoop us (List.finRange 16)

/-- The engine with its metrics and the state of its warm-up. -/
structure MeteredEngine extends Engine where
  requests : ℤ
  errors : ℤ
  tokens : ℤ
  histogram : Fin 16 → ℤ
  latN : ℤ
  ready : Bool
  warmupDone : Bool
  warmupRemaining : ℤ

/-- `SNEPPX_serving_engine_create`. -/
def meteredCreate : MeteredEngine :=
  { engineCreate with
    requests := 0, errors := 0, tokens := 0, histogram := fun _ => 0, latN := 0, ready := false
    warmupDone := false, warmupRemaining := 0 }

/-- `SNEPPX_serving_record_request`, without the sums of the latencies. -/
def recordRequest (e : MeteredEngine) (latencyUs tokens : ℤ) (error : Bool) : MeteredEngine :=
  { e with
    requests := e.requests + 1
    errors := if error then e.errors + 1 else e.errors
    tokens := e.tokens + tokens
    latN := e.latN + 1
    histogram := Function.update e.histogram (bucketIndex latencyUs) (e.histogram (bucketIndex latencyUs) + 1) }

/-- `SNEPPX_serving_warmup_start`. -/
def warmupStart (e : MeteredEngine) : MeteredEngine :=
  { e with warmupRemaining := e.warmupIters, warmupDone := false }

/-- `SNEPPX_serving_warmup_tick`. -/
def warmupTick (e : MeteredEngine) (latencyUs tokens : ℤ) : MeteredEngine :=
  let e := if 0 < e.warmupRemaining then
    { recordRequest e latencyUs tokens false with warmupRemaining := e.warmupRemaining - 1 } else e
  if e.warmupRemaining ≤ 0 && !e.warmupDone then { e with warmupDone := true, ready := true } else e

/-! ## The export -/

/-- A number that `%f` or `%.3f` prints: digits with a sign and a point, or a word such as `inf`. -/
structure FloatText where
  text : List UInt8
  plain : ∀ b ∈ text, b ≠ 0x22 ∧ b ≠ 0x7B ∧ b ≠ 0x7D
  length_le : text.length ≤ 512

/-- `%lld` and `%d`. -/
def lld (v : ℤ) : List UInt8 :=
  if v < 0 then 0x2D :: Safetensors.decimal v.natAbs else Safetensors.decimal v.natAbs

/-- `%.3f` of a number of thousandths that is not negative. -/
def thousandths (n : ℕ) : List UInt8 :=
  let digit := Safetensors.decimal
  digit (n / 1000) ++ ascii "." ++ digit (n / 100 % 10) ++ digit (n / 10 % 10) ++ digit (n % 10)

/-- The bucket lines of the export: the bound, if it is not `+Inf`, and the exported count. -/
def bucketLines (e : MeteredEngine) : List (Option ℤ × ℤ) :=
  (List.finRange 16).map (fun i => (some (kBuckets i), e.histogram i)) ++ [(none, e.latN)]

def bucketText (line : Option ℤ × ℤ) : List UInt8 :=
  ascii "sneppx_latency_ms_bucket\x7ble=\"" ++
    (match line.1 with
      | some us => thousandths us.natAbs
      | none => ascii "+Inf") ++
    ascii "\"\x7d " ++ lld line.2 ++ ascii "\n"

/-- One counter or gauge with its two lines of comment. -/
def seriesText (name help kind : String) (value : List UInt8) : List UInt8 :=
  ascii "# HELP " ++ ascii name ++ ascii " " ++ ascii help ++ ascii "\n# TYPE " ++ ascii name ++
    ascii " " ++ ascii kind ++ ascii "\n" ++ ascii name ++ ascii " " ++ value ++ ascii "\n"

/-- `SNEPPX_serving_metrics_prometheus`: the text of an export that fits its buffer. -/
def metricsPrometheus (e : MeteredEngine) (sumMs throughput : FloatText) : List UInt8 :=
  seriesText "sneppx_serving_requests_total" "Total requests." "counter" (lld e.requests) ++
    seriesText "sneppx_serving_errors_total" "Total errors." "counter" (lld e.errors) ++
    seriesText "sneppx_serving_tokens_total" "Tokens generated." "counter" (lld e.tokens) ++
    seriesText "sneppx_serving_batches_total" "Batches drained." "counter" (lld e.batches) ++
    ascii "# HELP sneppx_latency_ms Latency histogram (ms) by bucket.\n" ++
    ascii "# TYPE sneppx_latency_ms histogram\n" ++
    (bucketLines e).flatMap bucketText ++
    ascii "sneppx_latency_ms_sum " ++ sumMs.text ++ ascii "\n" ++
    ascii "sneppx_latency_ms_count " ++ lld e.latN ++ ascii "\n" ++
    seriesText "sneppx_serving_ready" "1 if ready, 0 otherwise." "gauge" (lld (if e.ready then 1 else 0)) ++
    seriesText "sneppx_serving_models_loaded" "Number of registered models." "gauge"
      (lld e.models.length) ++
    seriesText "sneppx_serving_throughput_rps" "Requests per second." "gauge" throughput.text

/-! ## Runs -/

inductive MetricOp
  | configure (maxBatchSize batchTimeoutMs nWorkers warmupIters : ℤ)
  | record (latencyUs tokens : ℤ) (error : Bool)
  | warmupStart
  | warmupTick (latencyUs tokens : ℤ)

/-- One operation, and the latency that it records, if any. A tick records one while the warm-up lasts. -/
def MetricOp.step (e : MeteredEngine) : MetricOp → MeteredEngine × List ℤ
  | .configure maxBatchSize batchTimeoutMs nWorkers warmupIters =>
    ({ e with toEngine := Serving.configure e.toEngine maxBatchSize batchTimeoutMs nWorkers warmupIters }, [])
  | .record latencyUs tokens error => (recordRequest e latencyUs tokens error, [latencyUs])
  | .warmupStart => (Serving.warmupStart e, [])
  | .warmupTick latencyUs tokens =>
    (Serving.warmupTick e latencyUs tokens, if 0 < e.warmupRemaining then [latencyUs] else [])

/-- The engine after some operations, and the latencies that have been recorded. -/
def metricRun : MeteredEngine → List MetricOp → MeteredEngine × List ℤ
  | e, [] => (e, [])
  | e, op :: ops =>
    let r := op.step e
    let later := metricRun r.1 ops
    (later.1, r.2 ++ later.2)

/-- The latencies that a line is about. -/
def Below (bound : Option ℤ) (us : ℤ) : Prop := ∀ b ∈ bound, us ≤ b

instance (bound : Option ℤ) : DecidablePred (Below bound) := fun us =>
  inferInstanceAs (Decidable (∀ b ∈ bound, us ≤ b))

/-- Each bucket line gives the number of latencies up to its bound. -/
def Accurate (e : MeteredEngine) (recorded : List ℤ) : Prop :=
  ∀ line ∈ bucketLines e, line.2 = recorded.countP fun us => decide (Below line.1 us)

/-! ## What is counted -/

/-- The counters after some latencies. -/
structure Counts (e : MeteredEngine) (recorded : List ℤ) : Prop where
  histogram : ∀ i, e.histogram i = recorded.countP fun us => bucketIndex us == i
  latN : e.latN = recorded.length

variable {e : MeteredEngine} {recorded : List ℤ}

theorem Counts.record (h : Counts e recorded) (us tokens : ℤ) (error : Bool) :
    Counts (recordRequest e us tokens error) (recorded ++ [us]) := by
  constructor
  · intro i
    rw [List.countP_append, List.countP_singleton, recordRequest]
    dsimp only
    by_cases hi : bucketIndex us = i
    · subst hi
      simp [h.histogram]
    · rw [Function.update_of_ne (Ne.symm hi), h.histogram]
      simp [hi]
  · simp [recordRequest, h.latN]

theorem Counts.of_eq {e' : MeteredEngine} (h : Counts e recorded) (hhist : e'.histogram = e.histogram)
    (hn : e'.latN = e.latN) : Counts e' recorded :=
  ⟨fun i => hhist ▸ h.histogram i, hn ▸ h.latN⟩

theorem Counts.step (h : Counts e recorded) (op : MetricOp) :
    Counts (op.step e).1 (recorded ++ (op.step e).2) := by
  cases op with
  | configure maxBatchSize batchTimeoutMs nWorkers warmupIters =>
    exact (List.append_nil recorded).symm ▸ h.of_eq rfl rfl
  | record latencyUs tokens error => exact h.record latencyUs tokens error
  | warmupStart => exact (List.append_nil recorded).symm ▸ h.of_eq rfl rfl
  | warmupTick latencyUs tokens =>
    simp only [MetricOp.step, Serving.warmupTick]
    by_cases hwarm : 0 < e.warmupRemaining
    · simp only [if_pos hwarm]
      split_ifs
      · exact (h.record latencyUs tokens false).of_eq rfl rfl
      · exact (h.record latencyUs tokens false).of_eq rfl rfl
    · simp only [if_neg hwarm, List.append_nil]
      split_ifs
      · exact h.of_eq rfl rfl
      · exact h

theorem Counts.run (h : Counts e recorded) (ops : List MetricOp) :
    Counts (metricRun e ops).1 (recorded ++ (metricRun e ops).2) := by
  induction ops generalizing e recorded with
  | nil => simpa [metricRun] using h
  | cons op ops ih =>
    have hrest := ih (h.step op)
    rwa [List.append_assoc] at hrest

theorem counts_run (ops : List MetricOp) :
    Counts (metricRun meteredCreate ops).1 (metricRun meteredCreate ops).2 :=
  @Counts.run meteredCreate [] ⟨fun _ => rfl, rfl⟩ ops

/-! ## Buckets -/

theorem bucketLoop_mem {us : ℤ} {is js : List (Fin 16)} (h : ∃ i ∈ is, us ≤ kBuckets i) :
    bucketLoop us (is ++ js) ∈ is := by
  induction is with
  | nil => simp at h
  | cons i is ih =>
    rw [List.cons_append, bucketLoop]
    split_ifs with hi
    · exact List.mem_cons_self
    · refine List.mem_cons_of_mem i (ih ?_)
      obtain ⟨j, hj, hus⟩ := h
      rcases List.mem_cons.mp hj with rfl | hmem
      · exact absurd hus hi
      · exact ⟨j, hmem, hus⟩

theorem bucketLoop_append {us : ℤ} {is js : List (Fin 16)} (h : ∀ i ∈ is, kBuckets i < us) :
    bucketLoop us (is ++ js) = bucketLoop us js := by
  induction is with
  | nil => rfl
  | cons i is ih =>
    rw [List.cons_append, bucketLoop, if_neg (by simpa using h i List.mem_cons_self)]
    exact ih fun j hj => h j (List.mem_cons_of_mem i hj)

/-- The buckets up to one second. -/
def lowBuckets : List (Fin 16) := [0, 1, 2, 3, 4, 5, 6, 7, 8, 9, 10, 11, 12, 13]

theorem finRange_eq : List.finRange 16 = lowBuckets ++ [14, 15] := by decide

theorem kBuckets_le_of_low : ∀ i ∈ lowBuckets, kBuckets i ≤ 1000000 := by decide

theorem bucketIndex_mem_low {us : ℤ} (h : us ≤ 1000000) : bucketIndex us ∈ lowBuckets := by
  rw [bucketIndex, finRange_eq]
  exact bucketLoop_mem ⟨13, by decide, h⟩

theorem bucketIndex_of_high {us : ℤ} (h : 1000000 < us) :
    bucketIndex us = if us ≤ 2500000 then 14 else 15 := by
  rw [bucketIndex, finRange_eq, bucketLoop_append fun i hi => lt_of_le_of_lt (kBuckets_le_of_low i hi) h]
  have h14 : kBuckets 14 = 2500000 := rfl
  simp [bucketLoop, h14]

theorem bucketIndex_eq_last_iff {us : ℤ} : bucketIndex us = 15 ↔ 2500000 < us := by
  by_cases hus : us ≤ 1000000
  · have hne : bucketIndex us ≠ 15 := fun heq => absurd (heq ▸ bucketIndex_mem_low hus) (by decide)
    exact iff_of_false hne (by omega)
  · rw [bucketIndex_of_high (by omega)]
    split_ifs with h
    · exact iff_of_false (by decide) (by omega)
    · exact iff_of_true rfl (by omega)

theorem bucketIndex_eq_14_iff {us : ℤ} : bucketIndex us = 14 ↔ 1000000 < us ∧ us ≤ 2500000 := by
  by_cases hus : us ≤ 1000000
  · have hne : bucketIndex us ≠ 14 := fun heq => absurd (heq ▸ bucketIndex_mem_low hus) (by decide)
    exact iff_of_false hne (by omega)
  · rw [bucketIndex_of_high (by omega)]
    split_ifs with h
    · exact iff_of_true rfl (by omega)
    · exact iff_of_false (by decide) (by omega)

/-! ## The lines -/

theorem accurate_iff_counts (h : Counts e recorded) :
    Accurate e recorded ↔
      ∀ i, (recorded.countP fun us => bucketIndex us == i) = recorded.countP fun us => us ≤ kBuckets i := by
  constructor
  · intro haccurate i
    have hline := haccurate (some (kBuckets i), e.histogram i)
      (List.mem_append_left _ (List.mem_map.mpr ⟨i, List.mem_finRange i, rfl⟩))
    rw [h.histogram] at hline
    simpa [Below] using hline
  · intro hcounts line hline
    rcases List.mem_append.mp hline with hmem | hmem
    · obtain ⟨i, -, rfl⟩ := List.mem_map.mp hmem
      rw [h.histogram]
      simpa [Below] using hcounts i
    · obtain rfl := List.mem_singleton.mp hmem
      simp [Below, h.latN]

/-- Counts of the latencies above and below a bound. -/
theorem countP_split (recorded : List ℤ) (b : ℤ) :
    (recorded.countP fun us => us ≤ b) + (recorded.countP fun us => b < us) = recorded.length := by
  rw [List.length_eq_countP_add_countP fun us => decide (us ≤ b)]
  refine congrArg _ (List.countP_congr fun us _ => ?_)
  simp

theorem mem_imp_of_countP_eq {p q : ℤ → Bool} (himp : ∀ us ∈ recorded, p us → q us)
    (h : recorded.countP p = recorded.countP q) : ∀ us ∈ recorded, q us → p us := by
  induction recorded with
  | nil => simp
  | cons us rest ih =>
    have himp' : ∀ us ∈ rest, p us → q us := fun us' hmem => himp us' (List.mem_cons_of_mem us hmem)
    have hle := List.countP_mono_left himp'
    have hhead := himp us List.mem_cons_self
    rw [List.countP_cons, List.countP_cons] at h
    have htail : rest.countP p = rest.countP q ∧ (q us → p us) := by
      cases hp : p us <;> cases hq : q us <;> simp_all
    intro us' hmem
    rcases List.mem_cons.mp hmem with rfl | hmem'
    · exact htail.2
    · exact ih himp' htail.1 us' hmem'

/-- For every run of recordings and warm-up ticks. -/
theorem accurate_iff (ops : List MetricOp) :
    Accurate (metricRun meteredCreate ops).1 (metricRun meteredCreate ops).2 ↔
      (∀ us ∈ (metricRun meteredCreate ops).2, 1000000 < us) ∧
        ((metricRun meteredCreate ops).2.countP fun us => us ≤ 2500000) =
          (metricRun meteredCreate ops).2.countP fun us => 100000000 < us := by
  rw [accurate_iff_counts (counts_run ops)]
  generalize (metricRun meteredCreate ops).2 = recorded
  have hlast : (recorded.countP fun us => bucketIndex us == 15) = recorded.countP fun us => 2500000 < us :=
    List.countP_congr fun us _ => by simpa using bucketIndex_eq_last_iff
  have h1 := countP_split recorded 2500000
  have h2 := countP_split recorded 100000000
  constructor
  · intro hcounts
    have h15 : _ = recorded.countP fun us => us ≤ 100000000 := hcounts 15
    rw [hlast] at h15
    refine ⟨fun us hmem => ?_, by omega⟩
    by_cases hus : us ≤ 2500000
    · have himp : ∀ us ∈ recorded, bucketIndex us == 14 → decide (us ≤ kBuckets 14) := by
        intro us _ h14
        exact decide_eq_true (bucketIndex_eq_14_iff.mp (by simpa using h14)).2
      have h14 := mem_imp_of_countP_eq himp (hcounts 14) us hmem (decide_eq_true hus)
      exact (bucketIndex_eq_14_iff.mp (by simpa using h14)).1
    · omega
  · rintro ⟨hhigh, hequal⟩ i
    have hi : i ∈ lowBuckets ∨ i = 14 ∨ i = 15 := by
      simpa [finRange_eq] using List.mem_finRange i
    rcases hi with hlow | rfl | rfl
    · have hbound := kBuckets_le_of_low i hlow
      rw [List.countP_eq_zero.mpr, List.countP_eq_zero.mpr]
      · intro us hmem
        have := hhigh us hmem
        simp
        omega
      · intro us hmem
        have hne : bucketIndex us ≠ i := by
          rw [bucketIndex_of_high (hhigh us hmem)]
          rintro rfl
          split_ifs at hlow <;> exact absurd hlow (by decide)
        simpa using hne
    · refine List.countP_congr fun us hmem => ?_
      have h14 : kBuckets 14 = 2500000 := rfl
      simpa [h14, hhigh us hmem] using @bucketIndex_eq_14_iff us
    · have h15 : kBuckets 15 = 100000000 := rfl
      rw [hlast, h15]
      omega

/-- After one request of 40 µs the line `le="0.100"` still gives 0. -/
theorem not_accurate_oneRequest :
    ¬ Accurate (metricRun meteredCreate [.record 40 1 false]).1
      (metricRun meteredCreate [.record 40 1 false]).2 := by
  rw [accurate_iff]
  decide

end SneppxAlg.Serving
