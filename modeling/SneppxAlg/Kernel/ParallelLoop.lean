import SneppxAlg.Kernel.ThreadPool
import SneppxAlg.Lib.Intervals

/-!
# `threadpool.c`: parallel loops

`SNEPPX_parallel_for` and `SNEPPX_parallel_reduce`. A range is cut into chunks of one size, and each becomes a
task of the pool. `order` is the order in which the pool finishes these tasks: whatever it is, each index is
passed once (`forOnce_iff`), and the reduction of the range is the same. But it is only for an empty range that
`init` is part of the result (`parallel_correct_iff`).

The order is one of a run of the pool (`schedule_of_run`) unless the wait returns too early, of which
`ThreadPool` is about. A buffer of `elem_size` bytes is one value; `none` is a call that does not return, or
whose behaviour is undefined.
-/

namespace SneppxAlg.ParallelLoop

open Lib.Intervals

/-! ## The chunks -/

/-- `chunk_size`. -/
def chunkSize (nthreads range : ℕ) : ℕ := (range + nthreads - 1) % 2 ^ 64 / nthreads

/-- `for (s = start; s < end; s += chunk_size)`, with the bounds of each turn. -/
def chunkLoop (chunk stop : ℕ) : ℕ → ℕ → Option (List (ℕ × ℕ))
  | 0, s => if s < stop then none else some []
  | fuel + 1, s =>
    if s < stop then
      (chunkLoop chunk stop fuel ((s + chunk) % 2 ^ 64)).map ((s, min ((s + chunk) % 2 ^ 64) stop) :: ·)
    else some []

/-- A loop that goes on for more turns than `s` has values does not end. -/
def chunks (nthreads start stop : ℕ) : Option (List (ℕ × ℕ)) :=
  chunkLoop (chunkSize nthreads (stop - start)) stop (2 ^ 64) start

/-- Which calls of `malloc` and `calloc` succeed: for the partial results, for the argument of the task of a
turn, and for its place in the deque. -/
structure Memory where
  partials : Bool
  taskArg : ℕ → Bool
  workNode : ℕ → Bool

/-- The turn hands its chunk over to the pool. -/
def Memory.submits (mem : Memory) (i : ℕ) : Bool := mem.taskArg i && mem.workNode i

/-! ## The loops -/

/-- `SNEPPX_parallel_for`: the bounds of the calls of `func`. -/
def parallelFor (mem : Memory) (nthreads start stop : ℕ) (order : List ℕ) : Option (List (ℕ × ℕ)) :=
  let range := stop - start
  if range = 0 then some []
  else if nthreads ≤ 1 ∨ range < 64 then some [(start, stop)]
  else
    (chunks nthreads start stop).map fun l =>
      (((List.range l.length).filter fun i => !mem.submits i) ++ order).filterMap (l[·]?)

/-- The callbacks of a reduction, the buffer of zeros, and `NULL` for the argument. -/
structure Reduction (α A : Type*) where
  zero : α
  null : A
  reduceFunc : ℕ → ℕ → A → α → α
  combineFunc : α → α → α

variable {α A : Type*} (op : Reduction α A)

/-- `reduce_task_func`, for the task of chunk `i`. -/
def reduceTask (userArg : A) (l : List (ℕ × ℕ)) (partials : List α) (i : ℕ) : List α :=
  match l[i]? with
  | some c => partials.set i (op.reduceFunc c.1 c.2 userArg op.zero)
  | none => partials

/-- The partial results of the chunks, and the loop that combines them. If the memory for an argument is missing,
the function returns at once, and the tasks that are already in the pool write to memory that is freed. -/
def reduceChunks (mem : Memory) (maxChunks : ℕ) (l : List (ℕ × ℕ)) (result : α) (userArg : A) (order : List ℕ) :
    Option α :=
  match (List.range l.length).find? fun i => !mem.taskArg i with
  | some i =>
    if (List.range i).any mem.workNode then none
    else l[i]?.map fun c => op.reduceFunc c.1 c.2 op.null result
  | none =>
    if maxChunks < l.length then none
    else
      match (order.foldl (reduceTask op userArg l) (List.replicate maxChunks op.zero)).take l.length with
      | [] => some result
      | p :: ps => some (ps.foldl op.combineFunc p)

/-- `SNEPPX_parallel_reduce`: the content of `result`. `init` may be `NULL`. -/
def parallelReduce (mem : Memory) (nthreads start stop : ℕ) (init : Option α) (userArg : A) (order : List ℕ) :
    Option α :=
  let range := stop - start
  let result := init.getD op.zero
  if range = 0 then some result
  else if nthreads ≤ 1 ∨ range < 64 then some (op.reduceFunc start stop userArg op.zero)
  else
    let chunk := chunkSize nthreads range
    if chunk = 0 then none
    else
      let numChunks := (range + chunk - 1) % 2 ^ 64 / chunk
      let maxChunks := min numChunks nthreads
      if mem.partials = false then some (op.reduceFunc start stop op.null result)
      else
        (chunks nthreads start stop).bind fun l => reduceChunks op mem maxChunks l result userArg order

/-! ## What is promised -/

/-- Each task that is handed over is finished once. -/
def Schedule (mem : Memory) (nthreads start stop : ℕ) (order : List ℕ) : Prop :=
  ∀ l, chunks nthreads start stop = some l → order.Perm ((List.range l.length).filter mem.submits)

def Memory.Suffices (mem : Memory) : Prop :=
  mem.partials = true ∧ (∀ i, mem.taskArg i = true) ∧ ∀ i, mem.workNode i = true

def Reduction.reduction (op : Reduction α A) (userArg : A) (s e : ℕ) : α := op.reduceFunc s e userArg op.zero

/-- Each index of the range is passed to the function once, and no other. -/
def ForOnce (nthreads start stop : ℕ) : Prop :=
  ∀ mem order, Schedule mem nthreads start stop order →
    ∃ calls, parallelFor mem nthreads start stop order = some calls ∧
      ∀ i, calls.countP (fun c => decide (c.1 ≤ i ∧ i < c.2)) = if start ≤ i ∧ i < stop then 1 else 0

/-- The reduction of the range, combined with the initial value. -/
def Reduces (nthreads start stop : ℕ) (init : Option α) (userArg : A) : Prop :=
  ∀ mem order, mem.Suffices → Schedule mem nthreads start stop order →
    parallelReduce op mem nthreads start stop init userArg order =
      some (op.combineFunc (init.getD op.zero) (op.reduction userArg start stop))

/-! ## The chunks are the range -/

variable {nthreads start stop : ℕ} {l : List (ℕ × ℕ)}

/-- Without a step the loop does not end. -/
theorem chunkLoop_zero {s : ℕ} (hs : s < stop) (hstop : stop < 2 ^ 64) (fuel : ℕ) :
    chunkLoop 0 stop fuel s = none := by
  induction fuel with
  | zero => rw [chunkLoop, if_pos hs]
  | succ fuel ih => rw [chunkLoop, if_pos hs, Nat.add_zero, Nat.mod_eq_of_lt (by omega), ih, Option.map_none]

theorem chunkLoop_spans {chunk fuel s : ℕ} (hpos : 0 < chunk) (hstop : stop + chunk < 2 ^ 64) (hs : s ≤ stop)
    (hfuel : stop - s ≤ fuel) :
    ∃ l, chunkLoop chunk stop fuel s = some l ∧ Spans s stop l ∧ l.length = (stop - s + chunk - 1) / chunk := by
  induction fuel generalizing s with
  | zero =>
    obtain rfl : s = stop := by omega
    refine ⟨[], by rw [chunkLoop, if_neg (lt_irrefl s)], .nil s, ?_⟩
    rw [Nat.sub_self, Nat.zero_add, Nat.div_eq_of_lt (by omega), List.length_nil]
  | succ fuel ih =>
    rcases hs.eq_or_lt with rfl | hlt
    · refine ⟨[], by rw [chunkLoop, if_neg (lt_irrefl s)], .nil s, ?_⟩
      rw [Nat.sub_self, Nat.zero_add, Nat.div_eq_of_lt (by omega), List.length_nil]
    · rw [chunkLoop, if_pos hlt, Nat.mod_eq_of_lt (by omega)]
      rcases Nat.lt_or_ge (s + chunk) stop with hnext | hlast
      · obtain ⟨l, hl, hspans, hlen⟩ := ih hnext.le (by omega)
        refine ⟨_, by rw [hl, Option.map_some, min_eq_left hnext.le], .cons (by omega) hspans, ?_⟩
        rw [List.length_cons, hlen, show stop - s + chunk - 1 = stop - (s + chunk) + chunk - 1 + chunk by omega,
          Nat.add_div_right _ hpos]
      · refine ⟨[(s, stop)], ?_, .cons hlt (.nil stop), ?_⟩
        · have hend : chunkLoop chunk stop fuel (s + chunk) = some [] := by
            cases fuel <;> rw [chunkLoop, if_neg (by omega)]
          rw [hend, Option.map_some, min_eq_right hlast]
        · rw [List.length_singleton]
          symm
          exact (Nat.div_eq_iff hpos).mpr ⟨by omega, by omega⟩

/-- The sum in `chunk_size` wraps around to less than the number of threads. -/
theorem chunkSize_eq_zero {range : ℕ} (hrange : range < 2 ^ 64) (hwrap : 2 ^ 64 < range + nthreads) :
    chunkSize nthreads range = 0 := by
  rw [chunkSize]
  refine Nat.div_eq_of_lt ?_
  rcases Nat.lt_or_ge nthreads (2 ^ 64) with hn | hn
  · have hmod : (range + nthreads - 1) % 2 ^ 64 = range + nthreads - 1 - 2 ^ 64 := by
      rw [Nat.mod_eq_sub_mod (by omega), Nat.mod_eq_of_lt (by omega)]
    omega
  · exact (Nat.mod_lt _ (by norm_num)).trans_le hn

/-- There are chunks of at least one index, and no more of them than threads. -/
theorem le_mul_chunkSize {range : ℕ} (hn : 0 < nthreads) (hrange : 0 < range) (hfit : range + nthreads ≤ 2 ^ 64) :
    0 < chunkSize nthreads range ∧ range ≤ chunkSize nthreads range * nthreads := by
  have hdiv : chunkSize nthreads range = (range + nthreads - 1) / nthreads := by
    rw [chunkSize, Nat.mod_eq_of_lt (by omega)]
  have hlt := Nat.lt_div_mul_add (a := range + nthreads - 1) hn
  rw [hdiv]
  exact ⟨Nat.div_pos (by omega) hn, by omega⟩

/-- The chunks of a range that is cut. -/
theorem chunks_spans (hn : 0 < nthreads) (hlt : start < stop) (hfit : stop - start + nthreads ≤ 2 ^ 64)
    (hend : stop + chunkSize nthreads (stop - start) < 2 ^ 64) :
    ∃ l, chunks nthreads start stop = some l ∧ Spans start stop l ∧ l.length ≤ nthreads ∧
      l.length = (stop - start + chunkSize nthreads (stop - start) - 1) / chunkSize nthreads (stop - start) := by
  obtain ⟨hpos, hle⟩ := le_mul_chunkSize hn (show 0 < stop - start by omega) hfit
  obtain ⟨l, hl, hspans, hlen⟩ := chunkLoop_spans hpos hend hlt.le (show stop - start ≤ 2 ^ 64 by omega)
  refine ⟨l, hl, hspans, ?_, hlen⟩
  rw [hlen]
  refine Nat.le_of_lt_succ ((Nat.div_lt_iff_lt_mul hpos).mpr ?_)
  rw [Nat.succ_mul, Nat.mul_comm]
  omega

/-! ## Each index once -/

theorem filterMap_range (l : List (ℕ × ℕ)) : (List.range l.length).filterMap (l[·]?) = l := by
  have hmap : (List.range l.length).map (l[·]?) = l.map some :=
    List.ext_getElem (by simp) fun i h _ => by simp at h; simp [h]
  calc (List.range l.length).filterMap (l[·]?) = ((List.range l.length).map (l[·]?)).filterMap id := by
        rw [List.filterMap_map, Function.id_comp]
    _ = l := by rw [hmap, List.filterMap_map, Function.id_comp, List.filterMap_some]

theorem exists_schedule (mem : Memory) (nthreads start stop : ℕ) : ∃ order, Schedule mem nthreads start stop order := by
  cases h : chunks nthreads start stop with
  | none => exact ⟨[], fun l hl => by simp [h] at hl⟩
  | some l =>
    refine ⟨(List.range l.length).filter mem.submits, fun l' hl => ?_⟩
    rw [h] at hl
    rw [Option.some.inj hl]

/-- The calls by the caller and by the workers are those of all chunks. -/
theorem calls_perm {mem : Memory} {order : List ℕ} (h : order.Perm ((List.range l.length).filter mem.submits)) :
    ((((List.range l.length).filter fun i => !mem.submits i) ++ order).filterMap (l[·]?)).Perm l := by
  have hall : (((List.range l.length).filter fun i => !mem.submits i) ++ order).Perm (List.range l.length) :=
    ((List.Perm.append_left _ h).trans List.perm_append_comm).trans (List.filter_append_perm _ _)
  have hperm := hall.filterMap (l[·]?)
  rwa [filterMap_range] at hperm

/-- Unless the sum for the size of the chunks wraps around, each index is passed once. -/
theorem forOnce_iff (hle : start ≤ stop) (hend : stop + chunkSize nthreads (stop - start) < 2 ^ 64) :
    ForOnce nthreads start stop ↔ nthreads ≤ 1 ∨ stop - start < 64 ∨ stop - start + nthreads ≤ 2 ^ 64 := by
  by_cases hempty : stop - start = 0
  · refine iff_of_true (fun mem order _ => ⟨[], if_pos hempty, fun i => ?_⟩) (.inr (.inl (by omega)))
    rw [List.countP_nil, if_neg (by omega)]
  by_cases hseq : nthreads ≤ 1 ∨ stop - start < 64
  · refine iff_of_true (fun mem order _ => ⟨[(start, stop)], ?_, fun i => ?_⟩) (by tauto)
    · rw [parallelFor]
      simp only [if_neg hempty, if_pos hseq]
    · exact (Spans.cons (by omega) (.nil stop)).countP_eq i
  have hfor : ∀ mem order, parallelFor mem nthreads start stop order = (chunks nthreads start stop).map fun l =>
      (((List.range l.length).filter fun i => !mem.submits i) ++ order).filterMap (l[·]?) := by
    intro mem order
    rw [parallelFor]
    simp only [if_neg hempty, if_neg hseq]
  have hthreads : nthreads ≤ 1 ∨ stop - start < 64 ∨ stop - start + nthreads ≤ 2 ^ 64 ↔
      stop - start + nthreads ≤ 2 ^ 64 := by tauto
  rw [hthreads]
  constructor
  · intro h
    by_contra hwrap
    obtain ⟨order, horder⟩ := exists_schedule ⟨true, fun _ => true, fun _ => true⟩ nthreads start stop
    obtain ⟨calls, hcalls, -⟩ := h _ order horder
    rw [hfor, chunks, chunkSize_eq_zero (by omega) (by omega), chunkLoop_zero (by omega) (by omega)] at hcalls
    cases hcalls
  · intro hfit mem order horder
    obtain ⟨l, hl, hspans, -⟩ := chunks_spans (by omega) (by omega) hfit hend
    refine ⟨_, by rw [hfor, hl, Option.map_some], fun i => ?_⟩
    rw [(calls_perm (horder l hl)).countP_eq, hspans.countP_eq]

/-! ## The reduction -/

variable {op} {userArg : A} {init : Option α}

theorem length_reduceTask (partials : List α) (i : ℕ) :
    (reduceTask op userArg l partials i).length = partials.length := by
  unfold reduceTask
  split
  · exact List.length_set
  · rfl

/-- A task writes to the place of its chunk only. -/
theorem getElem?_foldl_reduceTask {order : List ℕ} {partials : List α} {i : ℕ} {c : ℕ × ℕ} (hc : l[i]? = some c)
    (hi : i < partials.length) (h : i ∈ order ∨ partials[i]? = some (op.reduction userArg c.1 c.2)) :
    (order.foldl (reduceTask op userArg l) partials)[i]? = some (op.reduction userArg c.1 c.2) := by
  induction order generalizing partials with
  | nil => exact h.resolve_left List.not_mem_nil
  | cons j order ih =>
    rw [List.foldl_cons]
    refine ih (by rwa [length_reduceTask]) ?_
    by_cases hij : j = i
    · right
      subst hij
      rw [reduceTask, hc]
      exact List.getElem?_set_self hi
    · refine h.imp (fun hmem => (List.mem_cons.mp hmem).resolve_left (Ne.symm hij)) fun hold => ?_
      rw [← hold]
      unfold reduceTask
      split
      · exact List.getElem?_set_ne hij
      · rfl

theorem partials_eq {order : List ℕ} (horder : order.Perm (List.range l.length)) {maxChunks : ℕ}
    (hmax : l.length ≤ maxChunks) :
    (order.foldl (reduceTask op userArg l) (List.replicate maxChunks op.zero)).take l.length =
      l.map fun c => op.reduction userArg c.1 c.2 := by
  refine List.ext_getElem? fun i => ?_
  rw [List.getElem?_map]
  rcases Nat.lt_or_ge i l.length with hi | hi
  · have hc : l[i]? = some l[i] := List.getElem?_eq_getElem hi
    rw [List.getElem?_take_of_lt hi, hc, Option.map_some]
    refine getElem?_foldl_reduceTask hc (by rw [List.length_replicate]; omega) (.inl ?_)
    exact horder.mem_iff.mpr (List.mem_range.mpr hi)
  · rw [List.getElem?_take_eq_none hi, List.getElem?_eq_none hi, Option.map_none]

theorem reduceChunks_eq {mem : Memory} (hmem : mem.Suffices) {order : List ℕ}
    (horder : order.Perm (List.range l.length)) {maxChunks : ℕ} (hmax : l.length ≤ maxChunks) (hlt : start < stop)
    (hspans : Spans start stop l)
    (hr : ∀ s m e, s < m → m < e →
      op.combineFunc (op.reduction userArg s m) (op.reduction userArg m e) = op.reduction userArg s e)
    (result : α) :
    reduceChunks op mem maxChunks l result userArg order = some (op.reduction userArg start stop) := by
  have hfind : (List.range l.length).find? (fun i => !mem.taskArg i) = none :=
    List.find?_eq_none.mpr fun i _ => by simp [hmem.2.1 i]
  rw [reduceChunks, hfind]
  simp only [if_neg (not_lt.mpr hmax), partials_eq horder hmax]
  cases hspans with
  | nil => exact absurd hlt (lt_irrefl start)
  | cons hfirst hrest => exact congrArg some (hrest.foldl_eq hr hfirst)

/-- Whatever the number of threads and the order of the tasks, the result is the reduction of the range alone,
unless the range is empty. -/
theorem parallelReduce_eq {mem : Memory} (hmem : mem.Suffices) {order : List ℕ}
    (horder : Schedule mem nthreads start stop order) (hlt : start < stop)
    (hend : stop + chunkSize nthreads (stop - start) < 2 ^ 64)
    (hfit : nthreads ≤ 1 ∨ stop - start < 64 ∨ stop - start + nthreads ≤ 2 ^ 64)
    (hr : ∀ s m e, s < m → m < e →
      op.combineFunc (op.reduction userArg s m) (op.reduction userArg m e) = op.reduction userArg s e) :
    parallelReduce op mem nthreads start stop init userArg order = some (op.reduction userArg start stop) := by
  have hempty : ¬ stop - start = 0 := by omega
  rw [parallelReduce]
  by_cases hseq : nthreads ≤ 1 ∨ stop - start < 64
  · simp only [if_neg hempty, if_pos hseq]
    rfl
  have hfit' : stop - start + nthreads ≤ 2 ^ 64 := by tauto
  obtain ⟨hpos, -⟩ := le_mul_chunkSize (show 0 < nthreads by omega) (show 0 < stop - start by omega) hfit'
  obtain ⟨l, hl, hspans, hthreads, hlen⟩ := chunks_spans (show 0 < nthreads by omega) hlt hfit' hend
  have hall : (List.range l.length).filter mem.submits = List.range l.length :=
    List.filter_eq_self.mpr fun i _ => by simp [Memory.submits, hmem.2.1 i, hmem.2.2 i]
  have hnum : (stop - start + chunkSize nthreads (stop - start) - 1) % 2 ^ 64 / chunkSize nthreads (stop - start) =
      l.length := by
    rw [hlen, Nat.mod_eq_of_lt (by omega)]
  have hsmall : ¬ mem.partials = false := by simp [hmem.1]
  simp only [if_neg hempty, if_neg hseq, if_neg hpos.ne', if_neg hsmall, hl, Option.bind_some, hnum]
  exact reduceChunks_eq hmem (hall ▸ horder l hl) (le_min le_rfl hthreads) hlt hspans hr _

/-- The initial value is not part of the result of a range with an index, so it must not change it. -/
theorem parallel_correct_iff (hle : start ≤ stop) (hend : stop + chunkSize nthreads (stop - start) < 2 ^ 64)
    (hr : ∀ s m e, s < m → m < e →
      op.combineFunc (op.reduction userArg s m) (op.reduction userArg m e) = op.reduction userArg s e) :
    ForOnce nthreads start stop ∧ Reduces op nthreads start stop init userArg ↔
      (nthreads ≤ 1 ∨ stop - start < 64 ∨ stop - start + nthreads ≤ 2 ^ 64) ∧
        op.combineFunc (init.getD op.zero) (op.reduction userArg start stop) =
          if start = stop then init.getD op.zero else op.reduction userArg start stop := by
  rw [forOnce_iff hle hend]
  refine and_congr_right fun hfit => ?_
  have hresult : ∀ mem order, mem.Suffices → Schedule mem nthreads start stop order →
      parallelReduce op mem nthreads start stop init userArg order =
        some (if start = stop then init.getD op.zero else op.reduction userArg start stop) := by
    intro mem order hmem horder
    rcases hle.eq_or_lt with heq | hlt
    · rw [if_pos heq, parallelReduce]
      exact if_pos (by omega)
    · rw [if_neg hlt.ne, parallelReduce_eq hmem horder hlt hend hfit hr]
  constructor
  · intro h
    obtain ⟨order, horder⟩ := exists_schedule ⟨true, fun _ => true, fun _ => true⟩ nthreads start stop
    have hmem : (⟨true, fun _ => true, fun _ => true⟩ : Memory).Suffices := ⟨rfl, fun _ => rfl, fun _ => rfl⟩
    exact Option.some.inj ((h _ order hmem horder).symm.trans (hresult _ order hmem horder))
  · intro h mem order hmem horder
    rw [hresult mem order hmem horder, h]

/-! ## The order is that of the pool -/

/-! ## Counting -/

/-- Adds up how many indices there are. -/
def counting : Reduction ℕ Unit where
  zero := 0
  null := ()
  reduceFunc s e _ result := result + (e - s)
  combineFunc a b := a + b

theorem parallel_correct_iff_counting :
    ForOnce 2 0 100 ∧ Reduces counting 2 0 100 none () ↔
      (2 ≤ 1 ∨ 100 - 0 < 64 ∨ 100 - 0 + 2 ≤ 2 ^ 64) ∧
        counting.combineFunc ((none : Option ℕ).getD counting.zero) (counting.reduction () 0 100) =
          if 0 = 100 then (none : Option ℕ).getD counting.zero else counting.reduction () 0 100 :=
  parallel_correct_iff (by norm_num) (by norm_num [chunkSize]) fun s m e hsm hme => by
    simp only [counting, Reduction.reduction]
    omega

/-- With the initial value 1, one index is counted as 1. -/
theorem not_reduces_counting : ¬ ∀ (nthreads start stop : ℕ) (init : Option ℕ), start ≤ stop →
    stop + chunkSize nthreads (stop - start) < 2 ^ 64 →
    ForOnce nthreads start stop ∧ Reduces counting nthreads start stop init () := by
  intro h
  obtain ⟨order, horder⟩ := exists_schedule ⟨true, fun _ => true, fun _ => true⟩ 1 0 1
  have hresult := (h 1 0 1 (some 1) (by norm_num) (by norm_num [chunkSize])).2 _ order
    ⟨rfl, fun _ => rfl, fun _ => rfl⟩ horder
  have hcode : parallelReduce counting ⟨true, fun _ => true, fun _ => true⟩ 1 0 1 (some 1) () order = some 1 := rfl
  rw [hcode] at hresult
  exact absurd hresult (by decide)

end SneppxAlg.ParallelLoop
