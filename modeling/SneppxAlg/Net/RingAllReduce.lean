import Mathlib.Algebra.BigOperators.Intervals
import Mathlib.Algebra.CharZero.Defs
import Mathlib.Algebra.Field.Rat
import Mathlib.Algebra.Order.Floor.Div
import Mathlib.Data.List.GetD
import Mathlib.Tactic.FieldSimp
import Mathlib.Tactic.Ring
import SneppxAlg.Lib.Segments
import SneppxAlg.Lib.SyncRing

/-!
# The ring all-reduce

`ring_all_reduce_impl` of `net/distributed/src/lib.rs`, with exact numbers in place of `f32` and
without compression. The data is cut into one chunk for each of the `w` ranks. In the scatter-reduce
phase a chunk goes around the ring and each rank adds its own part to it (`held_scatter`), in the
all-gather phase it goes around again and each rank takes it over. Both phases use the same chunk
indices, so the second starts at the rank where the first has started, not where it has ended, and
the sum is not what is passed on (`held_gather`).

A single rank returns at once, so `w` is at least two. The streams between the ranks are the queues
of `Lib.SyncRing`: a rank may run ahead of its successor as far as it gets.
-/

namespace SneppxAlg.RingAllReduce

open Lib.Segments Lib.SyncRing

variable {K : Type*} [Field K]

/-- `chunk_size`. -/
def chunkSize (n w : ℕ) : ℕ := (n + w - 1) / w

/-- `ProtoMsg::GradientChunk`, not compressed. -/
structure GradientChunk (K : Type*) where
  chunkId : ℕ
  totalChunks : ℕ
  data : List K

def sendChunkIdx (w rank step : ℕ) : ℕ := (rank + w - step) % w

def recvChunkIdx (w rank step : ℕ) : ℕ := (rank + w - step - 1) % w

def sendStart (w n rank step : ℕ) : ℕ := sendChunkIdx w rank step * chunkSize n w

def sendEnd (w n rank step : ℕ) : ℕ := min (sendStart w n rank step + chunkSize n w) n

/-- The first half of `scatter_reduce_step` and `all_gather_step`: the chunk that is sent. The slice
`data[send_start..send_end]` panics unless `send_start <= send_end`. -/
def sendChunk (w n rank step : ℕ) (data : List K) : GradientChunk K :=
  { chunkId := sendChunkIdx w rank step
    totalChunks := w
    data := (data.drop (sendStart w n rank step)).take
      (sendEnd w n rank step - sendStart w n rank step) }

/-- The second half, where `op` joins a number and the one received for it. -/
def recvChunk (op : K → K → K) (w n rank step : ℕ) (data : List K) (msg : GradientChunk K) : List K :=
  let recvStart := min (recvChunkIdx w rank step * chunkSize n w) n
  let recvEnd := min (recvStart + msg.data.length) n
  data.take recvStart ++
    (List.zipWith op ((data.drop recvStart).take (recvEnd - recvStart)) msg.data ++
      data.drop recvEnd)

def scatterReduceStep (w n rank step : ℕ) (data : List K) (msg : GradientChunk K) : List K :=
  recvChunk (fun x v => x + v) w n rank step data msg

def allGatherStep (w n rank step : ℕ) (data : List K) (msg : GradientChunk K) : List K :=
  recvChunk (fun _ v => v) w n rank step data msg

/-- `step`, from the number of the round: both phases count from zero. -/
def stepOf (w p : ℕ) : ℕ := if p < w - 1 then p else p - (w - 1)

/-- `ring_all_reduce_impl` on all ranks: rank `r` starts with `x r`. -/
def ring (w n : ℕ) (x : ℕ → List K) : Protocol (List K) (GradientChunk K) where
  size := w
  rounds := 2 * (w - 1)
  init := x
  ok := fun r p => sendStart w n r (stepOf w p) ≤ sendEnd w n r (stepOf w p)
  out := fun r p data => sendChunk w n r (stepOf w p) data
  next := fun r p data msg =>
    if p < w - 1 then scatterReduceStep w n r (stepOf w p) data msg
    else allGatherStep w n r (stepOf w p) data msg
  finish := fun data => data.map fun v => v * (1 / (w : K))

/-- The element-wise mean. -/
def mean (w n : ℕ) (x : ℕ → List K) : List K :=
  (List.range n).map fun e => (∑ r ∈ Finset.range w, (x r).getD e 0) / w

/-- In every order of steps no rank panics and every rank ends with the mean. -/
def Reduces (w n : ℕ) (x : ℕ → List K) : Prop :=
  (ring w n x).Delivers fun _ data => data = mean w n x

/-! ## Chunks -/

section

variable {w n c e : ℕ} {op : K → K → K}

theorem le_mul_chunkSize (hw : 0 < w) : n ≤ w * chunkSize n w := le_smul_ceilDiv hw

theorem chunkSize_pos (hw : 0 < w) (he : e < n) : 0 < chunkSize n w := by
  refine Nat.pos_of_ne_zero fun h0 => ?_
  have hle := le_mul_chunkSize (n := n) hw
  rw [h0] at hle
  omega

theorem div_chunkSize_lt (hw : 0 < w) (he : e < n) : e / chunkSize n w < w :=
  Nat.div_lt_of_lt_mul (by rw [Nat.mul_comm]; exact he.trans_le (le_mul_chunkSize hw))

theorem mod_of_lt_two_mul {a : ℕ} (ha : a < 2 * w) : a % w = if a < w then a else a - w := by
  split_ifs with h
  · exact Nat.mod_eq_of_lt h
  · rw [Nat.mod_eq_sub_mod (by omega), Nat.mod_eq_of_lt (by omega)]

theorem pred_add_succ {j : ℕ} (hc : c < w) (hj : j + 1 < w) :
    ((c + (j + 1)) % w + w - 1) % w = (c + j) % w := by
  rw [mod_of_lt_two_mul (a := c + (j + 1)) (by omega), mod_of_lt_two_mul (a := c + j) (by omega),
    mod_of_lt_two_mul (by split_ifs <;> omega)]
  split_ifs <;> omega

/-- A rank receives the chunk that it expects. -/
theorem sendChunkIdx_pred {r t : ℕ} (hr : r < w) (ht : t < w - 1) :
    sendChunkIdx w ((r + w - 1) % w) t = recvChunkIdx w r t := by
  unfold sendChunkIdx recvChunkIdx
  rw [mod_of_lt_two_mul (a := r + w - 1) (by omega), mod_of_lt_two_mul (a := r + w - t - 1) (by omega),
    mod_of_lt_two_mul (by split_ifs <;> omega)]
  split_ifs <;> omega

/-- The rank at distance `j` from the first of a chunk receives the chunk in step `j - 1`. -/
theorem recvChunkIdx_eq_iff {j t : ℕ} (hc : c < w) (hj : j < w) (ht : t < w - 1) :
    recvChunkIdx w ((c + j) % w) t = c ↔ j = t + 1 := by
  unfold recvChunkIdx
  rw [mod_of_lt_two_mul (a := c + j) (by omega), mod_of_lt_two_mul (by split_ifs <;> omega)]
  split_ifs <;> omega

omit [Field K] in
theorem length_recvChunk {data : List K} {msg : GradientChunk K} (hlen : data.length = n) (r t : ℕ) :
    (recvChunk op w n r t data msg).length = n := by
  simp only [recvChunk, List.length_append, List.length_take, List.length_zipWith, List.length_drop,
    hlen]
  omega

theorem getD_splice {data v : List K} {lo hi : ℕ} (hlo : lo ≤ hi) (hhi : hi ≤ data.length)
    (hv : hi - lo ≤ v.length) (he : e < data.length) :
    (data.take lo ++ (List.zipWith op ((data.drop lo).take (hi - lo)) v ++ data.drop hi)).getD e 0 =
      if lo ≤ e ∧ e < hi then op (data.getD e 0) (v.getD (e - lo) 0) else data.getD e 0 := by
  have hmid : (List.zipWith op ((data.drop lo).take (hi - lo)) v).length = hi - lo := by
    rw [List.length_zipWith, List.length_take, List.length_drop]
    omega
  have hsplice := getElem?_splice data _ (by rw [hmid]; omega : lo + (List.zipWith op _ v).length ≤ _) e
  rw [hmid, Nat.add_sub_cancel' hlo, List.append_assoc] at hsplice
  rw [List.getD_eq_getElem?_getD, hsplice]
  by_cases hin : lo ≤ e ∧ e < hi
  · have hv' : e - lo < v.length := by omega
    rw [if_pos hin, if_pos hin, List.getElem?_zipWith, List.getElem?_take_of_lt (by omega), List.getElem?_drop,
      Nat.add_sub_cancel' hin.1, List.getElem?_eq_getElem he, List.getElem?_eq_getElem hv',
      List.getD_eq_getElem _ _ he, List.getD_eq_getElem _ _ hv', Option.getD_some]
  · rw [if_neg hin, if_neg hin, List.getD_eq_getElem?_getD]

/-- The elements that are received are those of the chunk. -/
theorem getD_recvChunk {data data' : List K} (hlen : data.length = n) (hlen' : data'.length = n)
    {r t : ℕ} (hr : r < w) (ht : t < w - 1) (he : e < n) :
    (recvChunk op w n r t data (sendChunk w n ((r + w - 1) % w) t data')).getD e 0 =
      if recvChunkIdx w r t = e / chunkSize n w then op (data.getD e 0) (data'.getD e 0)
      else data.getD e 0 := by
  have hs : 0 < chunkSize n w := chunkSize_pos (by omega) he
  have hstart : sendStart w n ((r + w - 1) % w) t = recvChunkIdx w r t * chunkSize n w := by
    rw [sendStart, sendChunkIdx_pred hr ht]
  have hchunk : recvChunkIdx w r t = e / chunkSize n w ↔
      recvChunkIdx w r t * chunkSize n w ≤ e ∧
        e < recvChunkIdx w r t * chunkSize n w + chunkSize n w := by
    rw [eq_comm, Nat.div_eq_iff hs]
    omega
  have hv : (sendChunk w n ((r + w - 1) % w) t data').data =
      (data'.drop (recvChunkIdx w r t * chunkSize n w)).take
        (min (recvChunkIdx w r t * chunkSize n w + chunkSize n w) n -
          recvChunkIdx w r t * chunkSize n w) := by
    rw [sendChunk, sendEnd, hstart]
  simp only [recvChunk, hv, hchunk]
  generalize recvChunkIdx w r t * chunkSize n w = a
  have hvlen : ((data'.drop a).take (min (a + chunkSize n w) n - a)).length =
      min (a + chunkSize n w) n - a := by
    rw [List.length_take, List.length_drop, hlen']
    omega
  rw [getD_splice (by omega) (by omega) (by omega) (by omega), hvlen]
  by_cases hin : a ≤ e ∧ e < a + chunkSize n w
  · have hget : ((data'.drop a).take (min (a + chunkSize n w) n - a)).getD (e - min a n) 0 =
        data'.getD e 0 := by
      rw [Nat.min_eq_left (show a ≤ n by omega), List.getD_eq_getElem?_getD,
        List.getElem?_take_of_lt (by omega), List.getElem?_drop, Nat.add_sub_cancel' hin.1,
        List.getD_eq_getElem?_getD]
    rw [if_pos hin, if_pos (by omega), hget]
  · rw [if_neg hin, if_neg (by omega)]

end

/-! ## The synchronous run -/

section

variable {w n c e : ℕ} {x : ℕ → List K}

theorem sync_succ (p r : ℕ) :
    (ring w n x).sync (p + 1) r =
      recvChunk (if p < w - 1 then fun x v => x + v else fun _ v => v) w n r (stepOf w p)
        ((ring w n x).sync p r)
        (sendChunk w n ((r + w - 1) % w) (stepOf w p) ((ring w n x).sync p ((r + w - 1) % w))) := by
  rw [Protocol.sync]
  simp only [ring, Protocol.pred]
  split_ifs <;> rfl

theorem length_sync (hlen : ∀ r < w, (x r).length = n) (p : ℕ) {r : ℕ} (hr : r < w) :
    ((ring w n x).sync p r).length = n := by
  induction p generalizing r with
  | zero => exact hlen r hr
  | succ p ih =>
    rw [sync_succ]
    exact length_recvChunk (ih hr) _ _

theorem stepOf_lt {p : ℕ} (hp : p < 2 * (w - 1)) : stepOf w p < w - 1 := by
  unfold stepOf
  split_ifs <;> omega

/-- What the rank at distance `j` from the first of the chunk of an element holds for the element,
after `p` rounds. -/
def held (w n : ℕ) (x : ℕ → List K) (e p j : ℕ) : K := ((ring w n x).sync p ((e / chunkSize n w + j) % w)).getD e 0

/-- In a round one rank joins what it holds and what the rank before it holds. -/
theorem held_succ (hlen : ∀ r < w, (x r).length = n) (he : e < n) {p j : ℕ} (hp : p < 2 * (w - 1))
    (hj : j < w) :
    held w n x e (p + 1) j =
      if j = stepOf w p + 1 then
        (if p < w - 1 then fun x v => x + v else fun _ v => v)
          (held w n x e p j) (held w n x e p (stepOf w p))
      else held w n x e p j := by
  have hw : 0 < w := by omega
  have ht := stepOf_lt hp
  have hc := div_chunkSize_lt hw he
  have hr : (e / chunkSize n w + j) % w < w := Nat.mod_lt _ hw
  unfold held
  rw [sync_succ, getD_recvChunk (length_sync hlen p hr) (length_sync hlen p (Nat.mod_lt _ hw)) hr ht he]
  simp only [recvChunkIdx_eq_iff hc hj ht]
  by_cases hjt : j = stepOf w p + 1
  · rw [if_pos hjt, if_pos hjt, hjt, pred_add_succ hc (by omega)]
  · rw [if_neg hjt, if_neg hjt]

/-- After `p` steps of the scatter-reduce phase the first `p + 1` ranks hold the sums up to
themselves. -/
theorem held_scatter (hlen : ∀ r < w, (x r).length = n) (he : e < n) {p : ℕ} (hp : p ≤ w - 1) {j : ℕ}
    (hj : j < w) :
    held w n x e p j =
      if j ≤ p then ∑ i ∈ Finset.range (j + 1), held w n x e 0 i else held w n x e 0 j := by
  induction p generalizing j with
  | zero =>
    split_ifs with h0
    · rw [Nat.le_zero.mp h0, Finset.sum_range_one]
    · rfl
  | succ p ih =>
    have hstep : stepOf w p = p := if_pos (by omega)
    rw [held_succ hlen he (show p < 2 * (w - 1) by omega) hj, hstep, if_pos (show p < w - 1 by omega)]
    rcases Nat.lt_trichotomy j (p + 1) with hlt | rfl | hgt
    · rw [if_neg (by omega), ih (by omega) hj, if_pos (by omega), if_pos (by omega)]
    · rw [if_pos rfl, if_pos le_rfl, ih (by omega) hj, ih (by omega) (by omega), if_neg (by omega),
        if_pos le_rfl, Finset.sum_range_succ _ (p + 1), add_comm]
    · rw [if_neg (by omega), ih (by omega) hj, if_neg (by omega), if_neg (by omega)]

/-- After `t` steps of the all-gather phase the first `t + 1` ranks hold what the first of them has
started with. -/
theorem held_gather (hlen : ∀ r < w, (x r).length = n) (he : e < n) {t : ℕ} (ht : t ≤ w - 1) {j : ℕ}
    (hj : j < w) (hjt : j ≤ t) : held w n x e (w - 1 + t) j = held w n x e 0 0 := by
  induction t generalizing j with
  | zero =>
    rw [Nat.le_zero.mp hjt, Nat.add_zero, held_scatter hlen he le_rfl (by omega), if_pos (Nat.zero_le _),
      Finset.sum_range_one]
  | succ t ih =>
    have hstep : stepOf w (w - 1 + t) = t := by
      rw [stepOf, if_neg (by omega)]
      omega
    rw [← Nat.add_assoc, held_succ hlen he (show w - 1 + t < 2 * (w - 1) by omega) hj, hstep,
      if_neg (show ¬ w - 1 + t < w - 1 by omega)]
    split_ifs with hlast
    · exact ih (by omega) (by omega) le_rfl
    · exact ih (by omega) hj (by omega)

/-- Every rank ends with what the first rank of the chunk has started with. -/
theorem getD_sync_rounds (hlen : ∀ r < w, (x r).length = n) (he : e < n) {r : ℕ} (hr : r < w) :
    ((ring w n x).sync (2 * (w - 1)) r).getD e 0 = (x (e / chunkSize n w)).getD e 0 := by
  have hc := div_chunkSize_lt (show 0 < w by omega) he
  have hdist : ∃ j < w, (e / chunkSize n w + j) % w = r := by
    generalize e / chunkSize n w = c at hc
    refine ⟨(r + w - c) % w, Nat.mod_lt _ (by omega), ?_⟩
    rw [Nat.add_mod_mod, show c + (r + w - c) = r + w by omega, Nat.add_mod_right,
      Nat.mod_eq_of_lt hr]
  obtain ⟨j, hj, hr⟩ := hdist
  have hheld := held_gather hlen he (t := w - 1) le_rfl hj (by omega)
  rw [← Nat.two_mul, held, hr] at hheld
  rw [hheld, held, Nat.add_zero, Nat.mod_eq_of_lt hc]
  rfl

/-! ## The result -/

/-- No slice panics if the last chunk does not start behind the data. -/
theorem ok_iff (hw : 2 ≤ w) :
    (∀ r < w, ∀ p < 2 * (w - 1), (ring w n x).ok r p) ↔ (w - 1) * chunkSize n w ≤ n := by
  have hok : ∀ r p, (ring w n x).ok r p ↔ sendStart w n r (stepOf w p) ≤ n := by
    intro r p
    show sendStart w n r (stepOf w p) ≤ min (sendStart w n r (stepOf w p) + chunkSize n w) n ↔ _
    omega
  constructor
  · intro h
    have hlast := (hok (w - 1) 0).mp (h (w - 1) (by omega) 0 (by omega))
    have hstep : stepOf w 0 = 0 := if_pos (by omega)
    rwa [hstep, sendStart, sendChunkIdx, Nat.sub_zero, Nat.add_mod_right,
      Nat.mod_eq_of_lt (by omega)] at hlast
  · intro h r _ p _
    refine (hok r p).mpr (le_trans (Nat.mul_le_mul_right _ ?_) h)
    exact Nat.le_sub_one_of_lt (Nat.mod_lt _ (by omega))

theorem finish_eq_mean_iff [CharZero K] (hw : 0 < w) {data : List K} (hdata : data.length = n) :
    (ring w n x).finish data = mean w n x ↔
      ∀ e < n, data.getD e 0 = ∑ r ∈ Finset.range w, (x r).getD e 0 := by
  have hw' : (w : K) ≠ 0 := Nat.cast_ne_zero.mpr hw.ne'
  have hdata' : data = (List.range n).map fun e => data.getD e 0 := by
    refine List.ext_getElem (by simp [hdata]) fun e h1 _ => ?_
    simp [h1]
  calc (ring w n x).finish data = mean w n x
      ↔ ((List.range n).map fun e => data.getD e 0).map (fun v => v * (1 / (w : K))) = mean w n x := by
        rw [← hdata']
        rfl
    _ ↔ ∀ e < n, data.getD e 0 * (1 / (w : K)) = (∑ r ∈ Finset.range w, (x r).getD e 0) / w := by
        simp only [List.map_map, mean, List.map_inj_left, List.mem_range, Function.comp_apply]
    _ ↔ ∀ e < n, data.getD e 0 = ∑ r ∈ Finset.range w, (x r).getD e 0 := by
        simp only [mul_one_div, div_left_inj' hw']

/-- What the other ranks have for an element cancels. -/
def Cancels (w n : ℕ) (x : ℕ → List K) : Prop :=
  ∀ e < n, ∑ r ∈ (Finset.range w).erase (e / chunkSize n w), (x r).getD e 0 = 0

theorem ends_with_mean_iff [CharZero K] (hlen : ∀ r < w, (x r).length = n) {r : ℕ} (hr : r < w) :
    (ring w n x).finish ((ring w n x).sync (2 * (w - 1)) r) = mean w n x ↔ Cancels w n x := by
  have hw : 0 < w := by omega
  rw [finish_eq_mean_iff hw (length_sync hlen _ hr)]
  refine forall₂_congr fun e he => ?_
  have hc : e / chunkSize n w ∈ Finset.range w := Finset.mem_range.mpr (div_chunkSize_lt hw he)
  rw [getD_sync_rounds hlen he hr, ← Finset.add_sum_erase _ _ hc, left_eq_add]

theorem Reduces.cancels [CharZero K] (hw : 2 ≤ w) (hlen : ∀ r < w, (x r).length = n)
    (h : Reduces w n x) : Cancels w n x :=
  (ends_with_mean_iff hlen (show 0 < w by omega)).mp ((delivers_iff.mp h).2 0 (show 0 < w by omega))

/-- The ring computes the mean just when no chunk starts behind the data and, for each element, what
all ranks but the one with the number of the chunk have for it sums up to zero. -/
theorem reduces_iff [CharZero K] (hw : 2 ≤ w) (hlen : ∀ r < w, (x r).length = n) :
    Reduces w n x ↔ (w - 1) * chunkSize n w ≤ n ∧ Cancels w n x := by
  constructor
  · intro h
    exact ⟨(ok_iff hw).mp (delivers_iff.mp h).1, h.cancels hw hlen⟩
  · rintro ⟨hle, hcancel⟩
    refine delivers_iff.mpr ⟨(ok_iff hw).mpr hle, fun r hr => ?_⟩
    exact (ends_with_mean_iff hlen hr).mpr hcancel

/-- Three ranks with `[1, 2, 3]`, `[5, 4, -3]` and `[-5, -2, 6]`. -/
theorem reduces_threeRanks :
    Reduces 3 3 fun r => [[(1 : ℚ), 2, 3], [5, 4, -3], [-5, -2, 6]].getD r [] := by
  refine (reduces_iff (by decide) (by decide)).mpr ⟨by decide, ?_⟩
  unfold Cancels
  decide +kernel

/-- The vectors `[1, 2]` and `[3, 4]`: the ranks end with `[1 / 2, 2]`. -/
theorem not_reduces_one_two_three_four :
    ¬ Reduces 2 2 fun r => if r = 0 then [(1 : ℚ), 2] else [3, 4] := by
  intro h
  have hlen : ∀ r < 2, (if r = 0 then [(1 : ℚ), 2] else [3, 4]).length = 2 := by
    intro r _
    split_ifs <;> rfl
  have hzero := h.cancels (by decide) hlen 0 (by decide)
  rw [show (Finset.range 2).erase (0 / chunkSize 2 2) = {1} by decide, Finset.sum_singleton] at hzero
  exact absurd hzero (by decide)

end

end SneppxAlg.RingAllReduce
