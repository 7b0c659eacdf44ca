import SneppxAlg.Lib.Loops
import SneppxAlg.Net.ServingEngine

/-!
# `serving_engine.c`: the queue of pending requests

As long as at most 64 requests are pending, the slots of `pending_keys` are a first-in first-out queue
(`Holds`): a submit appends to it and a drain takes ids from its front. A submit beyond that counts
an id that it does not store, and no later call recovers from it (`Overfull`). A negative `max` moves
bytes from before the buffer. These are the only ways in which ids get lost (`run_conserves_iff`).
-/

namespace SneppxAlg.Serving

open Lib.CString Lib.Loops

/-! ## Runs -/

/-- A call of `batch_submit` or of `batch_drain`, with the clock reading in it. -/
inductive BatchOp where
  | submit (requestId : CStr) (now : ℤ)
  | drain (max now : ℤ)

/-- The engine after a call, and the ids that it returned. -/
def BatchOp.step (e : Engine) : BatchOp → Option (Engine × List Str)
  | .submit requestId now => (batchSubmit e requestId now).map fun r => (r.2, [])
  | .drain max now => (batchDrain e max now).map fun r => (r.2.2, r.2.1)

/-- The engine after a sequence of calls, and all ids that they returned, in order. -/
def run : Engine → List BatchOp → Option (Engine × List Str)
  | e, [] => some (e, [])
  | e, op :: ops => do
    let (e, out) ← op.step e
    let (e, rest) ← run e ops
    some (e, out ++ rest)

/-- The ids submitted in a sequence of calls. -/
def submitted : List BatchOp → List Str
  | [] => []
  | .submit requestId _ :: ops => requestId.bytes :: submitted ops
  | .drain _ _ :: ops => submitted ops

def pendingIds (e : Engine) : Option (List Str) :=
  if 0 ≤ e.pendingCount then (List.range e.pendingCount.toNat).mapM (readKey e.pendingKeys) else none

/-- A run from an empty queue returns, with what is still pending, what was submitted. -/
def Conserves (e : Engine) (ops : List BatchOp) : Prop :=
  ∃ e' out pending, run e ops = some (e', out) ∧ pendingIds e' = some pending ∧
    out ++ pending = submitted ops

/-- A call finds a free slot, or does not ask for a negative number of ids. -/
def BatchOp.Fits (e : Engine) : BatchOp → Prop
  | .submit _ _ => e.pendingCount < slots
  | .drain max now => 0 ≤ max ∨ ¬ Ready e now

/-- All calls of a run do. -/
def AllFit : Engine → List BatchOp → Prop
  | _, [] => True
  | e, op :: ops => op.Fits e ∧ ∀ e' out, op.step e = some (e', out) → AllFit e' ops

/-- The ids of a call are shorter than the id length. -/
def BatchOp.Short : BatchOp → Prop
  | .submit requestId _ => requestId.bytes.length < maxIdLen
  | .drain _ _ => True

/-! ## The queue -/

/-- The slots hold the ids of a queue. -/
structure Holds (e : Engine) (q : List CStr) : Prop where
  count : e.pendingCount = q.length
  room : q.length ≤ slots
  short : ∀ s ∈ q, s.bytes.length < maxIdLen
  keys : ∀ i (h : i < q.length), StrAt e.pendingKeys (i * maxIdLen) q[i].bytes

section

variable {e e' : Engine} {q : List CStr} {out : List Str}

theorem setStr_of_short {s : Str} (h : s.length < maxIdLen) : setStr maxIdLen s = s :=
  List.take_of_length_le (by omega)

theorem Holds.readKey (h : Holds e q) (i : ℕ) (hi : i < (q.map CStr.bytes).length) :
    readKey e.pendingKeys i = some (q.map CStr.bytes)[i] := by
  rw [List.length_map] at hi
  have hs := h.short q[i] (List.getElem_mem hi)
  have hroom := h.room
  have hread := readStr_of_strAt (n := (slots - i) * maxIdLen) (h.keys i hi) q[i].zero_notMem (by
    simp only [slots, maxIdLen] at *
    omega)
  rw [Serving.readKey, hread, Option.map_some, setStr_of_short hs, List.getElem_map]

/-- The ids in the first `n` slots. -/
theorem Holds.mapM_readKey (h : Holds e q) {n : ℕ} (hn : n ≤ q.length) :
    (List.range n).mapM (Serving.readKey e.pendingKeys) = some ((q.take n).map CStr.bytes) := by
  rw [mapM_range_eq_some (by simpa using hn) h.readKey, List.map_take]

theorem Holds.pendingIds (h : Holds e q) : pendingIds e = some (q.map CStr.bytes) := by
  rw [Serving.pendingIds, h.count, if_pos (Int.natCast_nonneg _), Int.toNat_natCast,
    h.mapM_readKey le_rfl, List.take_length]

/-- A submit appends to the queue. -/
theorem Holds.submit (h : Holds e q) {s : CStr} (hs : s.bytes.length < maxIdLen)
    (hfit : e.pendingCount < slots) (now : ℤ) :
    ∃ e', (BatchOp.submit s now).step e = some (e', []) ∧ Holds e' (q ++ [s]) := by
  have hcount := h.count
  have hlen : q.length < slots := by
    rw [hcount] at hfit
    exact_mod_cast hfit
  have hadd : addInt (q.length : ℤ) 1 = some (q.length + 1) := by
    simp only [slots] at hlen
    rw [addInt, if_pos]
    norm_num
    omega
  set keys := writeStr e.pendingKeys (q.length * maxIdLen) s.bytes with hkeys
  have hstore : storeKey e.pendingKeys q.length s.bytes = some keys := by
    rw [hcount] at hfit
    rw [storeKey, if_pos hfit, if_pos (Int.natCast_nonneg _), Int.toNat_natCast, setStr_of_short hs]
  have hstep : ∃ e', (BatchOp.submit s now).step e = some (e', []) ∧ e'.pendingKeys = keys ∧
      e'.pendingCount = q.length + 1 := by
    simp [BatchOp.step, batchSubmit, hcount, hstore, hadd]
  obtain ⟨e', hstep, hk, hc⟩ := hstep
  refine ⟨e', hstep, ?_, ?_, ?_, ?_⟩
  · rw [hc]
    simp
  · simpa using hlen
  · intro t ht
    rcases List.mem_append.mp ht with ht | ht
    · exact h.short t ht
    · rw [List.mem_singleton.mp ht]
      exact hs
  · intro i hi
    rw [hk, hkeys]
    by_cases hiq : i < q.length
    · rw [List.getElem_append_left hiq]
      have hshort := h.short q[i] (List.getElem_mem hiq)
      refine (h.keys i hiq).writeStr (Or.inl ?_)
      simp only [maxIdLen] at *
      omega
    · obtain rfl : i = q.length := by
        simp at hi
        omega
      rw [List.getElem_append_right le_rfl]
      simp only [Nat.sub_self, List.getElem_cons_zero]
      exact strAt_writeStr _ _ _

/-- A drain takes ids from the front of the queue. -/
theorem Holds.drain (h : Holds e q) {max now : ℤ} (hfit : 0 ≤ max ∨ ¬ Ready e now) :
    ∃ e' n, (BatchOp.drain max now).step e = some (e', (q.take n).map CStr.bytes) ∧
      Holds e' (q.drop n) := by
  by_cases hready : Ready e now
  · have hmax : 0 ≤ max := hfit.resolve_right (not_not.mpr hready)
    have hcount := h.count
    have hroom := h.room
    obtain ⟨n, hn, hnq⟩ : ∃ n : ℕ, (if e.pendingCount > max then max else e.pendingCount) = n ∧
        n ≤ q.length := by
      refine ⟨(if e.pendingCount > max then max else e.pendingCount).toNat, ?_, ?_⟩
      · rw [Int.toNat_of_nonneg]
        split <;> omega
      · split <;> omega
    have hread := h.mapM_readKey hnq
    have hleft : e.pendingCount - (n : ℤ) = ((q.length - n : ℕ) : ℤ) := by omega
    set keys := if 0 < q.length - n then
      moveBytes e.pendingKeys 0 (n * maxIdLen) ((q.length - n) * maxIdLen) else e.pendingKeys
      with hkeys
    refine ⟨{ e with
      pendingKeys := keys
      pendingCount := ((q.length - n : ℕ) : ℤ)
      pendingFirstMs := if ((q.length - n : ℕ) : ℤ) = 0 then 0 else e.pendingFirstMs
      batches := e.batches + 1 }, n, ?_, ?_⟩
    · have hmove : shiftKeys e.pendingKeys n ((q.length - n : ℕ) : ℤ) = some keys := by
        rw [hkeys, shiftKeys]
        by_cases hpos : 0 < q.length - n
        · rw [if_pos hpos, if_pos (by exact_mod_cast hpos), if_pos (by omega), Int.toNat_natCast,
            Int.toNat_natCast]
        · rw [if_neg hpos, if_neg (by exact_mod_cast hpos)]
      simp only [BatchOp.step, batchDrain, if_pos hready, hn, hleft, Int.toNat_natCast, hread, hmove]
      rfl
    · refine ⟨by simp, by simp; omega, fun s hs => h.short s (List.mem_of_mem_drop hs), ?_⟩
      intro i hi
      rw [List.length_drop] at hi
      have hshort := h.short q[n + i] (List.getElem_mem (by omega))
      have hkey := h.keys (n + i) (by omega)
      simp only [List.getElem_drop, hkeys, if_pos (Nat.zero_lt_of_lt hi)]
      rw [show (n + i) * maxIdLen = i * maxIdLen + n * maxIdLen by ring] at hkey
      apply StrAt.moveBytes hkey
      calc i * maxIdLen + q[n + i].bytes.length < i * maxIdLen + maxIdLen := by omega
        _ = (i + 1) * maxIdLen := by ring
        _ ≤ (q.length - n) * maxIdLen := Nat.mul_le_mul_right _ (by omega)
  · refine ⟨e, 0, ?_, ?_⟩
    · simp only [BatchOp.step, batchDrain, if_neg hready]
      rfl
    · rw [List.drop_zero]
      exact h

/-! ## Lost ids -/

/-- More ids are counted than there are slots. -/
def Overfull (e : Engine) : Prop := e.pendingCount > slots

theorem addInt_eq_some {a b c : ℤ} (h : addInt a b = some c) : c = a + b := by
  unfold addInt at h
  split at h
  · exact (Option.some.inj h).symm
  · cases h

theorem count_submit {s : CStr} {now : ℤ} (h : (BatchOp.submit s now).step e = some (e', out)) :
    e'.pendingCount = e.pendingCount + 1 := by
  simp only [BatchOp.step, batchSubmit, Option.map_eq_some_iff, Option.bind_eq_bind,
    Option.bind_eq_some_iff] at h
  obtain ⟨r, ⟨keys, -, count, hcount, hr⟩, he⟩ := h
  rw [← Option.some.inj hr] at he
  rw [← (Prod.mk.inj he).1]
  exact addInt_eq_some hcount

/-- With too many ids counted, a ready drain reads or moves bytes outside of the buffer. -/
theorem drain_of_overfull (h : Overfull e) {max now : ℤ}
    (hs : (BatchOp.drain max now).step e = some (e', out)) : e' = e := by
  by_cases hready : Ready e now
  · exfalso
    simp only [BatchOp.step, batchDrain, if_pos hready, Option.map_eq_some_iff, Option.bind_eq_bind,
      Option.bind_eq_some_iff] at hs
    obtain ⟨r, ⟨ids, hids, keys, hkeys, -⟩, -⟩ := hs
    generalize hn : (if e.pendingCount > max then max else e.pendingCount) = n at hids hkeys
    simp only [Overfull] at h
    by_cases hleft : e.pendingCount - n > 0
    · rw [shiftKeys, if_pos hleft, if_neg (by omega)] at hkeys
      cases hkeys
    · have hlt : slots < n.toNat := by omega
      have hnone : readKey e.pendingKeys slots = none := by
        simp [readKey, slots, readStr]
      rw [mapM_range_eq_none hlt hnone] at hids
      cases hids
  · simp only [BatchOp.step, batchDrain, if_neg hready] at hs
    exact (Prod.mk.inj (Option.some.inj hs)).1.symm

theorem Overfull.step (h : Overfull e) {op : BatchOp} (hs : op.step e = some (e', out)) :
    Overfull e' := by
  cases op with
  | submit s now =>
    have hcount := count_submit hs
    simp only [Overfull] at *
    omega
  | drain max now =>
    rw [drain_of_overfull h hs]
    exact h

theorem Overfull.run (h : Overfull e) {ops : List BatchOp} (hr : run e ops = some (e', out)) :
    Overfull e' := by
  induction ops generalizing e out with
  | nil =>
    simp only [Serving.run, Option.some.injEq, Prod.mk.injEq] at hr
    rw [← hr.1]
    exact h
  | cons op ops ih =>
    simp only [Serving.run, Option.bind_eq_bind, Option.bind_eq_some_iff] at hr
    obtain ⟨⟨e1, out1⟩, hstep, ⟨e2, out2⟩, hrun, heq⟩ := hr
    obtain ⟨rfl, -⟩ := Prod.mk.inj (Option.some.inj heq)
    exact ih (h.step hstep) hrun

theorem Overfull.pendingIds (h : Overfull e) : pendingIds e = none := by
  simp only [Overfull] at h
  have hnone : Serving.readKey e.pendingKeys slots = none := by
    simp [Serving.readKey, slots, readStr]
  rw [Serving.pendingIds, if_pos (by omega)]
  exact mapM_range_eq_none (by omega) hnone

/-- A negative number of ids moves bytes from before the buffer. -/
theorem drain_of_neg (h : Holds e q) {max now : ℤ} (hmax : max < 0) (hready : Ready e now) :
    (BatchOp.drain max now).step e = none := by
  have hcount := h.count
  have hgt : e.pendingCount > max := by omega
  have hleft : e.pendingCount - max > 0 := by omega
  have hnot : ¬ (0 ≤ max ∧ max + (e.pendingCount - max) ≤ slots) := by omega
  simp only [BatchOp.step, batchDrain, if_pos hready, if_pos hgt, Int.toNat_of_nonpos hmax.le,
    shiftKeys, if_pos hleft, if_neg hnot]
  rfl

/-! ## Conservation -/

/-- The ids returned and pending after a run from a given queue. -/
def ConservesFrom (e : Engine) (q : List CStr) (ops : List BatchOp) : Prop :=
  ∃ e' out pending, run e ops = some (e', out) ∧ pendingIds e' = some pending ∧
    out ++ pending = q.map CStr.bytes ++ submitted ops

theorem run_cons {op : BatchOp} (hstep : op.step e = some (e', out)) (ops : List BatchOp) :
    run e (op :: ops) = (run e' ops).map fun r => (r.1, out ++ r.2) := by
  simp only [run, hstep, Option.bind_eq_bind, Option.bind_some]
  cases run e' ops <;> rfl

/-- A run after its first call. -/
theorem conservesFrom_cons {op : BatchOp} {ops : List BatchOp} {q' : List CStr}
    (hstep : op.step e = some (e', out))
    (hq : q.map CStr.bytes ++ submitted (op :: ops) =
      out ++ (q'.map CStr.bytes ++ submitted ops)) :
    ConservesFrom e q (op :: ops) ↔ ConservesFrom e' q' ops := by
  unfold ConservesFrom
  rw [run_cons hstep, hq]
  constructor
  · rintro ⟨e2, out2, pending, hrun, hpending, heq⟩
    obtain ⟨⟨e3, out3⟩, hrun', hmk⟩ := Option.map_eq_some_iff.mp hrun
    obtain ⟨rfl, rfl⟩ := Prod.mk.inj hmk
    rw [List.append_assoc] at heq
    exact ⟨e3, out3, pending, hrun', hpending, List.append_cancel_left heq⟩
  · rintro ⟨e2, out2, pending, hrun, hpending, heq⟩
    refine ⟨e2, out ++ out2, pending, ?_, hpending, ?_⟩
    · rw [hrun, Option.map_some]
    · rw [List.append_assoc, heq]

theorem allFit_cons {op : BatchOp} {ops : List BatchOp} (hfit : op.Fits e)
    (hstep : op.step e = some (e', out)) : AllFit e (op :: ops) ↔ AllFit e' ops := by
  constructor
  · intro h
    exact h.2 e' out hstep
  · intro h
    refine ⟨hfit, fun e2 out2 hstep2 => ?_⟩
    rw [hstep] at hstep2
    obtain ⟨rfl, -⟩ := Prod.mk.inj (Option.some.inj hstep2)
    exact h

/-- After a call that does not fit, nothing is conserved. -/
theorem not_conservesFrom_of_not_fits (h : Holds e q) {op : BatchOp} (hfit : ¬ op.Fits e)
    (ops : List BatchOp) : ¬ ConservesFrom e q (op :: ops) := by
  rintro ⟨e2, out2, pending, hrun, hpending, -⟩
  cases op with
  | submit s now =>
    rw [BatchOp.Fits, not_lt] at hfit
    cases hstep : (BatchOp.submit s now).step e with
    | none =>
      rw [run, hstep] at hrun
      cases hrun
    | some r =>
      obtain ⟨e1, out1⟩ := r
      have hover : Overfull e1 := by
        have hcount := count_submit hstep
        simp only [Overfull]
        omega
      rw [run_cons hstep] at hrun
      obtain ⟨⟨e3, out3⟩, hrun', hmk⟩ := Option.map_eq_some_iff.mp hrun
      obtain ⟨rfl, -⟩ := Prod.mk.inj hmk
      rw [(hover.run hrun').pendingIds] at hpending
      cases hpending
  | drain max now =>
    rw [BatchOp.Fits, not_or, not_le, not_not] at hfit
    rw [run, drain_of_neg h hfit.1 hfit.2] at hrun
    cases hrun

theorem conservesFrom_iff {ops : List BatchOp} (h : Holds e q) (hshort : ∀ op ∈ ops, op.Short) :
    ConservesFrom e q ops ↔ AllFit e ops := by
  induction ops generalizing e q with
  | nil =>
    refine iff_of_true ⟨e, [], _, rfl, h.pendingIds, ?_⟩ trivial
    simp [submitted]
  | cons op ops ih =>
    rw [List.forall_mem_cons] at hshort
    by_cases hfit : op.Fits e
    · cases op with
      | submit s now =>
        obtain ⟨e1, hstep, h1⟩ := h.submit hshort.1 hfit now
        have hq : q.map CStr.bytes ++ submitted (.submit s now :: ops) =
            [] ++ ((q ++ [s]).map CStr.bytes ++ submitted ops) := by
          simp [submitted]
        rw [conservesFrom_cons hstep hq, allFit_cons hfit hstep]
        exact ih h1 hshort.2
      | drain max now =>
        obtain ⟨e1, n, hstep, h1⟩ := h.drain hfit
        have hq : q.map CStr.bytes ++ submitted (.drain max now :: ops) =
            (q.take n).map CStr.bytes ++ ((q.drop n).map CStr.bytes ++ submitted ops) := by
          rw [← List.append_assoc, ← List.map_append, List.take_append_drop]
          rfl
        rw [conservesFrom_cons hstep hq, allFit_cons hfit hstep]
        exact ih h1 hshort.2
    · exact iff_of_false (not_conservesFrom_of_not_fits h hfit ops) fun hall => hfit hall.1

end

/-- **Conservation.** Whatever the configuration and the clock, a run from an empty queue returns or
keeps all ids submitted, in order, exactly when every submit finds a free slot and no ready drain asks
for a negative number of ids. -/
theorem run_conserves_iff {e : Engine} {ops : List BatchOp} (he : e.pendingCount = 0)
    (hshort : ∀ op ∈ ops, op.Short) : Conserves e ops ↔ AllFit e ops := by
  have hempty : Holds e [] :=
    { count := he
      room := Nat.zero_le _
      short := fun s hs => absurd hs List.not_mem_nil
      keys := fun i hi => absurd hi (Nat.not_lt_zero i) }
  exact conservesFrom_iff hempty hshort

/-- Two ids in and one out. -/
theorem run_conserves_two :
    Conserves engineCreate [.submit ⟨[97], by decide⟩ 0, .submit ⟨[98], by decide⟩ 1, .drain 1 6] := by
  refine (run_conserves_iff rfl ?_).mpr ?_
  · intro op hop
    simp only [List.mem_cons, List.not_mem_nil, or_false] at hop
    rcases hop with rfl | rfl | rfl
    · exact (by decide : 1 < 64)
    · exact (by decide : 1 < 64)
    · trivial
  · refine ⟨?_, fun e1 out1 h1 => ⟨?_, fun e2 out2 h2 => ⟨Or.inl ?_, fun _ _ _ => trivial⟩⟩⟩
    · exact (by decide : (0 : ℤ) < 64)
    · have hcount := count_submit h1
      simp only [BatchOp.Fits, hcount]
      exact (by decide : (0 : ℤ) + 1 < 64)
    · exact zero_le_one

theorem count_run_replicate {e e' : Engine} {out : List Str} {s : CStr} {now : ℤ} {n : ℕ}
    (h : run e (List.replicate n (.submit s now)) = some (e', out)) :
    e'.pendingCount = e.pendingCount + n := by
  induction n generalizing e out with
  | zero =>
    obtain ⟨rfl, -⟩ := Prod.mk.inj (Option.some.inj h)
    simp
  | succ n ih =>
    rw [List.replicate_succ] at h
    cases hstep : (BatchOp.submit s now).step e with
    | none =>
      rw [run, hstep] at h
      cases h
    | some r =>
      rw [run_cons hstep] at h
      obtain ⟨⟨e3, out3⟩, hrun, hmk⟩ := Option.map_eq_some_iff.mp h
      obtain ⟨rfl, -⟩ := Prod.mk.inj hmk
      rw [ih hrun, count_submit hstep]
      push_cast
      ring

/-- The 65th id submitted without a drain is lost. -/
theorem not_conserves_overload :
    ¬ Conserves engineCreate (List.replicate 65 (.submit ⟨[97], by decide⟩ 0)) := by
  rintro ⟨e', out, pending, hrun, hpending, -⟩
  have hover : Overfull e' := by
    rw [Overfull, count_run_replicate hrun]
    decide
  rw [hover.pendingIds] at hpending
  cases hpending

end SneppxAlg.Serving
