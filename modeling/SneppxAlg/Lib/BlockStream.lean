import Mathlib.Data.List.TakeDrop
import Mathlib.Algebra.Order.Ring.Nat
import Mathlib.Tactic.Ring

/-!
# Streams that are read in blocks

A byte string is fed to a state in blocks of `B` elements; `run` gives the state after the whole blocks, and the
elements behind them, which wait in a buffer. What is fed in pieces is fed at once (`run_append`), so that the pieces
do not matter (`foldl_feed`). The state is a fold over the blocks (`run_fst`).
-/

namespace Lib.BlockStream

variable {S α : Type*} {f : S → List α → S} {B : ℕ}

/-- The whole blocks go into the state, the rest stays. -/
def run (f : S → List α → S) (B : ℕ) (s : S) (m : List α) : S × List α :=
  if _h : 0 < B ∧ B ≤ m.length then run f B (f s (m.take B)) (m.drop B) else (s, m)
termination_by m.length
decreasing_by rw [List.length_drop]; omega

theorem run_of_lt {s : S} {m : List α} (h : m.length < B) : run f B s m = (s, m) := by
  rw [run, dif_neg (by omega)]

theorem run_of_le (hB : 0 < B) {s : S} {m : List α} (h : B ≤ m.length) :
    run f B s m = run f B (f s (m.take B)) (m.drop B) := by
  rw [run, dif_pos ⟨hB, h⟩]

theorem run_block_append (hB : 0 < B) {s : S} {b : List α} (hb : b.length = B) (m : List α) :
    run f B s (b ++ m) = run f B (f s b) m := by
  rw [run_of_le hB (by rw [List.length_append]; omega), List.take_left' hb, List.drop_left' hb]

theorem run_append (s : S) (a b : List α) :
    run f B s (a ++ b) = run f B (run f B s a).1 ((run f B s a).2 ++ b) := by
  induction hn : a.length using Nat.strong_induction_on generalizing s a with
  | _ n ih =>
    by_cases h : 0 < B ∧ B ≤ a.length
    · have hsplit : a ++ b = a.take B ++ (a.drop B ++ b) := by
        rw [← List.append_assoc, List.take_append_drop]
      have htake : (a.take B).length = B := by rw [List.length_take]; omega
      rw [hsplit, run_block_append h.1 htake, run_of_le h.1 h.2]
      exact ih _ (by rw [List.length_drop]; omega) _ _ rfl
    · have hrun : run f B s a = (s, a) := by rw [run, dif_neg h]
      rw [hrun]

theorem length_run_snd (s : S) (m : List α) : (run f B s m).2.length = m.length % B := by
  induction hn : m.length using Nat.strong_induction_on generalizing s m with
  | _ n ih =>
    by_cases h : 0 < B ∧ B ≤ m.length
    · rw [run_of_le h.1 h.2, ih _ (by rw [List.length_drop]; omega) _ _ rfl, List.length_drop, hn,
        ← Nat.mod_eq_sub_mod (by omega)]
    · rw [run, dif_neg h]
      rcases Nat.eq_zero_or_pos B with rfl | hB
      · rw [Nat.mod_zero, hn]
      · rw [hn, Nat.mod_eq_of_lt (by omega)]

theorem length_run_snd_lt (hB : 0 < B) (s : S) (m : List α) : (run f B s m).2.length < B := by
  rw [length_run_snd]
  exact Nat.mod_lt _ hB

/-- The rest of a string behind its whole blocks. -/
theorem run_snd (s : S) (m : List α) : (run f B s m).2 = m.drop (m.length / B * B) := by
  induction hn : m.length using Nat.strong_induction_on generalizing s m with
  | _ n ih =>
    by_cases h : 0 < B ∧ B ≤ m.length
    · have hdiv : n / B * B = B + (n - B) / B * B := by
        rw [Nat.div_eq_sub_div h.1 (by omega), Nat.succ_mul, Nat.add_comm]
      rw [run_of_le h.1 h.2, ih _ (by rw [List.length_drop]; omega) _ _ rfl, List.drop_drop, List.length_drop, hn,
        hdiv]
    · rw [run, dif_neg h]
      rcases Nat.eq_zero_or_pos B with rfl | hB
      · rw [Nat.mul_zero, List.drop_zero]
      · rw [Nat.div_eq_of_lt (by omega), Nat.zero_mul, List.drop_zero]

/-! ## The blocks of a string -/

/-- The whole blocks of a string. -/
def blocks (B : ℕ) (m : List α) : List (List α) :=
  (List.range (m.length / B)).map fun i => (m.drop (i * B)).take B

theorem length_blocks (B : ℕ) (m : List α) : (blocks B m).length = m.length / B := by simp [blocks]

theorem length_of_mem_blocks {m b : List α} (h : b ∈ blocks B m) : b.length = B := by
  obtain ⟨i, hi, rfl⟩ := List.mem_map.mp h
  have hle : (i + 1) * B ≤ m.length :=
    (Nat.mul_le_mul_right B (List.mem_range.mp hi)).trans (Nat.div_mul_le_self _ _)
  rw [Nat.succ_mul] at hle
  rw [List.length_take, List.length_drop]
  omega

theorem blocks_of_lt {m : List α} (h : m.length < B) : blocks B m = [] := by
  rw [blocks, Nat.div_eq_of_lt h, List.range_zero, List.map_nil]

theorem blocks_of_le (hB : 0 < B) {m : List α} (h : B ≤ m.length) :
    blocks B m = m.take B :: blocks B (m.drop B) := by
  rw [blocks, Nat.div_eq_sub_div hB h, List.range_succ_eq_map, List.map_cons, List.map_map, Nat.zero_mul,
    List.drop_zero, blocks, List.length_drop]
  refine congrArg _ (List.map_congr_left fun i _ => ?_)
  rw [Function.comp_apply, List.drop_drop, Nat.succ_mul, Nat.add_comm]

/-- The state is a fold over the blocks. -/
theorem run_fst (hB : 0 < B) (s : S) (m : List α) : (run f B s m).1 = (blocks B m).foldl f s := by
  induction hn : m.length using Nat.strong_induction_on generalizing s m with
  | _ n ih =>
    rcases Nat.lt_or_ge m.length B with hlt | hle
    · rw [run_of_lt hlt, blocks_of_lt hlt, List.foldl_nil]
    · rw [run_of_le hB hle, blocks_of_le hB hle, List.foldl_cons]
      exact ih _ (by rw [List.length_drop]; omega) _ _ rfl

/-! ## Feeding in pieces -/

/-- A state with a buffer. -/
def feed (f : S → List α → S) (B : ℕ) (s : S × List α) (d : List α) : S × List α := run f B s.1 (s.2 ++ d)

theorem run_eq_feed (s : S) (m : List α) : run f B s m = feed f B (s, []) m := rfl

theorem feed_feed (s : S × List α) (d e : List α) : feed f B (feed f B s d) e = feed f B s (d ++ e) := by
  rw [feed, feed, feed, ← List.append_assoc, ← run_append]

/-- The pieces do not matter. -/
theorem foldl_feed {s : S × List α} (hs : s.2.length < B) (ds : List (List α)) :
    ds.foldl (feed f B) s = feed f B s ds.flatten := by
  induction ds generalizing s with
  | nil => rw [List.foldl_nil, List.flatten_nil, feed, List.append_nil, run_of_lt hs]
  | cons d ds ih =>
    have hbuf : (feed f B s d).2.length < B := length_run_snd_lt (Nat.zero_lt_of_lt hs) _ _
    rw [List.foldl_cons, ih hbuf, feed_feed, List.flatten_cons]

/-- A buffer that is filled up first, then whole blocks, and the rest goes into the buffer. -/
theorem feed_of_le {s : S × List α} (hs : s.2.length < B) {d : List α} (h : B - s.2.length ≤ d.length) :
    feed f B s d = run f B (f s.1 (s.2 ++ d.take (B - s.2.length))) (d.drop (B - s.2.length)) := by
  have hsplit : s.2 ++ d = (s.2 ++ d.take (B - s.2.length)) ++ d.drop (B - s.2.length) := by
    rw [List.append_assoc, List.take_append_drop]
  rw [feed, hsplit, run_block_append (Nat.zero_lt_of_lt hs)]
  rw [List.length_append, List.length_take]
  omega

theorem feed_of_lt {s : S × List α} {d : List α} (hs : s.2.length < B) (h : d.length < B - s.2.length) :
    feed f B s d = (s.1, s.2 ++ d) :=
  run_of_lt (by rw [List.length_append]; omega)

end Lib.BlockStream
