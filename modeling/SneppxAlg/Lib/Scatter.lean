import Mathlib.Data.List.Range
import Mathlib.Logic.Function.Basic

/-!
# Loops that write to computed places

A loop over the numbers below `n` that stores the `i`-th value at the place `dst i`. If no two of the
places are the same, the order does not matter: each place holds the value that was stored there
(`scatter_dst`), and all others what they held before (`scatter_of_ne`).

A loop that adds in place reads while it writes. If moreover it reads at none of the places that it
writes to, each place gets the value that the other one held before (`accumulate_dst`).

Values with their places may also come as a list of pairs (`getElem?_writePairs`).
-/

namespace Lib.Scatter

variable {β : Type*} {dst : ℕ → ℕ} {src cells : ℕ → β} {n : ℕ}

def scatter (dst : ℕ → ℕ) (src : ℕ → β) (n : ℕ) (cells : ℕ → β) : ℕ → β :=
  (List.range n).foldl (fun c i => Function.update c (dst i) (src i)) cells

theorem scatter_succ : scatter dst src (n + 1) cells =
    Function.update (scatter dst src n cells) (dst n) (src n) := by
  simp [scatter, List.range_succ]

theorem scatter_of_ne {a : ℕ} (h : ∀ i < n, dst i ≠ a) : scatter dst src n cells a = cells a := by
  induction n with
  | zero => rfl
  | succ n ih =>
    rw [scatter_succ, Function.update_of_ne (h n (by omega)).symm]
    exact ih fun i hi => h i (by omega)

theorem scatter_dst (hinj : ∀ i < n, ∀ j < n, dst i = dst j → i = j) {i : ℕ} (hi : i < n) :
    scatter dst src n cells (dst i) = src i := by
  induction n with
  | zero => omega
  | succ n ih =>
    rw [scatter_succ]
    by_cases heq : i = n
    · rw [heq, Function.update_self]
    · have hne : dst i ≠ dst n := fun h => heq (hinj i hi n (by omega) h)
      rw [Function.update_of_ne hne]
      exact ih (fun a ha b hb => hinj a (by omega) b (by omega)) (by omega)

/-! ## Adding in place -/

section Accumulate

variable {A R : Type*} [DecidableEq A] [Add R] {dst src : ℕ → A} {cells : A → R} {n : ℕ}

/-- The loop `cells[dst i] += cells[src i]`. -/
def accumulate (cells : A → R) (dst src : ℕ → A) : ℕ → A → R
  | 0 => cells
  | n + 1 =>
    Function.update (accumulate cells dst src n) (dst n)
      (accumulate cells dst src n (dst n) + accumulate cells dst src n (src n))

theorem accumulate_of_ne {a : A} (h : ∀ i < n, dst i ≠ a) : accumulate cells dst src n a = cells a := by
  induction n with
  | zero => rfl
  | succ n ih =>
    rw [accumulate, Function.update_of_ne (h n (by omega)).symm]
    exact ih fun i hi => h i (by omega)

theorem accumulate_dst (hinj : ∀ i < n, ∀ j < n, dst i = dst j → i = j)
    (hsrc : ∀ i < n, ∀ j < n, dst i ≠ src j) {i : ℕ} (hi : i < n) :
    accumulate cells dst src n (dst i) = cells (dst i) + cells (src i) := by
  induction n with
  | zero => omega
  | succ n ih =>
    rw [accumulate]
    by_cases heq : i = n
    · have hdst : ∀ k < n, dst k ≠ dst n := fun k hk h => by
        have := hinj k (by omega) n (by omega) h
        omega
      rw [heq, Function.update_self, accumulate_of_ne hdst,
        accumulate_of_ne fun k hk => hsrc k (by omega) n (by omega)]
    · have hne : dst i ≠ dst n := fun h => heq (hinj i hi n (by omega) h)
      rw [Function.update_of_ne hne]
      exact ih (fun a ha b hb => hinj a (by omega) b (by omega))
        (fun a ha b hb => hsrc a (by omega) b (by omega)) (by omega)

end Accumulate

/-! ## Pairs of a place and a value -/

section Pairs

variable {α γ : Type*} {f : α → γ} {buf : List γ} {pairs : List (ℕ × α)}

/-- A value whose place is not in the buffer is dropped. -/
def writePairs (f : α → γ) (buf : List γ) (pairs : List (ℕ × α)) : List γ :=
  pairs.foldl (fun buf p => if p.1 < buf.length then buf.set p.1 (f p.2) else buf) buf

theorem writePairs_cons (p : ℕ × α) : writePairs f buf (p :: pairs) = writePairs f (buf.set p.1 (f p.2)) pairs := by
  by_cases h : p.1 < buf.length
  · simp [writePairs, h]
  · simp [writePairs, h, List.set_eq_of_length_le (not_lt.mp h)]

theorem length_writePairs : (writePairs f buf pairs).length = buf.length := by
  induction pairs generalizing buf with
  | nil => rfl
  | cons p pairs ih => rw [writePairs_cons, ih, List.length_set]

theorem getElem?_writePairs_of_notMem {i : ℕ} (h : i ∉ pairs.map Prod.fst) :
    (writePairs f buf pairs)[i]? = buf[i]? := by
  induction pairs generalizing buf with
  | nil => rfl
  | cons p pairs ih =>
    obtain ⟨hne, h⟩ := List.ne_and_not_mem_of_not_mem_cons h
    rw [writePairs_cons, ih h, List.getElem?_set_ne hne.symm]

/-- The places are different, so a value is not written over. -/
theorem getElem?_writePairs (hnd : (pairs.map Prod.fst).Nodup) {p : ℕ × α} (hp : p ∈ pairs)
    (hlt : p.1 < buf.length) : (writePairs f buf pairs)[p.1]? = some (f p.2) := by
  induction pairs generalizing buf with
  | nil => exact absurd hp List.not_mem_nil
  | cons q pairs ih =>
    obtain ⟨hq, hnd⟩ := List.nodup_cons.mp hnd
    rw [writePairs_cons]
    rcases List.mem_cons.mp hp with rfl | hp
    · rw [getElem?_writePairs_of_notMem hq, List.getElem?_set_self hlt]
    · exact ih hnd hp (by rwa [List.length_set])

end Pairs

end Lib.Scatter
