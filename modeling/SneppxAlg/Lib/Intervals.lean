import Mathlib.Data.List.Basic

/-!
# Intervals one after another

A list of half-open intervals of numbers, each starting where the one in front of it ends. Every number
between the two ends is in exactly one of them (`Spans.countP_eq`), and what composes over adjacent
intervals composes over the whole list (`Spans.foldl_eq`).
-/

namespace Lib.Intervals

/-- The intervals go from `a` to `b`. -/
inductive Spans : ℕ → ℕ → List (ℕ × ℕ) → Prop where
  | nil (a : ℕ) : Spans a a []
  | cons {a m b : ℕ} {l : List (ℕ × ℕ)} (hlt : a < m) (h : Spans m b l) : Spans a b ((a, m) :: l)

variable {a b m : ℕ} {l : List (ℕ × ℕ)}

theorem Spans.le (h : Spans a b l) : a ≤ b := by
  induction h with
  | nil a => exact Nat.le_refl a
  | cons hlt _ ih => exact Nat.le_trans (Nat.le_of_lt hlt) ih

theorem Spans.countP_eq (h : Spans a b l) (i : ℕ) :
    l.countP (fun c => decide (c.1 ≤ i ∧ i < c.2)) = if a ≤ i ∧ i < b then 1 else 0 := by
  induction h with
  | nil a => rw [List.countP_nil, if_neg (by omega)]
  | cons hlt h ih =>
    have hle := h.le
    rw [List.countP_cons, ih]
    simp only [decide_eq_true_eq]
    split_ifs <;> omega

/-- The value to start with is that of an interval in front. -/
theorem Spans.foldl_eq {α : Type*} {combine : α → α → α} {r : ℕ → ℕ → α}
    (hr : ∀ s m e, s < m → m < e → combine (r s m) (r m e) = r s e) (h : Spans m b l) (ham : a < m) :
    (l.map fun c => r c.1 c.2).foldl combine (r a m) = r a b := by
  induction h with
  | nil m => rfl
  | cons hlt h ih =>
    rw [List.map_cons, List.foldl_cons, hr _ _ _ ham hlt]
    exact ih (Nat.lt_trans ham hlt)

end Lib.Intervals
