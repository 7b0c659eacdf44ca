import Mathlib.Data.List.Iterate
import Mathlib.Data.List.Nodup

/-!
# Walking along a function

A loop that replaces `x` by `f x` until it is at a target, and the list of what it meets. The target is
reached if it is on the orbit at all (`exists_stepsTo`), the number of steps is the least one
(`stepsTo_spec`), and so nothing is met twice (`nodup_iterate`).
-/

namespace Lib.Orbit

variable {α : Type*} {f : α → α} {x target : α} {n : ℕ}

/-- How often `f` has to be applied, `none` if `fuel` steps are not enough. -/
def stepsTo [DecidableEq α] (f : α → α) (target : α) : (fuel : ℕ) → α → Option ℕ
  | 0, x => if x = target then some 0 else none
  | fuel + 1, x => if x = target then some 0 else (stepsTo f target fuel (f x)).map (· + 1)

theorem stepsTo_spec [DecidableEq α] {fuel : ℕ} (h : stepsTo f target fuel x = some n) :
    f^[n] x = target ∧ ∀ m < n, f^[m] x ≠ target := by
  induction fuel generalizing x n with
  | zero =>
    rw [stepsTo] at h
    split_ifs at h with hx
    obtain rfl := Option.some.inj h
    exact ⟨hx, fun m hm => absurd hm (Nat.not_lt_zero m)⟩
  | succ fuel ih =>
    rw [stepsTo] at h
    split_ifs at h with hx
    · obtain rfl := Option.some.inj h
      exact ⟨hx, fun m hm => absurd hm (Nat.not_lt_zero m)⟩
    · obtain ⟨k, hk, rfl⟩ := Option.map_eq_some_iff.mp h
      obtain ⟨hreach, hleast⟩ := ih hk
      refine ⟨hreach, fun m hm => ?_⟩
      cases m with
      | zero => exact hx
      | succ m => exact hleast m (by omega)

theorem exists_stepsTo [DecidableEq α] {fuel : ℕ} (hn : n ≤ fuel) (h : f^[n] x = target) :
    ∃ k, stepsTo f target fuel x = some k := by
  induction fuel generalizing x n with
  | zero =>
    obtain rfl : n = 0 := by omega
    exact ⟨0, if_pos h⟩
  | succ fuel ih =>
    by_cases hx : x = target
    · exact ⟨0, if_pos hx⟩
    cases n with
    | zero => exact absurd h hx
    | succ n =>
      obtain ⟨k, hk⟩ := ih (Nat.le_of_succ_le_succ hn) (Function.iterate_succ_apply f n x ▸ h)
      exact ⟨k + 1, by rw [stepsTo, if_neg hx, hk, Option.map_some]⟩

theorem isChain_iterate (f : α → α) (x : α) (n : ℕ) : (List.iterate f x n).IsChain fun a b => b = f a := by
  rw [List.isChain_iff_getElem]
  intro i hi
  rw [List.getElem_iterate, List.getElem_iterate, Function.iterate_succ_apply']

theorem head?_iterate (f : α → α) (x : α) (n : ℕ) : (List.iterate f x (n + 1)).head? = some x := rfl

theorem getLast?_iterate (f : α → α) (x : α) (n : ℕ) :
    (List.iterate f x (n + 1)).getLast? = some (f^[n] x) := by
  rw [List.getLast?_eq_getElem?, List.length_iterate, Nat.add_sub_cancel,
    List.getElem?_iterate _ _ _ _ (Nat.lt_succ_self n)]

/-- Two equal places before the end would let the end be reached earlier. -/
theorem nodup_iterate (h : ∀ m < n, f^[m] x ≠ f^[n] x) : (List.iterate f x (n + 1)).Nodup := by
  rw [List.Nodup, List.pairwise_iff_getElem]
  intro i j hi hj hij heq
  rw [List.getElem_iterate, List.getElem_iterate] at heq
  rw [List.length_iterate] at hj
  refine h (n - j + i) (by omega) ?_
  rw [Function.iterate_add_apply, heq, ← Function.iterate_add_apply, Nat.sub_add_cancel (by omega)]

end Lib.Orbit
