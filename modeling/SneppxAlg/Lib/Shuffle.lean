import Mathlib.Data.List.Basic
import Mathlib.Logic.Function.Basic

/-!
# Shuffling and reversing in place

The shuffle that walks a list from its end and exchanges each element with one at or before it, at
places drawn from a given sequence. The result is a permutation of the list (`shuffle_perm`), and the
list can be recovered from it and the draws (`shuffle_injective`). The elements at the two ends are
exchanged to reverse a list (`reverseInPlace_eq`).
-/

namespace Lib.Shuffle

variable {α : Type*}

/-- Exchange the elements at two places, if there are such places. -/
def swap (l : List α) (i j : ℕ) : List α :=
  match l[i]?, l[j]? with
  | some a, some b => (l.set i b).set j a
  | _, _ => l

/-- The loop from place `i` down to place 1; `k` counts the draws. -/
def shuffle (draw : ℕ → ℕ) : ℕ → ℕ → List α → List α
  | 0, _, l => l
  | i + 1, k, l => shuffle draw i (k + 1) (swap l (i + 1) (draw k % (i + 2)))

theorem swap_cases (l : List α) (i j : ℕ) :
    swap l i j = l ∨
    ∃ (hi : i < l.length) (hj : j < l.length), swap l i j = (l.set i l[j]).set j l[i] := by
  by_cases hi : i < l.length
  · by_cases hj : j < l.length
    · exact Or.inr ⟨hi, hj, by simp [swap, hi, hj]⟩
    · exact Or.inl (by simp [swap, hj])
  · exact Or.inl (by simp [swap, hi])

theorem swap_perm (l : List α) (i j : ℕ) : (swap l i j).Perm l := by
  rcases swap_cases l i j with heq | ⟨hi, hj, heq⟩
  · rw [heq]
  · rw [heq]
    exact List.set_set_perm hi hj

theorem length_swap (l : List α) (i j : ℕ) : (swap l i j).length = l.length :=
  (swap_perm l i j).length_eq

/-- Exchanging twice does nothing. -/
theorem swap_swap (l : List α) (i j : ℕ) : swap (swap l i j) i j = l := by
  rcases swap_cases l i j with heq | ⟨hi, hj, heq⟩
  · rw [heq, heq]
  · have hi' : (swap l i j)[i]? = some l[j] := by
      rw [heq]
      by_cases hij : j = i
      · subst hij
        simp [hi]
      · simp [hij, hi]
    have hj' : (swap l i j)[j]? = some l[i] := by
      rw [heq]
      simp [hj]
    rw [swap, hi', hj', heq]
    apply List.ext_getElem
    · simp
    · intro k h1 h2
      simp only [List.getElem_set]
      split_ifs <;> simp_all

theorem shuffle_perm (draw : ℕ → ℕ) (i k : ℕ) (l : List α) : (shuffle draw i k l).Perm l := by
  induction i generalizing k l with
  | zero => exact List.Perm.refl l
  | succ i ih => exact (ih _ _).trans (swap_perm l _ _)

theorem shuffle_injective (draw : ℕ → ℕ) (i k : ℕ) :
    Function.Injective (shuffle draw i k : List α → List α) := by
  induction i generalizing k with
  | zero => exact fun _ _ h => h
  | succ i ih =>
    intro l l' h
    have hswap := ih (k + 1) h
    rw [← swap_swap l (i + 1) (draw k % (i + 2)), hswap, swap_swap]

/-! ## Reversing -/

/-- Exchange the first and the last element, the second and the second but last, and so on. -/
def reverseInPlace (l : List α) : List α :=
  (List.range (l.length / 2)).foldl (fun l i => swap l i (l.length - 1 - i)) l

theorem getElem?_swap {l : List α} {i j : ℕ} (hi : i < l.length) (hj : j < l.length) (k : ℕ) :
    (swap l i j)[k]? = if k = j then l[i]? else if k = i then l[j]? else l[k]? := by
  have heq : swap l i j = (l.set i l[j]).set j l[i] := by simp [swap, hi, hj]
  rw [heq]
  by_cases hkj : k = j
  · rw [if_pos hkj, hkj, List.getElem?_set_self (by simpa using hj), List.getElem?_eq_getElem hi]
  · rw [if_neg hkj, List.getElem?_set_ne (Ne.symm hkj)]
    by_cases hki : k = i
    · rw [if_pos hki, hki, List.getElem?_set_self hi, List.getElem?_eq_getElem hj]
    · rw [if_neg hki, List.getElem?_set_ne (Ne.symm hki)]

/-- After `k` rounds the `k` elements at both ends are in place. -/
theorem foldl_swap (l : List α) {k : ℕ} (hk : k ≤ l.length / 2) :
    ((List.range k).foldl (fun l i => swap l i (l.length - 1 - i)) l).length = l.length ∧
      ∀ i < l.length, ((List.range k).foldl (fun l i => swap l i (l.length - 1 - i)) l)[i]? =
        if i < k ∨ l.length - k ≤ i then l[l.length - 1 - i]? else l[i]? := by
  induction k with
  | zero =>
    refine ⟨rfl, fun i hi => ?_⟩
    rw [if_neg (by omega)]
    rfl
  | succ k ih =>
    obtain ⟨hlen, hget⟩ := ih (by omega)
    have hfirst := hget k (by omega)
    have hlast := hget (l.length - 1 - k) (by omega)
    rw [if_neg (by omega)] at hfirst hlast
    rw [List.range_succ, List.foldl_append, List.foldl_cons, List.foldl_nil, length_swap]
    refine ⟨hlen, fun i hi => ?_⟩
    rw [getElem?_swap (by omega) (by omega), hlen, hget i hi, hfirst, hlast]
    by_cases hi1 : i = l.length - 1 - k
    · rw [if_pos hi1, if_pos (by omega), show l.length - 1 - i = k by omega]
    · by_cases hi2 : i = k
      · rw [if_neg hi1, if_pos hi2, if_pos (by omega), hi2]
      · rw [if_neg hi1, if_neg hi2]
        by_cases hdone : i < k ∨ l.length - k ≤ i
        · rw [if_pos hdone, if_pos (by omega)]
        · rw [if_neg hdone, if_neg (by omega)]

theorem reverseInPlace_eq (l : List α) : reverseInPlace l = l.reverse := by
  obtain ⟨hlen, hget⟩ := foldl_swap l (Nat.le_refl _)
  refine List.ext_getElem? fun i => ?_
  by_cases hi : i < l.length
  · rw [reverseInPlace, hget i hi, List.getElem?_reverse hi]
    split_ifs with hends
    · rfl
    · rw [show l.length - 1 - i = i by omega]
  · rw [List.getElem?_eq_none (by rw [reverseInPlace, hlen]; omega),
      List.getElem?_eq_none (by rw [List.length_reverse]; omega)]

end Lib.Shuffle
