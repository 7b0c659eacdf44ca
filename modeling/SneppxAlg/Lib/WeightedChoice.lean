import Mathlib

/-!
# Weighted choice

A number below the sum of a list of weights chooses the entry in whose share it falls, when the
shares are laid out one after another. Each entry is chosen by as many numbers as its weight says
(`card_pickIndex`).
-/

namespace Lib.WeightedChoice

/-- The entry in whose share `r` falls. -/
def pickIndex : ℕ → List ℕ → Option ℕ
  | _, [] => none
  | r, w :: ws => if r < w then some 0 else (pickIndex (r - w) ws).map (· + 1)

theorem pickIndex_eq_some_iff {r i : ℕ} {ws : List ℕ} :
    pickIndex r ws = some i ↔
      i < ws.length ∧ (ws.take i).sum ≤ r ∧ r < (ws.take (i + 1)).sum := by
  induction ws generalizing r i with
  | nil => simp [pickIndex]
  | cons w ws ih =>
    rw [pickIndex]
    split
    · rename_i hlt
      cases i with
      | zero => simpa using hlt
      | succ i =>
        simp only [Option.some.injEq, List.take_succ_cons, List.sum_cons]
        omega
    · rename_i hge
      cases i with
      | zero => simpa using hge
      | succ i =>
        have hiff : (pickIndex (r - w) ws).map (· + 1) = some (i + 1) ↔
            pickIndex (r - w) ws = some i := by
          simp
        rw [hiff, ih]
        simp only [List.take_succ_cons, List.sum_cons, List.length_cons]
        omega

/-- A number below the sum chooses some entry. -/
theorem exists_pickIndex {r : ℕ} {ws : List ℕ} (h : r < ws.sum) :
    ∃ i < ws.length, pickIndex r ws = some i := by
  induction ws generalizing r with
  | nil => simp at h
  | cons w ws ih =>
    rw [pickIndex]
    split
    · exact ⟨0, by simp, rfl⟩
    · rename_i hge
      rw [List.sum_cons] at h
      obtain ⟨i, hi, hpick⟩ := ih (r := r - w) (by omega)
      exact ⟨i + 1, by simpa using hi, by rw [hpick]; rfl⟩

theorem sum_take_succ {ws : List ℕ} {i : ℕ} (h : i < ws.length) :
    (ws.take (i + 1)).sum = (ws.take i).sum + ws[i] := by
  rw [List.take_add_one, List.getElem?_eq_getElem h, List.sum_append]
  simp

theorem sum_take_le (ws : List ℕ) (i : ℕ) : (ws.take i).sum ≤ ws.sum := by
  calc (ws.take i).sum ≤ (ws.take i).sum + (ws.drop i).sum := Nat.le_add_right _ _
    _ = ws.sum := List.sum_take_add_sum_drop ws i

theorem card_pickIndex {ws : List ℕ} {i : ℕ} (h : i < ws.length) :
    ((Finset.range ws.sum).filter fun r => pickIndex r ws = some i).card = ws[i] := by
  have heq : (Finset.range ws.sum).filter (fun r => pickIndex r ws = some i) =
      Finset.Ico (ws.take i).sum (ws.take (i + 1)).sum := by
    ext r
    have hle := sum_take_le ws (i + 1)
    simp only [Finset.mem_filter, Finset.mem_range, Finset.mem_Ico, pickIndex_eq_some_iff]
    constructor
    · exact fun hr => hr.2.2
    · exact fun hr => ⟨hr.2.trans_le hle, h, hr⟩
  rw [heq, Nat.card_Ico, sum_take_succ h, Nat.add_sub_cancel_left]

end Lib.WeightedChoice
