import Mathlib

/-!
# The slices of an array along an axis

The extents of a row-major array are those in front of an axis, the extent `n` of the axis, and those
behind it, with product `w`. A place is given by its slice, which is a place of the array without the
axis (`reduced`), and by its position in the slice (`pos`); `expanded` puts it together again
(`expanded_eq_iff`). A sum over the places of a slice is a sum over the positions (`sum_slice`).
-/

namespace Lib.Slices

variable {n w outer p q d : ℕ}

/-- The slice through a place. -/
def reduced (n w p : ℕ) : ℕ := p / (n * w) * w + p % w

/-- The position of a place in its slice. -/
def pos (n w p : ℕ) : ℕ := p / w % n

/-- The place at a position of a slice. -/
def expanded (n w q d : ℕ) : ℕ := q / w * (n * w) + d * w + q % w

theorem pos_lt (hn : 0 < n) (p : ℕ) : pos n w p < n := Nat.mod_lt _ hn

theorem reduced_mod (p : ℕ) : reduced n w p % w = p % w := by
  rw [reduced, Nat.add_comm, Nat.add_mul_mod_self_right, Nat.mod_mod]

theorem reduced_div (hw : 0 < w) (p : ℕ) : reduced n w p / w = p / (n * w) := by
  rw [reduced, Nat.add_comm, Nat.add_mul_div_right _ _ hw, Nat.div_eq_of_lt (Nat.mod_lt p hw),
    Nat.zero_add]

theorem expanded_mod (q d : ℕ) : expanded n w q d % w = q % w := by
  have heq : expanded n w q d = q % w + w * (q / w * n + d) := by
    rw [expanded]
    ring
  rw [heq, Nat.add_mul_mod_self_left, Nat.mod_mod]

theorem expanded_div (hw : 0 < w) (q d : ℕ) : expanded n w q d / w = q / w * n + d := by
  have heq : expanded n w q d = q % w + w * (q / w * n + d) := by
    rw [expanded]
    ring
  rw [heq, Nat.add_mul_div_left _ _ hw, Nat.div_eq_of_lt (Nat.mod_lt q hw), Nat.zero_add]

theorem pos_expanded (hw : 0 < w) (q : ℕ) (hd : d < n) : pos n w (expanded n w q d) = d := by
  rw [pos, expanded_div hw, Nat.add_comm, Nat.add_mul_mod_self_right, Nat.mod_eq_of_lt hd]

theorem reduced_expanded (hw : 0 < w) (q : ℕ) (hd : d < n) : reduced n w (expanded n w q d) = q := by
  have hblock : expanded n w q d / (n * w) = q / w := by
    rw [Nat.mul_comm n, ← Nat.div_div_eq_div_mul, expanded_div hw, Nat.add_comm,
      Nat.add_mul_div_right _ _ (by omega), Nat.div_eq_of_lt hd, Nat.zero_add]
  rw [reduced, hblock, expanded_mod, Nat.mul_comm, Nat.div_add_mod]

theorem expanded_reduced (hw : 0 < w) (p : ℕ) : expanded n w (reduced n w p) (pos n w p) = p := by
  have hblock : p / (n * w) = p / w / n := by
    rw [Nat.mul_comm n, Nat.div_div_eq_div_mul]
  rw [expanded, reduced_div hw, reduced_mod, pos, hblock]
  calc p / w / n * (n * w) + p / w % n * w + p % w = (n * (p / w / n) + p / w % n) * w + p % w := by ring
    _ = p := by rw [Nat.div_add_mod, Nat.mul_comm, Nat.div_add_mod]

/-- A place is its slice and its position. -/
theorem expanded_eq_iff (hw : 0 < w) (hd : d < n) :
    expanded n w q d = p ↔ reduced n w p = q ∧ pos n w p = d := by
  constructor
  · rintro rfl
    exact ⟨reduced_expanded hw q hd, pos_expanded hw q hd⟩
  · rintro ⟨rfl, rfl⟩
    exact expanded_reduced hw p

theorem reduced_lt (hp : p < outer * (n * w)) : reduced n w p < outer * w := by
  have hpos : 0 < n * w := Nat.pos_of_ne_zero fun h => by simp [h] at hp
  have hw : 0 < w := Nat.pos_of_mul_pos_left hpos
  have hblock : p / (n * w) < outer := (Nat.div_lt_iff_lt_mul hpos).mpr hp
  calc reduced n w p < p / (n * w) * w + w := Nat.add_lt_add_left (Nat.mod_lt p hw) _
    _ = (p / (n * w) + 1) * w := by ring
    _ ≤ outer * w := Nat.mul_le_mul_right w hblock

theorem expanded_lt (hq : q < outer * w) (hd : d < n) : expanded n w q d < outer * (n * w) := by
  have hw : 0 < w := Nat.pos_of_ne_zero fun h => by simp [h] at hq
  have hrow : expanded n w q d / w < outer * n := by
    rw [expanded_div hw]
    calc q / w * n + d < q / w * n + n := Nat.add_lt_add_left hd _
      _ = (q / w + 1) * n := by ring
      _ ≤ outer * n := Nat.mul_le_mul_right n ((Nat.div_lt_iff_lt_mul hw).mpr hq)
  rw [Nat.div_lt_iff_lt_mul hw] at hrow
  rwa [← Nat.mul_assoc]

theorem sum_slice {M : Type*} [AddCommMonoid M] (hq : q < outer * w) (F : ℕ → M) :
    (∑ p ∈ Finset.range (outer * (n * w)), if reduced n w p = q then F p else 0)
      = ∑ d ∈ Finset.range n, F (expanded n w q d) := by
  have hw : 0 < w := Nat.pos_of_ne_zero fun h => by simp [h] at hq
  rw [← Finset.sum_filter]
  refine Finset.sum_nbij' (pos n w) (expanded n w q) ?_ ?_ ?_ ?_ ?_
  · intro p hp
    obtain ⟨hp, -⟩ := Finset.mem_filter.mp hp
    have hn : 0 < n := Nat.pos_of_ne_zero fun h => by simp [h] at hp
    exact Finset.mem_range.mpr (pos_lt hn p)
  · intro d hd
    rw [Finset.mem_range] at hd
    exact Finset.mem_filter.mpr ⟨Finset.mem_range.mpr (expanded_lt hq hd), reduced_expanded hw q hd⟩
  · intro p hp
    obtain ⟨-, rfl⟩ := Finset.mem_filter.mp hp
    exact expanded_reduced hw p
  · intro d hd
    exact pos_expanded hw q (Finset.mem_range.mp hd)
  · intro p hp
    obtain ⟨-, rfl⟩ := Finset.mem_filter.mp hp
    rw [expanded_reduced hw]

end Lib.Slices
