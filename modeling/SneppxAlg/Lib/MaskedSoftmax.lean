import Mathlib.Algebra.BigOperators.Intervals
import Mathlib.Algebra.Order.BigOperators.Group.Finset
import Mathlib.Algebra.Order.Field.Basic
import Mathlib.Tactic.Positivity

/-!
# The softmax of a row with masked places

The weights of a row of scores: a function of the distance to the greatest score, divided by the sum of
all of these and a constant. A masked place has the weight zero and takes no part in the others.

A row may then be cut off behind its last place that is not masked (`weight_of_le`), and the weights of
the others depend on their scores only (`weight_congr`).
-/

namespace Lib.MaskedSoftmax

variable {K : Type*} [Field K] [LinearOrder K]

/-- The greatest score of the places below `n` that are kept, the first one among them. -/
def rowMax (score : ℕ → K) (keep : ℕ → Bool) : ℕ → K
  | 0 => score 0
  | n + 1 => if keep n ∧ rowMax score keep n < score n then score n else rowMax score keep n

/-- What a place adds to the sum. -/
def term (exp : K → K) (score : ℕ → K) (keep : ℕ → Bool) (n j : ℕ) : K :=
  if keep j then exp (score j - rowMax score keep n) else 0

def weight (exp : K → K) (eps : K) (score : ℕ → K) (keep : ℕ → Bool) (n j : ℕ) : K :=
  term exp score keep n j * (1 / ((∑ j ∈ Finset.range n, term exp score keep n j) + eps))

variable {exp : K → K} {eps : K} {score score' : ℕ → K} {keep keep' : ℕ → Bool} {m n : ℕ}

omit [Field K] in
theorem rowMax_congr (h0 : score 0 = score' 0) (hkeep : ∀ j < n, keep j = keep' j)
    (hscore : ∀ j < n, keep j → score j = score' j) :
    rowMax score keep n = rowMax score' keep' n := by
  induction n with
  | zero => exact h0
  | succ n ih =>
    have hprev := ih (fun j hj => hkeep j (by omega)) fun j hj => hscore j (by omega)
    simp only [rowMax, hprev, ← hkeep n (by omega)]
    by_cases hk : keep n
    · rw [hscore n (by omega) hk]
    · simp [hk]

omit [Field K] in
theorem rowMax_of_le (hmn : m ≤ n) (hmask : ∀ j < n, m ≤ j → keep j = false) :
    rowMax score keep n = rowMax score keep m := by
  induction n, hmn using Nat.le_induction with
  | base => rfl
  | succ n hmn ih =>
    rw [rowMax, ih fun j hj => hmask j (by omega)]
    simp [hmask n (by omega) hmn]

theorem weight_congr (h0 : score 0 = score' 0) (hkeep : ∀ j < n, keep j = keep' j)
    (hscore : ∀ j < n, keep j → score j = score' j) {j : ℕ} (hj : j < n) :
    weight exp eps score keep n j = weight exp eps score' keep' n j := by
  have hterm : ∀ j < n, term exp score keep n j = term exp score' keep' n j := by
    intro j hj
    simp only [term, rowMax_congr h0 hkeep hscore, ← hkeep j hj]
    by_cases hk : keep j
    · rw [hscore j hj hk]
    · simp [hk]
  rw [weight, weight, hterm j hj, Finset.sum_congr rfl fun j hj => hterm j (Finset.mem_range.mp hj)]

theorem weight_of_masked {j : ℕ} (hj : keep j = false) : weight exp eps score keep n j = 0 := by
  simp [weight, term, hj]

theorem weight_of_le (hmn : m ≤ n) (hmask : ∀ j < n, m ≤ j → keep j = false) (j : ℕ) :
    weight exp eps score keep n j = weight exp eps score keep m j := by
  have hterm : ∀ j, term exp score keep n j = term exp score keep m j := fun j => by
    rw [term, term, rowMax_of_le hmn hmask]
  have hsum : ∑ j ∈ Finset.range n, term exp score keep n j =
      ∑ j ∈ Finset.range m, term exp score keep m j := by
    rw [← Finset.sum_range_add_sum_Ico _ hmn]
    have hzero : ∑ j ∈ Finset.Ico m n, term exp score keep n j = 0 :=
      Finset.sum_eq_zero fun j hj => by
        obtain ⟨hmj, hjn⟩ := Finset.mem_Ico.mp hj
        simp [term, hmask j hjn hmj]
    rw [hzero, add_zero]
    exact Finset.sum_congr rfl fun j _ => hterm j
  rw [weight, weight, hterm, hsum]

/-- The sum of a row weighted, where the places from `m` on are masked. -/
theorem sum_weight_of_le (hmn : m ≤ n) (hmask : ∀ j < n, m ≤ j → keep j = false) (v : ℕ → K) :
    ∑ j ∈ Finset.range n, weight exp eps score keep n j * v j =
      ∑ j ∈ Finset.range m, weight exp eps score keep m j * v j := by
  rw [← Finset.sum_range_add_sum_Ico _ hmn]
  have hzero : ∑ j ∈ Finset.Ico m n, weight exp eps score keep n j * v j = 0 :=
    Finset.sum_eq_zero fun j hj => by
      obtain ⟨hmj, hjn⟩ := Finset.mem_Ico.mp hj
      rw [weight_of_masked (hmask j hjn hmj), zero_mul]
  rw [hzero, add_zero]
  exact Finset.sum_congr rfl fun j _ => by rw [weight_of_le hmn hmask]

theorem term_nonneg (hexp : ∀ x, 0 < exp x) (j : ℕ) : 0 ≤ term exp score keep n j := by
  unfold term
  split_ifs
  · exact (hexp _).le
  · exact le_refl 0

theorem weight_nonneg [IsStrictOrderedRing K] (hexp : ∀ x, 0 < exp x) (heps : 0 ≤ eps) (j : ℕ) :
    0 ≤ weight exp eps score keep n j := by
  have hterm : 0 ≤ term exp score keep n j := term_nonneg hexp j
  have hsum : 0 ≤ ∑ j ∈ Finset.range n, term exp score keep n j :=
    Finset.sum_nonneg fun j _ => term_nonneg hexp j
  unfold weight
  positivity

theorem weight_pos [IsStrictOrderedRing K] (hexp : ∀ x, 0 < exp x) (heps : 0 ≤ eps) {j : ℕ} (hj : j < n)
    (hk : keep j) : 0 < weight exp eps score keep n j := by
  have hpos : 0 < term exp score keep n j := by
    rw [term, if_pos hk]
    exact hexp _
  have hsum : 0 < ∑ j ∈ Finset.range n, term exp score keep n j :=
    Finset.sum_pos' (fun j _ => term_nonneg hexp j) ⟨j, Finset.mem_range.mpr hj, hpos⟩
  unfold weight
  positivity

end Lib.MaskedSoftmax
