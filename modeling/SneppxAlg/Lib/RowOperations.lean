import Mathlib.LinearAlgebra.Matrix.Block
import Mathlib.LinearAlgebra.Matrix.NonsingularInverse

/-!
# Operations on rows

An array of rows is a function of the row and the column. The loops that exchange two rows, or that combine one row
with another column by column, are followed by their invariants (`forRange_invariant`), which say what they leave at
each place.

**Inverses.** The rows of `[A | 1]` satisfy `v = (the right half of v) · A`, and so do all the rows that row operations
make of them (`Solves`). When the left half is the unit matrix, the right half is the inverse of `A`.

**Determinants.** While columns are eliminated from left to right, the entries below the diagonal in the columns that
are done do not count (`cleared`). Exchanging two rows below negates the determinant, elimination leaves it
(`det_cleared_exchange`, `det_cleared_eliminate`), and at the end it is the product of the diagonal.
-/

namespace Lib.RowOperations

/-! ## Loops -/

section Loops

variable {σ : Type*} {lo hi : ℕ} {f : ℕ → σ → σ} {s : σ}

/-- `for (j = lo; j < hi; j++)`. -/
def forRange (lo hi : ℕ) (f : ℕ → σ → σ) (s : σ) : σ := (List.range' lo (hi - lo)).foldl (fun s j => f j s) s

theorem forRange_invariant (P : ℕ → σ → Prop) (hlo : lo ≤ hi) (h0 : P lo s)
    (hstep : ∀ j s, lo ≤ j → j < hi → P j s → P (j + 1) (f j s)) : P hi (forRange lo hi f s) := by
  obtain ⟨k, rfl⟩ := Nat.exists_eq_add_of_le hlo
  rw [forRange, Nat.add_sub_cancel_left]
  clear hlo
  induction k with
  | zero => exact h0
  | succ k ih =>
    rw [List.range'_concat, List.foldl_concat, Nat.one_mul]
    exact hstep _ _ (Nat.le_add_right lo k) (Nat.lt_succ_self _)
      (ih fun j s hj hk => hstep j s hj (Nat.lt_succ_of_lt hk))

end Loops

variable {K : Type*}

/-- The entry in row `r` and column `c`. -/
abbrev Rows (K : Type*) := ℕ → ℕ → K

/-- `a[r][c] = v`. -/
def store (a : Rows K) (r c : ℕ) (v : K) : Rows K := Function.update a r (Function.update (a r) c v)

theorem store_apply (a : Rows K) (r c : ℕ) (v : K) (r' c' : ℕ) :
    store a r c v r' c' = if r' = r ∧ c' = c then v else a r' c' := by
  rw [store]
  by_cases hr : r' = r
  · subst hr
    rw [Function.update_self]
    by_cases hc : c' = c
    · rw [hc, Function.update_self, if_pos ⟨rfl, rfl⟩]
    · rw [Function.update_of_ne hc, if_neg fun h => hc h.2]
  · rw [Function.update_of_ne hr, if_neg fun h => hr h.1]

/-- Two rows, exchanged column by column. -/
theorem forRange_exchange (width i p : ℕ) (a : Rows K) (r c : ℕ) :
    forRange 0 width (fun j a => store (store a i j (a p j)) p j (a i j)) a r c =
      if c < width then a (Equiv.swap i p r) c else a r c := by
  have hinv := forRange_invariant (f := fun j a => store (store a i j (a p j)) p j (a i j))
    (fun j (b : Rows K) => ∀ r c, b r c = if c < j then a (Equiv.swap i p r) c else a r c) (Nat.zero_le width)
    (s := a) (fun r c => rfl) fun j b _ _ hb r c => ?_
  · exact hinv r c
  · have hi := hb i j
    have hp := hb p j
    rw [if_neg (Nat.lt_irrefl j)] at hi hp
    rw [store_apply, store_apply, hb r c, hi, hp]
    by_cases hc : c = j
    · subst hc
      rw [if_pos (Nat.lt_succ_self c), if_neg (Nat.lt_irrefl c)]
      by_cases hrp : r = p
      · rw [if_pos ⟨hrp, rfl⟩, hrp, Equiv.swap_apply_right]
      · rw [if_neg fun h => hrp h.1]
        by_cases hri : r = i
        · rw [if_pos ⟨hri, rfl⟩, hri, Equiv.swap_apply_left]
        · rw [if_neg fun h => hri h.1, Equiv.swap_apply_of_ne_of_ne hri hrp]
    · rw [if_neg fun h => hc h.2, if_neg fun h => hc h.2]
      simp only [show c < j + 1 ↔ c < j by omega]

/-- A row `k`, combined with another row column by column. -/
theorem forRange_combine {lo hi i k : ℕ} (hlo : lo ≤ hi) (hik : i ≠ k) (h : K → K → K) (a : Rows K) :
    forRange lo hi (fun j a => store a k j (h (a k j) (a i j))) a =
      Function.update a k fun c => if lo ≤ c ∧ c < hi then h (a k c) (a i c) else a k c := by
  refine forRange_invariant (fun j b => b = Function.update a k fun c =>
    if lo ≤ c ∧ c < j then h (a k c) (a i c) else a k c) hlo ?_ ?_
  · refine (Function.update_eq_self_iff.mpr (funext fun c => if_neg ?_)).symm
    omega
  · rintro j b hj - rfl
    rw [store, Function.update_self, Function.update_idem, Function.update_of_ne hik, if_neg (by omega)]
    refine congrArg _ (funext fun c => ?_)
    by_cases hc : c = j
    · rw [hc, Function.update_self, if_pos ⟨hj, Nat.lt_succ_self j⟩]
    · rw [Function.update_of_ne hc]
      exact if_congr (by omega) rfl rfl

/-- The other rows, one after another, each combined with row `i`. -/
theorem forRange_rows {lo hi i : ℕ} (hlo : lo ≤ hi) {f : ℕ → Rows K → Rows K} {g : (ℕ → K) → (ℕ → K) → ℕ → K}
    (hf : ∀ k a, lo ≤ k → k < hi → k ≠ i → f k a = Function.update a k (g (a i) (a k))) (hskip : lo ≤ i → ∀ a, f i a = a)
    (a : Rows K) (r : ℕ) :
    forRange lo hi f a r = if lo ≤ r ∧ r < hi ∧ r ≠ i then g (a i) (a r) else a r := by
  have hinv := forRange_invariant (f := f)
    (fun k (b : Rows K) => ∀ r, b r = if lo ≤ r ∧ r < k ∧ r ≠ i then g (a i) (a r) else a r) hlo (s := a)
    (fun r => (if_neg (by omega)).symm) fun k b hlo_k hk hb r => ?_
  · exact hinv r
  · by_cases hki : k = i
    · rw [hki, hskip (hki ▸ hlo_k), hb r]
      exact if_congr (by omega) rfl rfl
    · have hbi := hb i
      have hbk := hb k
      rw [if_neg (by omega)] at hbi hbk
      rw [hf k b hlo_k hk hki, hbi, hbk]
      by_cases hr : r = k
      · rw [hr, Function.update_self, if_pos ⟨hlo_k, Nat.lt_succ_self k, hki⟩]
      · rw [Function.update_of_ne hr, hb r]
        exact if_congr (by omega) rfl rfl

/-! ## Inverses -/

section Inverses

open Matrix

variable [Field K] {n : ℕ} {A : Matrix (Fin n) (Fin n) K} {v w : ℕ → K}

/-- The left half is the right half times `A`. -/
def Solves (A : Matrix (Fin n) (Fin n) K) (v : ℕ → K) : Prop := ∀ c : Fin n, v c = ∑ l : Fin n, v (n + l) * A l c

theorem Solves.of_eq (h : Solves A v) (hw : ∀ c < 2 * n, w c = v c) : Solves A w := by
  intro c
  rw [hw c (by omega), h c]
  exact Finset.sum_congr rfl fun l _ => by rw [hw (n + l) (by omega)]

theorem Solves.div (h : Solves A v) (k : K) : Solves A fun c => v c / k := by
  intro c
  change v c / k = ∑ l : Fin n, v (n + l) / k * A l c
  rw [h c, div_eq_mul_inv, Finset.sum_mul]
  exact Finset.sum_congr rfl fun l _ => by ring

theorem Solves.sub_mul (hv : Solves A v) (hw : Solves A w) (k : K) : Solves A fun c => v c - k * w c := by
  intro c
  change v c - k * w c = ∑ l : Fin n, (v (n + l) - k * w (n + l)) * A l c
  rw [hv c, hw c, Finset.mul_sum, ← Finset.sum_sub_distrib]
  exact Finset.sum_congr rfl fun l _ => by ring

/-- Row `r` of `[A | 1]`. -/
theorem solves_augmented (r : Fin n) (hleft : ∀ c : Fin n, v c = A r c)
    (hright : ∀ l : Fin n, v (n + l) = if r = l then 1 else 0) : Solves A v := by
  intro c
  rw [hleft c, Finset.sum_eq_single r]
  · rw [hright, if_pos rfl, one_mul]
  · intro l _ hl
    rw [hright, if_neg (Ne.symm hl), zero_mul]
  · exact fun hr => absurd (Finset.mem_univ r) hr

/-- When the left half is the unit matrix, the right half is the inverse. -/
theorem inverse_of_solves {a : Rows K} (hsolves : ∀ r < n, Solves A (a r))
    (hunit : ∀ r < n, ∀ c < n, a r c = if r = c then 1 else 0) :
    let right : Matrix (Fin n) (Fin n) K := Matrix.of fun r l => a r (n + l)
    right * A = 1 ∧ A * right = 1 := by
  intro right
  have hleft : right * A = 1 := by
    ext r c
    rw [Matrix.mul_apply, Matrix.one_apply]
    refine (hsolves r r.isLt c).symm.trans ((hunit r r.isLt c c.isLt).trans ?_)
    exact if_congr Fin.val_inj rfl rfl
  exact ⟨hleft, mul_eq_one_comm.mp hleft⟩

end Inverses

/-! ## Determinants -/

section Determinants

open Matrix

variable [Field K] {n : ℕ} {a b : Rows K} {i p : ℕ}

/-- Zero below the diagonal in the first `i` columns. -/
def cleared (n i : ℕ) (a : Rows K) : Matrix (Fin n) (Fin n) K :=
  Matrix.of fun r c => if c < i ∧ c.val < r then 0 else a r c

theorem cleared_zero : cleared n 0 a = Matrix.of fun r c : Fin n => a r c := by
  ext r c
  change (if c.val < 0 ∧ c.val < r then (0 : K) else a r c) = a r c
  exact if_neg fun h => Nat.not_lt_zero _ h.1

theorem det_cleared_exchange (hi : i < n) (hip : i < p) (hp : p < n)
    (hb : ∀ r < n, ∀ c < n, b r c = a (Equiv.swap i p r) c) : (cleared n i b).det = -(cleared n i a).det := by
  have hperm : cleared n i b = (cleared n i a).submatrix (Equiv.swap (⟨i, hi⟩ : Fin n) ⟨p, hp⟩) id := by
    ext r c
    have hval : (Equiv.swap (⟨i, hi⟩ : Fin n) ⟨p, hp⟩ r).val = Equiv.swap i p r := by
      rw [Equiv.swap_apply_def, Equiv.swap_apply_def, apply_ite Fin.val, apply_ite Fin.val]
      exact if_congr Fin.ext_iff rfl (if_congr Fin.ext_iff rfl rfl)
    have hcol : c.val < i → (c.val < r ↔ c.val < Equiv.swap i p r) := by
      intro hc
      rw [Equiv.swap_apply_def]
      split_ifs <;> omega
    change (if c < i ∧ c.val < r then (0 : K) else b r c) = if c < i ∧ c.val < _ then 0 else a _ c
    rw [hval, hb r r.isLt c c.isLt]
    exact if_congr (and_congr_right hcol) rfl rfl
  have hne : (⟨i, hi⟩ : Fin n) ≠ ⟨p, hp⟩ := fun h => Nat.ne_of_lt hip (Fin.mk.inj h)
  rw [hperm, Matrix.det_permute, Equiv.Perm.sign_swap hne]
  simp

theorem det_cleared_eliminate (hi : i < n) (hpiv : a i i ≠ 0) (habove : ∀ r ≤ i, b r = a r)
    (hbelow : ∀ r, i < r → r < n → ∀ c, i < c → c < n → b r c = a r c - a r i / a i i * a i c) :
    (cleared n (i + 1) b).det = (cleared n i a).det := by
  refine (Matrix.det_eq_of_forall_row_eq_smul_add_const
    (fun r : Fin n => if i < r then a r i / a i i else 0) ⟨i, hi⟩ (if_neg (Nat.lt_irrefl i)) fun r c => ?_).symm
  change (if c < i ∧ c.val < r then (0 : K) else a r c) = (if c < i + 1 ∧ c.val < r then 0 else b r c) +
    (if i < r then a r i / a i i else 0) * if c < i + 1 ∧ c.val < i then 0 else b i c
  rw [habove i le_rfl]
  by_cases hr : i < r
  · rw [if_pos hr]
    rcases Nat.lt_trichotomy c i with hc | hc | hc
    · rw [if_pos ⟨hc, by omega⟩, if_pos ⟨by omega, by omega⟩, if_pos ⟨by omega, hc⟩, mul_zero, add_zero]
    · rw [if_neg (by omega), if_pos ⟨by omega, by omega⟩, if_neg (by omega), hc, div_mul_cancel₀ _ hpiv, zero_add]
    · rw [if_neg (by omega), if_neg (by omega), if_neg (by omega), hbelow r hr r.isLt c hc c.isLt, sub_add_cancel]
  · rw [if_neg hr, zero_mul, add_zero, habove r (by omega)]
    exact if_congr (by omega) rfl rfl

theorem det_cleared_last : (cleared n n a).det = ∏ c : Fin n, a c c := by
  have hupper : (cleared n n a).IsUpperTriangular := fun r c hcr => if_pos ⟨c.isLt, hcr⟩
  rw [Matrix.det_of_isUpperTriangular hupper]
  exact Finset.prod_congr rfl fun c _ => if_neg fun h => Nat.lt_irrefl _ h.2

end Determinants

end Lib.RowOperations
