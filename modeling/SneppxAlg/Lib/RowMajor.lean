import Mathlib.Algebra.BigOperators.Fin
import Mathlib.Data.List.OfFn
import Mathlib.LinearAlgebra.Matrix.Defs

/-!
# Matrices in row-major order

A matrix is stored as a list, one row after the other. A loop over a range whose step can fail, but
does not, gives the list of its values (`mapM_range`), and one that adds gives their sum
(`foldlM_range_add`), so that loops over rows and columns give a matrix again
(`mapM_range_rows`).
-/

namespace Lib.RowMajor

variable {R : Type*} {m n i j : ℕ}

def rowMajor (A : Matrix (Fin m) (Fin n) R) : List R :=
  (List.ofFn fun i => List.ofFn (A i)).flatten

theorem rowMajor_eq_ofFn (A : Matrix (Fin m) (Fin n) R) :
    rowMajor A = List.ofFn fun p : Fin (m * n) => A p.divNat p.modNat := by
  rw [List.ofFn_mul, rowMajor]
  congr 2
  funext i
  congr 1
  funext j
  have hp : (⟨i * n + j, by
      calc i * n + j < (i + 1) * n := by rw [Nat.add_mul, Nat.one_mul]; omega
        _ ≤ m * n := Nat.mul_le_mul_right _ i.isLt⟩ : Fin (m * n)) = Fin.mkDivMod i j := by
    ext
    simp [Nat.mul_comm]
  rw [hp, Fin.divNat_mkDivMod, Fin.modNat_mkDivMod]

@[simp]
theorem length_rowMajor (A : Matrix (Fin m) (Fin n) R) : (rowMajor A).length = m * n := by
  rw [rowMajor_eq_ofFn, List.length_ofFn]

theorem getElem?_rowMajor (A : Matrix (Fin m) (Fin n) R) (i : Fin m) (j : Fin n) :
    (rowMajor A)[i * n + j]? = some (A i j) := by
  have hp : (i : ℕ) * n + j = Fin.mkDivMod i j := by simp [Nat.mul_comm]
  rw [rowMajor_eq_ofFn, hp, List.getElem?_ofFn, dif_pos (Fin.mkDivMod i j).isLt, Fin.eta,
    Fin.divNat_mkDivMod, Fin.modNat_mkDivMod]

theorem rowMajor_injective :
    Function.Injective (rowMajor : Matrix (Fin m) (Fin n) R → List R) := by
  intro A B h
  ext i j
  have hA := getElem?_rowMajor A i j
  rw [h, getElem?_rowMajor B i j] at hA
  exact (Option.some.inj hA).symm

/-! ## Loops over ranges -/

theorem mapM_range {f : ℕ → Option R} {g : Fin n → R} (h : ∀ i : Fin n, f i = some (g i)) :
    (List.range n).mapM f = some (List.ofFn g) := by
  induction n with
  | zero => rfl
  | succ n ih =>
    have hn : f n = some (g (Fin.last n)) := h (Fin.last n)
    rw [List.range_succ, List.mapM_append, ih fun i => h i.castSucc, List.ofFn_succ_last]
    simp [hn]

theorem mapM_range_eq_none {f : ℕ → Option R} (hi : i < n) (h : f i = none) :
    (List.range n).mapM f = none := by
  induction n with
  | zero => exact absurd hi (Nat.not_lt_zero i)
  | succ n ih =>
    rw [List.range_succ, List.mapM_append]
    rcases Nat.lt_succ_iff_lt_or_eq.mp hi with hlt | rfl
    · rw [ih hlt]
      rfl
    · cases (List.range i).mapM f <;> simp [h]

theorem mapM_range_rows {f : ℕ → ℕ → Option R} {A : Matrix (Fin m) (Fin n) R}
    (h : ∀ (i : Fin m) (j : Fin n), f i j = some (A i j)) :
    ((List.range m).mapM fun i => (List.range n).mapM (f i)).map List.flatten =
      some (rowMajor A) := by
  rw [mapM_range fun i => mapM_range (h i)]
  rfl

theorem foldlM_range_add [AddCommMonoid R] {f : R → ℕ → Option R} {g : Fin n → R}
    (h : ∀ (i : Fin n) x, f x i = some (x + g i)) (x : R) :
    (List.range n).foldlM f x = some (x + ∑ i, g i) := by
  induction n with
  | zero => simp
  | succ n ih =>
    have hn : ∀ x, f x n = some (x + g (Fin.last n)) := h (Fin.last n)
    rw [List.range_succ, List.foldlM_append, ih fun i => h i.castSucc, Fin.sum_univ_castSucc]
    simp [hn, add_assoc]

end Lib.RowMajor
