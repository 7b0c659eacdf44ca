import Mathlib

/-!
# Numbers in columns

A number is kept in columns: column `k` counts for `B ^ k`. The columns are words of a type `W`, read by `val`, and may
hold more than a digit. A product is formed by adding the products of digits to the columns that they belong to; as
long as no column reaches the limit of its words, the columns have the value of the product (`foldl_addAt_pairs`).
-/

namespace Lib.Columns

variable {W : Type*} (B : ℕ) (val : W → ℕ) {n : ℕ}

/-- The value of columns in radix `B`. -/
def value (t : Vector W n) : ℕ := ∑ k : Fin n, val t[k] * B ^ k.val

theorem sum_eq_ofDigits (f : Fin n → ℕ) : ∑ k, f k * B ^ k.val = Nat.ofDigits B (List.ofFn f) := by
  induction n with
  | zero => rfl
  | succ n ih =>
    rw [Fin.sum_univ_succ, List.ofFn_succ, Nat.ofDigits_cons, ← ih, Finset.mul_sum]
    simp only [Fin.val_zero, pow_zero, mul_one, Fin.val_succ, pow_succ']
    refine congrArg _ (Finset.sum_congr rfl fun k _ => ?_)
    rw [Nat.mul_left_comm]

theorem value_eq_ofDigits (t : Vector W n) : value B val t = Nat.ofDigits B (t.toList.map val) := by
  rw [value, sum_eq_ofDigits]
  congr 1
  apply List.ext_getElem
  · simp
  · intro k h1 h2
    simp

theorem value_set (t : Vector W n) {k : ℕ} (hk : k < n) (x : W) :
    value B val (t.set k x) + val t[k] * B ^ k = value B val t + val x * B ^ k := by
  have hcol (i : Fin n) :
      val (t.set k x)[i] * B ^ i.val =
        Function.update (fun i : Fin n => val t[i] * B ^ i.val) ⟨k, hk⟩ (val x * B ^ k) i := by
    rcases eq_or_ne i ⟨k, hk⟩ with rfl | hne
    · rw [Function.update_self, Fin.getElem_fin, Vector.getElem_set_self]
    · rw [Function.update_of_ne hne, Fin.getElem_fin, Vector.getElem_set_ne _ _ (fun h => hne (Fin.ext h.symm))]
      rfl
  have hsum := Finset.sum_update_of_mem (Finset.mem_univ (⟨k, hk⟩ : Fin n))
    (fun i : Fin n => val t[i] * B ^ i.val) (val x * B ^ k)
  have hsplit := Finset.sum_eq_add_sum_sdiff_singleton_of_mem (Finset.mem_univ (⟨k, hk⟩ : Fin n))
    (fun i : Fin n => val t[i] * B ^ i.val)
  simp only [value, hcol]
  rw [hsum]
  simp only [Fin.getElem_fin] at hsplit ⊢
  omega

/-- Adding to a column, if there is one. -/
def addAt (add : W → W → W) (t : Vector W n) (k : ℕ) (x : W) : Vector W n :=
  if h : k < n then t.set k (add t[k] x) else t

variable {B val} {add : W → W → W}

theorem value_addAt {t : Vector W n} {k : ℕ} (hk : k < n) {x : W} (hadd : val (add t[k] x) = val t[k] + val x) :
    value B val (addAt add t k x) = value B val t + val x * B ^ k := by
  have h := value_set B val t hk (add t[k] x)
  rw [hadd, Nat.add_mul] at h
  rw [addAt, dif_pos hk]
  omega

/-- Products that are added one by one, each at most `M`. -/
theorem foldl_addAt {limit M : ℕ} (hadd : ∀ x y, val x + val y < limit → val (add x y) = val x + val y)
    (ps : List (ℕ × W)) (hk : ∀ p ∈ ps, p.1 < n) (hM : ∀ p ∈ ps, val p.2 ≤ M) {c : ℕ} {t : Vector W n}
    (ht : ∀ k : Fin n, val t[k] ≤ c * M) (hlim : (c + ps.length) * M < limit) :
    value B val (ps.foldl (fun t p => addAt add t p.1 p.2) t) =
        value B val t + (ps.map fun p => val p.2 * B ^ p.1).sum ∧
      ∀ k : Fin n, val (ps.foldl (fun t p => addAt add t p.1 p.2) t)[k] ≤ (c + ps.length) * M := by
  induction ps generalizing c t with
  | nil => exact ⟨rfl, ht⟩
  | cons p ps ih =>
    have hpk := hk p List.mem_cons_self
    have hpM := hM p List.mem_cons_self
    have hlen : c + (p :: ps).length = c + 1 + ps.length := by
      rw [List.length_cons]
      omega
    have hone : (c + 1) * M ≤ (c + 1 + ps.length) * M := Nat.mul_le_mul_right _ (by omega)
    have hcol : val t[p.1] ≤ c * M := ht ⟨p.1, hpk⟩
    have hexact : val (add t[p.1] p.2) = val t[p.1] + val p.2 := by
      apply hadd
      rw [hlen] at hlim
      rw [Nat.succ_mul] at hone
      omega
    have hbound (k : Fin n) : val (addAt add t p.1 p.2)[k] ≤ (c + 1) * M := by
      rw [addAt, dif_pos hpk, Nat.succ_mul]
      rcases eq_or_ne p.1 k.val with heq | hne
      · simp only [Fin.getElem_fin, ← heq, Vector.getElem_set_self, hexact]
        omega
      · rw [Fin.getElem_fin, Vector.getElem_set_ne _ _ hne]
        exact (ht k).trans (Nat.le_add_right _ _)
    rw [hlen] at hlim ⊢
    have h := ih (fun q hq => hk q (List.mem_cons_of_mem _ hq)) (fun q hq => hM q (List.mem_cons_of_mem _ hq)) hbound
      hlim
    rw [List.foldl_cons, h.1, value_addAt hpk hexact, List.map_cons, List.sum_cons]
    exact ⟨Nat.add_assoc _ _ _, h.2⟩

/-- The same additions of numbers. -/
theorem foldl_addAt_exact {limit M : ℕ} (hadd : ∀ x y, val x + val y < limit → val (add x y) = val x + val y)
    (ps : List (ℕ × W)) (hM : ∀ p ∈ ps, val p.2 ≤ M) {c : ℕ} {t : Vector W n} {u : Vector ℕ n}
    (ht : ∀ k : Fin n, val t[k] = u[k]) (hu : ∀ k : Fin n, u[k] ≤ c * M) (hlim : (c + ps.length) * M < limit) :
    ∀ k : Fin n, val (ps.foldl (fun t p => addAt add t p.1 p.2) t)[k] =
      (ps.foldl (fun u p => addAt (· + ·) u p.1 (val p.2)) u)[k] := by
  induction ps generalizing c t u with
  | nil => exact ht
  | cons p ps ih =>
    have hlen : c + (p :: ps).length = c + 1 + ps.length := by
      rw [List.length_cons]
      omega
    have hpM := hM p List.mem_cons_self
    have hone : (c + 1) * M ≤ (c + 1 + ps.length) * M := Nat.mul_le_mul_right _ (by omega)
    rw [hlen] at hlim
    rw [List.foldl_cons, List.foldl_cons]
    refine ih (c := c + 1) (fun q hq => hM q (List.mem_cons_of_mem _ hq)) (fun k => ?_) (fun k => ?_) hlim
    · rw [addAt, addAt]
      split_ifs with hk
      · have hcol := ht ⟨p.1, hk⟩
        have hle := hu ⟨p.1, hk⟩
        simp only [Fin.getElem_fin] at hcol hle ⊢
        rw [Vector.getElem_set, Vector.getElem_set]
        split_ifs
        · rw [Nat.succ_mul] at hone
          rw [hadd _ _ (by omega), hcol]
        · exact ht k
      · exact ht k
    · have hk' := hu k
      rw [addAt]
      split_ifs with hk
      · have hle := hu ⟨p.1, hk⟩
        simp only [Fin.getElem_fin] at hk' hle ⊢
        rw [Vector.getElem_set, Nat.succ_mul]
        split_ifs <;> omega
      · rw [Nat.succ_mul]
        omega

/-- The pairs of two loops, one inside of the other. -/
def pairs (m n : ℕ) : List (Fin m × Fin n) :=
  (List.finRange m).flatMap fun i => (List.finRange n).map fun j => (i, j)

theorem length_pairs (m n : ℕ) : (pairs m n).length = m * n := by simp [pairs]

theorem sum_pairs {m n : ℕ} (f : Fin m → ℕ) (g : Fin n → ℕ) :
    ((pairs m n).map fun p => f p.1 * g p.2).sum = (∑ i, f i) * ∑ j, g j := by
  have hrow (i : Fin m) : ((List.finRange n).map fun j => f i * g j).sum = f i * ∑ j, g j := by
    rw [List.sum_map_mul_left, Fin.sum_univ_def]
  rw [pairs, List.map_flatMap, List.flatMap_def, List.sum_flatten, List.map_map, Fin.sum_univ_def f,
    ← List.sum_map_mul_right]
  refine congrArg List.sum (List.map_congr_left fun i _ => ?_)
  rw [Function.comp_apply, List.map_map]
  exact hrow i

/-- **The schoolbook product.** -/
theorem foldl_addAt_pairs {m l limit M : ℕ}
    (hadd : ∀ x y, val x + val y < limit → val (add x y) = val x + val y)
    {prod : Fin m → Fin l → W} {a : Fin m → ℕ} {b : Fin l → ℕ} (hprod : ∀ i j, val (prod i j) = a i * b j)
    (hM : ∀ i j, val (prod i j) ≤ M) (hn : m + l ≤ n + 1) (zero : W) (hzero : val zero = 0)
    (hlim : m * l * M < limit) :
    value B val ((pairs m l).foldl (fun t p => addAt add t (p.1.val + p.2.val) (prod p.1 p.2))
        (Vector.replicate n zero)) = (∑ i, a i * B ^ i.val) * ∑ j, b j * B ^ j.val ∧
      ∀ k : Fin n, val ((pairs m l).foldl (fun t p => addAt add t (p.1.val + p.2.val) (prod p.1 p.2))
        (Vector.replicate n zero))[k] ≤ m * l * M := by
  have hmap : (pairs m l).foldl (fun t p => addAt add t (p.1.val + p.2.val) (prod p.1 p.2)) (Vector.replicate n zero) =
      ((pairs m l).map fun p => (p.1.val + p.2.val, prod p.1 p.2)).foldl (fun t p => addAt add t p.1 p.2)
        (Vector.replicate n zero) := by
    rw [List.foldl_map]
  have h := foldl_addAt (B := B) (n := n) hadd (M := M) (c := 0) (t := Vector.replicate n zero)
    ((pairs m l).map fun p => (p.1.val + p.2.val, prod p.1 p.2))
    (by
      intro p hp
      obtain ⟨q, -, rfl⟩ := List.mem_map.mp hp
      have h1 := q.1.isLt
      have h2 := q.2.isLt
      dsimp only
      omega)
    (by
      intro p hp
      obtain ⟨q, -, rfl⟩ := List.mem_map.mp hp
      exact hM q.1 q.2)
    (by
      intro k
      simp [hzero])
    (by rwa [List.length_map, length_pairs, Nat.zero_add])
  rw [List.length_map, length_pairs, Nat.zero_add, ← hmap, List.map_map] at h
  refine ⟨?_, h.2⟩
  have hvalue : value B val (Vector.replicate n zero) = 0 := by simp [value, hzero]
  rw [h.1, hvalue, Nat.zero_add, ← sum_pairs]
  refine congrArg List.sum (List.map_congr_left fun p _ => ?_)
  rw [Function.comp_apply]
  dsimp only
  rw [hprod, pow_add]
  ring

end Lib.Columns
