import Mathlib

/-!
# Multiplication modulo `X ^ n + 1`

A polynomial of degree below `n` is its vector of coefficients. The product of two of them modulo
`X ^ n + 1` is a convolution in which the terms that wrap around change their sign. Continuing a
vector to all of `ℤ` with a change of sign every `n` places turns multiplication by `X` into a
translation, and with it the convolution into a sum of translations (`extend_conv`); that is all it
takes to see that multiplications commute.
-/

namespace Lib.Negacyclic

variable {R : Type*} [CommRing R] {n : ℕ}

/-- The product modulo `X ^ n + 1`. -/
def conv (a b : Fin n → R) (j : Fin n) : R :=
  ∑ i, if i ≤ j then a i * b (j - i) else -(a i * b (j - i))

/-! ## Linearity -/

@[simp] theorem conv_zero (a : Fin n → R) : conv a 0 = 0 := by
  funext j
  simp [conv]

@[simp] theorem zero_conv (b : Fin n → R) : conv 0 b = 0 := by
  funext j
  simp [conv]

theorem conv_add (a b c : Fin n → R) : conv a (b + c) = conv a b + conv a c := by
  funext j
  simp only [conv, Pi.add_apply, ← Finset.sum_add_distrib]
  refine Finset.sum_congr rfl fun i _ => ?_
  split <;> ring

theorem conv_sum (a : Fin n → R) (f : ℕ → Fin n → R) (k : ℕ) :
    conv a (∑ i ∈ Finset.range k, f i) = ∑ i ∈ Finset.range k, conv a (f i) := by
  induction k with
  | zero => simp
  | succ k ih => rw [Finset.sum_range_succ, conv_add, ih, Finset.sum_range_succ]

theorem conv_smul (a b : Fin n → R) (r : R) : conv a (r • b) = r • conv a b := by
  funext j
  simp only [conv, Pi.smul_apply, smul_eq_mul, Finset.mul_sum]
  refine Finset.sum_congr rfl fun i _ => ?_
  split <;> ring

/-- A ring homomorphism carries products to products. -/
theorem map_conv {S : Type*} [CommRing S] (φ : R →+* S) (a b : Fin n → R) (j : Fin n) :
    φ (conv a b j) = conv (fun i => φ (a i)) (fun i => φ (b i)) j := by
  simp only [conv, map_sum]
  refine Finset.sum_congr rfl fun i _ => ?_
  split <;> simp

/-- The size of a product with a sparse factor. -/
theorem abs_conv_le {a b : Fin n → ℤ} {c : ℤ} (hb : ∀ i, |b i| ≤ c) (j : Fin n) :
    |conv a b j| ≤ (∑ i, |a i|) * c := by
  rw [Finset.sum_mul]
  refine (Finset.abs_sum_le_sum_abs _ _).trans (Finset.sum_le_sum fun i _ => ?_)
  have hterm : |a i * b (j - i)| ≤ |a i| * c := by
    rw [abs_mul]
    exact mul_le_mul_of_nonneg_left (hb _) (abs_nonneg _)
  split
  · exact hterm
  · rw [abs_neg]
    exact hterm

/-! ## Translations -/

theorem antiperiodic_add_mul {g : ℤ → R} (hg : ∀ m, g (m + n) = -g m) (m k : ℤ) :
    g (m + n * k) = if Even k then g m else -g m := by
  induction k with
  | zero => simp
  | succ k ih =>
    rw [mul_add, mul_one, ← add_assoc, hg, ih]
    simp only [Int.even_add_one]
    by_cases h : Even (k : ℤ) <;> simp [h]
  | pred k ih =>
    have hstep := hg (m + n * (-(k : ℤ) - 1))
    rw [show m + n * (-(k : ℤ) - 1) + n = m + n * -(k : ℤ) by ring, ih] at hstep
    simp only [Int.even_sub_one]
    by_cases h : Even (-(k : ℤ))
    · simp only [h, if_true, not_true_eq_false, if_false] at hstep ⊢
      rw [hstep, neg_neg]
    · simp only [h, if_false, not_false_eq_true, if_true] at hstep ⊢
      exact (neg_injective hstep).symm

section

variable [NeZero n]

/-- The constant polynomial 1 is neutral. -/
theorem conv_one (a : Fin n → R) : conv a (Pi.single 0 1) = a := by
  funext j
  rw [conv, Finset.sum_eq_single j]
  · simp
  · intro i _ hij
    have hne : j - i ≠ 0 := fun h => hij (sub_eq_zero.mp h).symm
    simp [hne]
  · simp

theorem one_conv (b : Fin n → R) : conv (Pi.single 0 1) b = b := by
  funext j
  rw [conv, Finset.sum_eq_single 0]
  · simp
  · intro i _ hi
    simp [hi]
  · simp

/-- The place of an integer modulo `n`. -/
def place (n : ℕ) [NeZero n] (m : ℤ) : Fin n :=
  ⟨(m % n).toNat, by
    have hn : (0 : ℤ) < n := by exact_mod_cast Nat.pos_of_ne_zero (NeZero.ne n)
    have := Int.emod_lt_of_pos m hn
    have := Int.emod_nonneg m hn.ne'
    omega⟩

/-- A vector continued to all integers, with a change of sign every `n` places. -/
def extend (f : Fin n → R) (m : ℤ) : R :=
  if Even (m / n) then f (place n m) else -f (place n m)

theorem extend_add_period (f : Fin n → R) (m : ℤ) : extend f (m + n) = -extend f m := by
  have hn : (n : ℤ) ≠ 0 := by exact_mod_cast NeZero.ne n
  have hplace : place n (m + n) = place n m := by
    apply Fin.ext
    simp only [place, Int.add_emod_right]
  have hdiv : (m + n) / n = m / n + 1 := by
    rw [Int.add_ediv_of_dvd_right (dvd_refl _), Int.ediv_self hn]
  simp only [extend, hplace, hdiv, Int.even_add_one]
  by_cases h : Even (m / (n : ℤ)) <;> simp [h]

theorem extend_of_lt (f : Fin n → R) (j : Fin n) : extend f (j : ℕ) = f j := by
  have hj := j.isLt
  have hplace : place n ((j : ℕ) : ℤ) = j := by
    apply Fin.ext
    simp only [place]
    rw [Int.emod_eq_of_lt (by omega) (by omega), Int.toNat_natCast]
  rw [extend, hplace, Int.ediv_eq_zero_of_lt (by omega) (by omega)]
  simp

/-- A function that changes its sign every `n` places is continued from its first `n` values. -/
theorem extend_eq_of_antiperiodic {g : ℤ → R} (hg : ∀ m, g (m + n) = -g m) :
    extend (fun j : Fin n => g (j : ℕ)) = g := by
  funext m
  have hn : (0 : ℤ) < n := by exact_mod_cast Nat.pos_of_ne_zero (NeZero.ne n)
  have hplace : (((place n m : Fin n) : ℕ) : ℤ) = m % n :=
    Int.toNat_of_nonneg (Int.emod_nonneg m hn.ne')
  rw [extend, hplace, ← antiperiodic_add_mul hg, Int.emod_add_mul_ediv]

theorem extend_sub (b : Fin n → R) (i j : Fin n) :
    extend b ((j : ℕ) - (i : ℕ) : ℤ) = if i ≤ j then b (j - i) else -b (j - i) := by
  by_cases h : i ≤ j
  · have hval : ((j : ℕ) - (i : ℕ) : ℤ) = ((j - i : Fin n) : ℕ) := by
      rw [Fin.coe_sub_iff_le.mpr h]
      exact (Int.ofNat_sub h).symm
    rw [if_pos h, hval, extend_of_lt]
  · have hval : ((j : ℕ) - (i : ℕ) : ℤ) + n = ((j - i : Fin n) : ℕ) := by
      rw [Fin.coe_sub_iff_lt.mpr (not_le.mp h)]
      have := i.isLt
      omega
    rw [if_neg h, ← neg_eq_iff_eq_neg, ← extend_add_period, hval, extend_of_lt]

/-- The convolution as a sum of translations. -/
theorem conv_eq (a b : Fin n → R) (j : Fin n) :
    conv a b j = ∑ i : Fin n, a i * extend b ((j : ℕ) - (i : ℕ) : ℤ) := by
  refine Finset.sum_congr rfl fun i _ => ?_
  rw [extend_sub]
  by_cases h : i ≤ j <;> simp [h]

theorem extend_conv (a b : Fin n → R) (m : ℤ) :
    extend (conv a b) m = ∑ i : Fin n, a i * extend b (m - (i : ℕ)) := by
  have hanti (m : ℤ) : ∑ i : Fin n, a i * extend b (m + n - (i : ℕ)) =
      -∑ i : Fin n, a i * extend b (m - (i : ℕ)) := by
    rw [← Finset.sum_neg_distrib]
    refine Finset.sum_congr rfl fun i _ => ?_
    rw [show m + n - (i : ℕ) = m - (i : ℕ) + n by ring, extend_add_period, mul_neg]
  have hconv : conv a b = fun j : Fin n => ∑ i : Fin n, a i * extend b ((j : ℕ) - (i : ℕ) : ℤ) := by
    funext j
    exact conv_eq a b j
  rw [hconv]
  exact congrFun
    (extend_eq_of_antiperiodic (g := fun m => ∑ i : Fin n, a i * extend b (m - (i : ℕ))) hanti) m

/-- Multiplications by two polynomials commute. -/
theorem conv_left_comm (a b c : Fin n → R) : conv a (conv b c) = conv b (conv a c) := by
  funext j
  simp only [conv_eq a, conv_eq b, extend_conv, Finset.mul_sum]
  rw [Finset.sum_comm]
  refine Finset.sum_congr rfl fun i _ => Finset.sum_congr rfl fun k _ => ?_
  rw [show (j : ℕ) - (k : ℕ) - (i : ℕ) = ((j : ℕ) - (i : ℕ) - (k : ℕ) : ℤ) by ring]
  ring

end

end Lib.Negacyclic
