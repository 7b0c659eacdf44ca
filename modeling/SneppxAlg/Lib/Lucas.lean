import Mathlib.NumberTheory.LucasPrimality
import Mathlib.Tactic.NormNum.Prime

/-!
# Primes from the factors of their predecessors

Lucas's test with powers that the kernel evaluates, by repeated squaring.
-/

namespace Lib.Lucas

/-- `r * a ^ n` modulo `m`, for an exponent of `bits` bits. -/
def mulPow (m : ℕ) : ℕ → ℕ → ℕ → ℕ → ℕ
  | 0, r, _, _ => r % m
  | bits + 1, r, a, n => mulPow m bits (if n % 2 = 1 then r * a % m else r) (a * a % m) (n / 2)

theorem mulPow_eq (m : ℕ) {bits n : ℕ} (hn : n < 2 ^ bits) (r a : ℕ) : mulPow m bits r a n = r * a ^ n % m := by
  induction bits generalizing n r a with
  | zero =>
    rw [Nat.lt_one_iff.mp hn, pow_zero, mul_one]
    rfl
  | succ bits ih =>
    have hhalf : n / 2 < 2 ^ bits := by
      rw [pow_succ] at hn
      omega
    have hsq (s : ℕ) : s * (a * a % m) ^ (n / 2) % m = s * a ^ (2 * (n / 2)) % m := by
      rw [Nat.mul_mod, ← Nat.pow_mod, ← Nat.mul_mod, ← pow_two, ← pow_mul]
    rw [mulPow, ih hhalf, hsq]
    split_ifs with hodd
    · conv_rhs => rw [← Nat.div_add_mod n 2, hodd, pow_succ']
      rw [Nat.mod_mul_mod, Nat.mul_assoc]
    · conv_rhs => rw [← Nat.div_add_mod n 2, show n % 2 = 0 by omega, Nat.add_zero]

/-- The test, for the prime factors `fs` of `p - 1`. -/
theorem prime_of_factors {p : ℕ} (a bits : ℕ) (fs : List ℕ) (hp : 2 ≤ p) (hbits : p ≤ 2 ^ bits)
    (hprime : ∀ q ∈ fs, q.Prime) (hprod : fs.prod = p - 1) (hone : mulPow p bits 1 a (p - 1) = 1)
    (hne : ∀ q ∈ fs, mulPow p bits 1 a ((p - 1) / q) ≠ 1) : p.Prime := by
  have hpow {n : ℕ} (hn : n ≤ p - 1) : (a : ZMod p) ^ n = 1 ↔ mulPow p bits 1 a n = 1 := by
    rw [mulPow_eq p (by omega), Nat.one_mul, ← Nat.cast_pow, ← Nat.cast_one, ZMod.natCast_eq_natCast_iff',
      Nat.one_mod_eq_one.mpr (by omega)]
  refine lucas_primality p (a : ZMod p) ((hpow le_rfl).mpr hone) fun q hq hdvd => ?_
  rw [← hprod] at hdvd
  obtain ⟨r, hr, hqr⟩ := (Prime.dvd_prod_iff hq.prime).mp hdvd
  obtain rfl := (Nat.prime_dvd_prime_iff_eq hq (hprime r hr)).mp hqr
  rw [Ne, hpow (Nat.div_le_self _ _)]
  exact hne q hr

/-- A number with a base for its test and the factors of its predecessor. -/
structure Link where
  prime : ℕ
  base : ℕ
  factors : List ℕ

/-- The test of one number, its factors among the primes that are known. -/
def Link.Passes (bits : ℕ) (known : List ℕ) (l : Link) : Prop :=
  2 ≤ l.prime ∧ l.prime ≤ 2 ^ bits ∧ (∀ q ∈ l.factors, q ∈ known) ∧ l.factors.prod = l.prime - 1 ∧
    mulPow l.prime bits 1 l.base (l.prime - 1) = 1 ∧
    ∀ q ∈ l.factors, mulPow l.prime bits 1 l.base ((l.prime - 1) / q) ≠ 1

instance (bits : ℕ) (known : List ℕ) (l : Link) : Decidable (l.Passes bits known) :=
  inferInstanceAs (Decidable (_ ∧ _))

/-- The primes that are known after the chain, as far as it passes. -/
def primes (bits : ℕ) : List ℕ → List Link → List ℕ
  | known, [] => known
  | known, l :: ls => if l.Passes bits known then primes bits (l.prime :: known) ls else known

theorem prime_of_mem_primes {bits : ℕ} {known : List ℕ} (hknown : ∀ q ∈ known, q.Prime) (ls : List Link) :
    ∀ q ∈ primes bits known ls, q.Prime := by
  induction ls generalizing known with
  | nil => exact hknown
  | cons l ls ih =>
    rw [primes]
    split_ifs with hl
    · obtain ⟨htwo, hbits, hmem, hprod, hone, hne⟩ := hl
      refine ih (List.forall_mem_cons.mpr ⟨?_, hknown⟩)
      exact prime_of_factors l.base bits l.factors htwo hbits (fun q hq => hknown q (hmem q hq)) hprod hone hne
    · exact hknown

end Lib.Lucas
