import Mathlib.Data.Nat.Bitwise
import Mathlib.Data.UInt
import Mathlib.Logic.Function.Basic
import Mathlib.Tactic.Linarith
import Mathlib.Tactic.Ring

/-!
# Numbers in arrays of 32-bit words

An array of words, the least significant first, and the number in its first words. Loops over the
words come with two kinds of facts: what one write does to the number, and where its bits are.
-/

namespace Lib.WordArray

/-- An array of words; how many of them count is said where it is used. -/
abbrev Words := ℕ → UInt32

/-- The number in the first `n` words. -/
def value (a : Words) : ℕ → ℕ
  | 0 => 0
  | n + 1 => value a n + (a n).toNat * 2 ^ (32 * n)

variable {a b : Words} {i k n : ℕ}

@[simp] theorem value_zero : value a 0 = 0 := rfl

theorem value_succ (a : Words) (n : ℕ) :
    value a (n + 1) = value a n + (a n).toNat * 2 ^ (32 * n) := rfl

theorem pow_step (n : ℕ) : 2 ^ (32 * (n + 1)) = 2 ^ 32 * 2 ^ (32 * n) := by
  rw [← pow_add]
  congr 1
  ring

theorem value_lt (a : Words) (n : ℕ) : value a n < 2 ^ (32 * n) := by
  induction n with
  | zero => simp
  | succ n ih =>
    have hn : (a n).toNat + 1 ≤ 2 ^ 32 := (a n).toNat_lt
    calc value a n + (a n).toNat * 2 ^ (32 * n)
        < 2 ^ (32 * n) + (a n).toNat * 2 ^ (32 * n) := Nat.add_lt_add_right ih _
      _ = ((a n).toNat + 1) * 2 ^ (32 * n) := by ring
      _ ≤ 2 ^ 32 * 2 ^ (32 * n) := Nat.mul_le_mul_right _ hn
      _ = 2 ^ (32 * (n + 1)) := (pow_step n).symm

theorem lt_of_two_pow_le_value (h : 2 ^ i ≤ value a n) : i < 32 * n :=
  (Nat.pow_lt_pow_iff_right Nat.one_lt_two).mp (h.trans_lt (value_lt a n))

theorem value_congr (h : ∀ i < n, a i = b i) : value a n = value b n := by
  induction n with
  | zero => rfl
  | succ n ih =>
    rw [value_succ, value_succ, h n (Nat.lt_succ_self n), ih fun i hi => h i (by omega)]

/-- The number determines its words. -/
theorem eq_of_value_eq (h : value a n = value b n) (hi : i < n) : a i = b i := by
  induction n with
  | zero => omega
  | succ n ih =>
    rw [value_succ, value_succ] at h
    have ha := value_lt a n
    have hb := value_lt b n
    have hlow : value a n = value b n := by
      have := congrArg (· % 2 ^ (32 * n)) h
      simpa [Nat.mod_eq_of_lt ha, Nat.mod_eq_of_lt hb] using this
    rcases Nat.lt_succ_iff_lt_or_eq.mp hi with hlt | rfl
    · exact ih hlow hlt
    · rw [hlow, Nat.add_left_cancel_iff, Nat.mul_left_inj (by positivity)] at h
      exact UInt32.toNat_inj.mp h

/-- One write replaces one digit. -/
theorem value_update (a : Words) (v : UInt32) (hi : i < n) :
    value (Function.update a i v) n + (a i).toNat * 2 ^ (32 * i) =
      value a n + v.toNat * 2 ^ (32 * i) := by
  induction n with
  | zero => omega
  | succ n ih =>
    rw [value_succ, value_succ]
    rcases Nat.lt_succ_iff_lt_or_eq.mp hi with hlt | rfl
    · rw [Function.update_of_ne hlt.ne']
      have := ih hlt
      omega
    · have hbelow : value (Function.update a i v) i = value a i :=
        value_congr fun j hj => Function.update_of_ne hj.ne ..
      rw [hbelow, Function.update_self]
      ring

/-- The words from `k` on hold what the number has above. -/
theorem value_add (a : Words) (k n : ℕ) :
    value a (k + n) = value a k + 2 ^ (32 * k) * value (fun i => a (k + i)) n := by
  induction n with
  | zero => simp
  | succ n ih =>
    rw [← Nat.add_assoc, value_succ, ih, value_succ, Nat.mul_add 32, pow_add]
    ring

/-- A number that is small enough is in the low words alone. -/
theorem value_eq_of_lt (hk : k ≤ n) (h : value a n < 2 ^ (32 * k)) : value a n = value a k := by
  obtain ⟨m, rfl⟩ := Nat.exists_eq_add_of_le hk
  rw [value_add] at h ⊢
  have hhigh : value (fun i => a (k + i)) m = 0 := by
    by_contra hne
    have hle : 2 ^ (32 * k) * 1 ≤ 2 ^ (32 * k) * value (fun i => a (k + i)) m :=
      Nat.mul_le_mul_left _ (Nat.one_le_iff_ne_zero.mpr hne)
    omega
  rw [hhigh, Nat.mul_zero, Nat.add_zero]

theorem value_eq_of_zero (hk : k ≤ n) (h : ∀ i, k ≤ i → i < n → a i = 0) :
    value a n = value a k := by
  induction n, hk using Nat.le_induction with
  | base => rfl
  | succ n hkn ih =>
    rw [value_succ, h n hkn (Nat.lt_succ_self n), ih fun i hi hin => h i hi (by omega)]
    simp

theorem testBit_value (a : Words) (n j : ℕ) :
    (value a n).testBit j = (decide (j < 32 * n) && (a (j / 32)).toNat.testBit (j % 32)) := by
  induction n with
  | zero => simp
  | succ n ih =>
    rw [value_succ, Nat.add_comm, Nat.mul_comm, Nat.testBit_two_pow_mul_add _ (value_lt a n)]
    split_ifs with hj
    · rw [ih]
      simp [hj, show j < 32 * (n + 1) by omega]
    · rcases Nat.lt_or_ge j (32 * (n + 1)) with hlt | hge
      · simp [hlt, show j / 32 = n by omega, show j % 32 = j - 32 * n by omega]
      · have hhigh : (a n).toNat.testBit (j - 32 * n) = false :=
          Nat.testBit_eq_false_of_lt ((a n).toNat_lt.trans_le
            (Nat.pow_le_pow_right (by decide) (by omega)))
        simp [hhigh, show ¬ j < 32 * (n + 1) by omega]

/-- A 64-bit sum is its low word and its carry. -/
theorem toUInt32_add_shiftRight (s : UInt64) :
    s.toUInt32.toNat + (s >>> 32).toNat * 2 ^ 32 = s.toNat := by
  have hhi : (s >>> 32).toNat = s.toNat / 2 ^ 32 := by
    rw [UInt64.toNat_shiftRight, Nat.shiftRight_eq_div_pow]
    rfl
  rw [UInt64.toNat_toUInt32, hhi]
  omega

end Lib.WordArray
