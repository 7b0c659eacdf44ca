import Mathlib.Algebra.Order.Floor.Ring
import Mathlib.Algebra.Order.Field.Basic
import Mathlib.Tactic.Linarith
import Mathlib.Tactic.NormNum

/-!
# Rounding to a range of integers

To the nearest integer, away from zero in the middle, and then to the nearest end of a range. A number that is
at most `m` beyond the range is changed by at most `m`, if `m` is at least one half (`abs_sub_clamp_le`).
-/

namespace Lib.Rounding

variable {F : Type*} [Field F] [LinearOrder F] [FloorRing F]

theorem atLeastTwo_two : Nat.AtLeastTwo 2 := ⟨le_rfl⟩

attribute [local instance] atLeastTwo_two

/-- `roundf`. -/
def roundAway (x : F) : ℤ := if 0 ≤ x then ⌊x + 1 / 2⌋ else -⌊-x + 1 / 2⌋

def clamp (lo hi q : ℤ) : ℤ := if q < lo then lo else if hi < q then hi else q

theorem le_clamp {lo hi : ℤ} (h : lo ≤ hi) (q : ℤ) : lo ≤ clamp lo hi q := by
  unfold clamp
  split_ifs <;> omega

theorem clamp_le {lo hi : ℤ} (h : lo ≤ hi) (q : ℤ) : clamp lo hi q ≤ hi := by
  unfold clamp
  split_ifs <;> omega

variable [IsStrictOrderedRing F] {x : F}

theorem roundAway_bounds (x : F) : (roundAway x : F) - 1 / 2 ≤ x ∧ x ≤ roundAway x + 1 / 2 := by
  unfold roundAway
  split_ifs
  · have hle := Int.floor_le (x + 1 / 2)
    have hlt := Int.lt_floor_add_one (x + 1 / 2)
    constructor <;> linarith
  · have hle := Int.floor_le (-x + 1 / 2)
    have hlt := Int.lt_floor_add_one (-x + 1 / 2)
    push_cast
    constructor <;> linarith

theorem abs_sub_clamp_le {lo hi : ℤ} {m : F} (hm : 1 / 2 ≤ m) (hlo : lo - m ≤ x) (hhi : x ≤ hi + m) :
    |x - clamp lo hi (roundAway x)| ≤ m := by
  obtain ⟨hbelow, habove⟩ := roundAway_bounds x
  unfold clamp
  split_ifs with h1 h2
  · -- then `x` is below the range
    have hcast : (roundAway x : F) + 1 ≤ lo := by exact_mod_cast h1
    rw [abs_sub_comm, abs_of_nonneg (by linarith)]
    linarith
  · have hcast : (hi : F) + 1 ≤ roundAway x := by exact_mod_cast h2
    rw [abs_of_nonneg (by linarith)]
    linarith
  · rw [abs_le]
    constructor <;> linarith

/-- A bound on the number gives one on the integer. -/
theorem abs_roundAway_lt {m : ℤ} (h : |x| ≤ m) : -m - 1 < roundAway x ∧ roundAway x < m + 1 := by
  obtain ⟨hbelow, habove⟩ := roundAway_bounds x
  obtain ⟨hlo, hhi⟩ := abs_le.mp h
  constructor
  · have : (-m - 1 : F) < roundAway x := by linarith
    exact_mod_cast this
  · have : (roundAway x : F) < m + 1 := by linarith
    exact_mod_cast this

end Lib.Rounding
