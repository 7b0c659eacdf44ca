import Mathlib.Data.UInt
import Mathlib.Tactic

/-!
# Bit patterns of floats

A float of 32 bits as a double with the same value (`widen`), and the integer that a conversion of a double gives
(`trunc`). The other conversions round; they are a parameter, of which only is known that it gives back a float that
was widened (`Roundings`).
-/

namespace Lib.FloatBits

/-- The sign bit of a float. -/
def sign32 (x : UInt32) : ℕ := x.toNat / 2 ^ 31

/-- The exponent field of a float. -/
def exponent32 (x : UInt32) : ℕ := x.toNat / 2 ^ 23 % 2 ^ 8

/-- The significand field of a float. -/
def significand32 (x : UInt32) : ℕ := x.toNat % 2 ^ 23

/-- A conversion from `float` to `double`. -/
def widen (x : UInt32) : UInt64 :=
  let m := significand32 x
  UInt64.ofNat (sign32 x * 2 ^ 63 +
    if exponent32 x = 255 then 2047 * 2 ^ 52 + m * 2 ^ 29
    else if exponent32 x = 0 then
      if m = 0 then 0 else (Nat.log2 m + 874) * 2 ^ 52 + (m - 2 ^ Nat.log2 m) * 2 ^ (52 - Nat.log2 m)
    else (exponent32 x + 896) * 2 ^ 52 + m * 2 ^ 29)

/-- The magnitude of a double, without its fraction. -/
def magnitude (v : UInt64) : ℕ :=
  let e := v.toNat / 2 ^ 52 % 2 ^ 11
  let m := v.toNat % 2 ^ 52 + if e = 0 then 0 else 2 ^ 52
  if 1075 ≤ e then m * 2 ^ (e - 1075) else m / 2 ^ (1075 - max e 1)

/-- The value of a double without its fraction, if it is finite. -/
def trunc (v : UInt64) : Option ℤ :=
  if v.toNat / 2 ^ 52 % 2 ^ 11 = 2047 then none
  else some (if v.toNat / 2 ^ 63 = 0 then magnitude v else -magnitude v)

theorem trunc_zero : trunc 0 = some 0 := by
  have hmagnitude : magnitude 0 = 0 := by
    simp only [magnitude, UInt64.toNat_zero, Nat.zero_div, Nat.zero_mod, if_true, Nat.add_zero]
    rw [if_neg (by decide)]
  rw [trunc, hmagnitude]
  rfl

def isZero (v : UInt64) : Bool := v.toNat % 2 ^ 63 = 0

/-- Conversions from `double`. -/
structure Roundings where
  float32 : UInt64 → UInt32
  float16 : UInt64 → UInt16
  bfloat16 : UInt64 → UInt16
  float8 : UInt64 → UInt8
  float32_widen : ∀ x, exponent32 x < 255 → float32 (widen x) = x

theorem fields_eq (x : UInt32) :
    x.toNat = sign32 x * 2 ^ 31 + exponent32 x * 2 ^ 23 + significand32 x ∧ sign32 x < 2 ∧ significand32 x < 2 ^ 23 := by
  have := x.toNat_lt
  simp only [sign32, exponent32, significand32]
  omega

/-- A double below 8. -/
theorem magnitude_lt {v : UInt64} {e : ℕ} (he : v.toNat / 2 ^ 52 % 2 ^ 11 = e + 896) (h : e ≤ 129) : magnitude v < 8 := by
  have hfield : v.toNat % 2 ^ 52 < 2 ^ 52 := Nat.mod_lt _ (by decide)
  simp only [magnitude, he]
  generalize v.toNat % 2 ^ 52 = m at hfield ⊢
  rw [if_neg (by omega), if_neg (by omega), Nat.div_lt_iff_lt_mul (by positivity), Nat.max_eq_left (by omega)]
  calc m + 2 ^ 52 < 2 ^ 53 := by omega
    _ = 8 * 2 ^ 50 := by norm_num
    _ ≤ 8 * 2 ^ (1075 - (e + 896)) := Nat.mul_le_mul_left 8 (Nat.pow_le_pow_right (by decide) (by omega))

theorem trunc_lt {v : UInt64} {e : ℕ} (he : v.toNat / 2 ^ 52 % 2 ^ 11 = e + 896) (h : e ≤ 129) :
    ∃ z, trunc v = some z ∧ -8 < z ∧ z < 8 := by
  have hmagnitude := magnitude_lt he h
  rw [trunc, if_neg (by omega)]
  generalize magnitude v = k at hmagnitude ⊢
  refine ⟨_, rfl, ?_, ?_⟩ <;> split_ifs <;> omega

section Normal

variable {x : UInt32} (hlo : 0 < exponent32 x) (hhi : exponent32 x < 255)
include hlo hhi

theorem toNat_widen :
    (widen x).toNat = sign32 x * 2 ^ 63 + (exponent32 x + 896) * 2 ^ 52 + significand32 x * 2 ^ 29 := by
  obtain ⟨-, hs, hm⟩ := fields_eq x
  rw [widen, if_neg hhi.ne, if_neg hlo.ne', UInt64.toNat_ofNat_of_lt' (by simp only [UInt64.size]; omega), Nat.add_assoc]

/-- The lower half is another pattern. -/
theorem toNat_widen_mod : (widen x).toNat % 2 ^ 32 ≠ x.toNat := by
  obtain ⟨hx, hs, hm⟩ := fields_eq x
  have hhigh : sign32 x * 2 ^ 63 + (exponent32 x + 896) * 2 ^ 52 + significand32 x * 2 ^ 29 =
      2 ^ 32 * (sign32 x * 2 ^ 31 + (exponent32 x + 896) * 2 ^ 20) + significand32 x * 2 ^ 29 := by ring
  rw [toNat_widen hlo hhi, hx, hhigh, Nat.mul_add_mod, show 2 ^ 32 = 8 * 2 ^ 29 by rfl, Nat.mul_mod_mul_right]
  generalize exponent32 x = e at *
  generalize sign32 x = s at *
  generalize significand32 x = m at *
  omega

/-- Below 8 the integer is, too. -/
theorem trunc_widen (h : exponent32 x ≤ 129) : ∃ z, trunc (widen x) = some z ∧ -8 < z ∧ z < 8 := by
  obtain ⟨-, hs, hm⟩ := fields_eq x
  refine trunc_lt ?_ h
  rw [toNat_widen hlo hhi]
  generalize exponent32 x = e at *
  generalize sign32 x = s at *
  generalize significand32 x = m at *
  omega

/-- The pattern is not that of the integer. -/
theorem emod_trunc_ne (h : exponent32 x ≤ 129) {z : ℤ} (hz : trunc (widen x) = some z) :
    (z % 2 ^ 32).toNat ≠ x.toNat ∧ (z % 2 ^ 64).toNat % 2 ^ 32 ≠ x.toNat := by
  obtain ⟨z', hz', hz_lo, hz_hi⟩ := trunc_widen hlo hhi h
  obtain rfl := Option.some.inj (hz'.symm.trans hz)
  obtain ⟨hx, hs, hm⟩ := fields_eq x
  rw [hx]
  generalize exponent32 x = e at *
  generalize sign32 x = s at *
  generalize significand32 x = m at *
  omega

end Normal

/-! ## Cutting off -/

/-- A conversion to `float` of a double in its range, toward zero. -/
def narrow (v : UInt64) : UInt32 :=
  let e := v.toNat / 2 ^ 52 % 2 ^ 11
  let m := v.toNat % 2 ^ 52
  UInt32.ofNat (v.toNat / 2 ^ 63 * 2 ^ 31 +
    if 897 ≤ e then (e - 896) * 2 ^ 23 + m / 2 ^ 29 else (2 ^ 52 + m) / 2 ^ (926 - e))

theorem narrow_eq {v : UInt64} {s e m : ℕ} (hv : v.toNat = s * 2 ^ 63 + e * 2 ^ 52 + m) (he : e < 2 ^ 11)
    (hm : m < 2 ^ 52) :
    narrow v = UInt32.ofNat (s * 2 ^ 31 +
      if 897 ≤ e then (e - 896) * 2 ^ 23 + m / 2 ^ 29 else (2 ^ 52 + m) / 2 ^ (926 - e)) := by
  have hs : v.toNat / 2 ^ 63 = s := by omega
  have he' : v.toNat / 2 ^ 52 % 2 ^ 11 = e := by omega
  have hm' : v.toNat % 2 ^ 52 = m := by omega
  rw [narrow, hs, he', hm']

theorem ofNat_fields {x : UInt32} : UInt32.ofNat (sign32 x * 2 ^ 31 + (exponent32 x * 2 ^ 23 + significand32 x)) = x := by
  rw [← Nat.add_assoc, ← (fields_eq x).1, UInt32.ofNat_toNat]

/-- A significand of a float without an exponent, with its leading bit brought to the front. -/
theorem leading_bit {m : ℕ} (h0 : m ≠ 0) (hm : m < 2 ^ 23) :
    Nat.log2 m ≤ 22 ∧ (m - 2 ^ Nat.log2 m) * 2 ^ (52 - Nat.log2 m) < 2 ^ 52 ∧
      (2 ^ 52 + (m - 2 ^ Nat.log2 m) * 2 ^ (52 - Nat.log2 m)) / 2 ^ (52 - Nat.log2 m) = m := by
  have hlog : Nat.log2 m < 23 := (Nat.log2_lt h0).mpr hm
  have hlo : 2 ^ Nat.log2 m ≤ m := Nat.log2_self_le h0
  have hhi : m < 2 ^ (Nat.log2 m + 1) := Nat.lt_log2_self
  generalize Nat.log2 m = k at *
  have hsplit : 2 ^ 52 = 2 ^ k * 2 ^ (52 - k) := by rw [← Nat.pow_add, Nat.add_sub_cancel' (by omega)]
  have hpos : 0 < 2 ^ (52 - k) := Nat.two_pow_pos _
  refine ⟨Nat.le_of_lt_succ hlog, ?_, ?_⟩
  · rw [hsplit]
    exact Nat.mul_lt_mul_of_pos_right (by rw [Nat.pow_succ] at hhi; omega) hpos
  · rw [hsplit, ← Nat.add_mul, Nat.add_sub_cancel' hlo, Nat.mul_div_cancel _ hpos]

theorem narrow_widen {x : UInt32} (hx : exponent32 x < 255) : narrow (widen x) = x := by
  obtain ⟨-, hs, hm⟩ := fields_eq x
  rcases Nat.eq_zero_or_pos (exponent32 x) with h0 | hlo
  · have hfields := ofNat_fields (x := x)
    rw [h0, Nat.zero_mul, Nat.zero_add] at hfields
    by_cases hm0 : significand32 x = 0
    · have hv : (widen x).toNat = sign32 x * 2 ^ 63 + 0 * 2 ^ 52 + 0 := by
        rw [widen, if_neg hx.ne, if_pos h0, if_pos hm0, UInt64.toNat_ofNat_of_lt' (by simp only [UInt64.size]; omega),
          Nat.zero_mul, Nat.add_zero]
      have hcut : ∀ e, 52 < e → (2 ^ 52 + 0) / 2 ^ e = 0 := fun e he =>
        Nat.div_eq_of_lt (Nat.pow_lt_pow_right (by decide) he)
      rw [narrow_eq hv (by decide) (by decide), if_neg (by decide), hcut _ (by decide), ← hm0]
      exact hfields
    · obtain ⟨hlog, hfrac, hdiv⟩ := leading_bit hm0 hm
      generalize hk : Nat.log2 (significand32 x) = k at *
      generalize hf : (significand32 x - 2 ^ k) * 2 ^ (52 - k) = f at *
      have hv : (widen x).toNat = sign32 x * 2 ^ 63 + (k + 874) * 2 ^ 52 + f := by
        rw [widen, if_neg hx.ne, if_pos h0, if_neg hm0, hk, hf, ← Nat.add_assoc]
        exact UInt64.toNat_ofNat_of_lt' (by simp only [UInt64.size]; omega)
      rw [narrow_eq hv (by omega) hfrac, if_neg (by omega), show 926 - (k + 874) = 52 - k by omega, hdiv]
      exact hfields
  · have hv := toNat_widen hlo hx
    have hlow : significand32 x * 2 ^ 29 / 2 ^ 29 = significand32 x := Nat.mul_div_cancel _ (by decide)
    rw [narrow_eq hv (by omega) (by omega), if_pos (by omega), Nat.add_sub_assoc (by decide), hlow]
    exact ofNat_fields

/-- Conversions to `float` that cut off; the values of the smaller types are left out. -/
def cutting : Roundings where
  float32 := narrow
  float16 _ := 0
  bfloat16 _ := 0
  float8 _ := 0
  float32_widen _ := narrow_widen

end Lib.FloatBits
