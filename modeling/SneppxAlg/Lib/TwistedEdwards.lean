import Mathlib.Algebra.Field.Basic
import Mathlib.Tactic.LinearCombination
import Mathlib.Tactic.FieldSimp
import Mathlib.Tactic.Ring

/-!
# Twisted Edwards curves in extended coordinates

The curve `-x ^ 2 + y ^ 2 = 1 + d * x ^ 2 * y ^ 2`, with the point `(X / Z, Y / Z)` given by four coordinates of which
`X * Y = Z * T`. The sum of two points is given by products of four sums, and it is on the curve again (`OnCurve.add`).
Over a field in which `-1` is a square and `d` is not, it is the affine sum, whose denominators are never zero
(`isSum_add`).
-/

namespace Lib.TwistedEdwards

variable {R : Type*} [CommRing R] {d : R}

/-- Extended coordinates. -/
@[ext] structure Ext (R : Type*) where
  x : R
  y : R
  z : R
  t : R

/-- The two equations of a point. -/
structure OnCurve (d : R) (P : Ext R) : Prop where
  product : P.x * P.y = P.z * P.t
  curve : P.y ^ 2 - P.x ^ 2 = P.z ^ 2 + d * P.t ^ 2

/-- All coordinates times `c`: the same point, if `c` is a unit. -/
def Ext.scale (c : R) (P : Ext R) : Ext R := ⟨c * P.x, c * P.y, c * P.z, c * P.t⟩

/-- The sum, whose coordinates are products of two out of four numbers. -/
def add (d : R) (P Q : Ext R) : Ext R :=
  let e := P.x * Q.y + P.y * Q.x
  let h := P.y * Q.y + P.x * Q.x
  let f := P.z * Q.z - d * P.t * Q.t
  let g := P.z * Q.z + d * P.t * Q.t
  ⟨e * f, g * h, f * g, e * h⟩

theorem OnCurve.scale {P : Ext R} (h : OnCurve d P) (c : R) : OnCurve d (P.scale c) := by
  constructor
  · simp only [Ext.scale]
    linear_combination c ^ 2 * h.product
  · simp only [Ext.scale]
    linear_combination c ^ 2 * h.curve

/-- **The sum of two points is on the curve.** -/
theorem OnCurve.add {P Q : Ext R} (hP : OnCurve d P) (hQ : OnCurve d Q) : OnCurve d (TwistedEdwards.add d P Q) := by
  obtain ⟨px, py, pz, pt⟩ := P
  obtain ⟨qx, qy, qz, qt⟩ := Q
  have p1 : px * py = pz * pt := hP.product
  have p2 : py ^ 2 - px ^ 2 = pz ^ 2 + d * pt ^ 2 := hP.curve
  have q1 : qx * qy = qz * qt := hQ.product
  have q2 : qy ^ 2 - qx ^ 2 = qz ^ 2 + d * qt ^ 2 := hQ.curve
  have hcross : (px * qy + py * qx) * (py * qy - px * qx) = (pz * qz + d * pt * qt) * (pz * qt + pt * qz) := by
    linear_combination (qy ^ 2 - qx ^ 2) * p1 + pz * pt * q2 + (py ^ 2 - px ^ 2) * q1 + qz * qt * p2
  have hprod : (py ^ 2 - px ^ 2) * (qy ^ 2 - qx ^ 2) = (pz ^ 2 + d * pt ^ 2) * (qz ^ 2 + d * qt ^ 2) := by
    rw [p2, q2]
  have hdiff : px * py * (qx * qy) = pz * pt * (qz * qt) := by rw [p1, q1]
  constructor
  · simp only [TwistedEdwards.add]
    ring
  · simp only [TwistedEdwards.add]
    linear_combination -4 * d * (px * qy + py * qx) ^ 2 * hdiff + (pz * qz + d * pt * qt) ^ 2 * hprod -
      d * ((px * qy + py * qx) * (py * qy - px * qx) + (pz * qz + d * pt * qt) * (pz * qt + pt * qz)) * hcross

/-! ## Over a field -/

section Field

variable {K : Type*} [Field K] {d : K}

/-- The product in the denominators of the affine sum. -/
def cross (d : K) (P Q : Ext K) : K := d * (P.x / P.z) * (Q.x / Q.z) * (P.y / P.z) * (Q.y / Q.z)

/-- `R` has the affine coordinates of the sum of `P` and `Q`. -/
structure IsSum (d : K) (P Q R : Ext K) : Prop where
  z_ne_zero : R.z ≠ 0
  add_ne_zero : 1 + cross d P Q ≠ 0
  sub_ne_zero : 1 - cross d P Q ≠ 0
  x_eq : R.x / R.z = (P.x / P.z * (Q.y / Q.z) + P.y / P.z * (Q.x / Q.z)) / (1 + cross d P Q)
  y_eq : R.y / R.z = (P.y / P.z * (Q.y / Q.z) + P.x / P.z * (Q.x / Q.z)) / (1 - cross d P Q)

/-- The sum is the affine one, where its denominators are not zero. -/
theorem isSum_add_of_ne {P Q : Ext K} (hP : OnCurve d P) (hQ : OnCurve d Q) (hPz : P.z ≠ 0) (hQz : Q.z ≠ 0)
    (h1 : 1 + cross d P Q ≠ 0) (h2 : 1 - cross d P Q ≠ 0) : IsSum d P Q (TwistedEdwards.add d P Q) := by
  obtain ⟨px, py, pz, pt⟩ := P
  obtain ⟨qx, qy, qz, qt⟩ := Q
  have hPz' : pz ≠ 0 := hPz
  have hQz' : qz ≠ 0 := hQz
  have hpt : pt = px * py / pz := by
    rw [eq_div_iff hPz']
    linear_combination -hP.product
  have hqt : qt = qx * qy / qz := by
    rw [eq_div_iff hQz']
    linear_combination -hQ.product
  have hg : pz * qz + d * pt * qt = pz * qz * (1 + cross d ⟨px, py, pz, pt⟩ ⟨qx, qy, qz, qt⟩) := by
    rw [hpt, hqt]
    simp only [cross]
    field_simp
  have hf : pz * qz - d * pt * qt = pz * qz * (1 - cross d ⟨px, py, pz, pt⟩ ⟨qx, qy, qz, qt⟩) := by
    rw [hpt, hqt]
    simp only [cross]
    field_simp
  have hz : pz * qz ≠ 0 := mul_ne_zero hPz hQz
  refine ⟨?_, h1, h2, ?_, ?_⟩
  · simp only [TwistedEdwards.add]
    rw [hg, hf]
    exact mul_ne_zero (mul_ne_zero hz h2) (mul_ne_zero hz h1)
  · simp only [TwistedEdwards.add]
    rw [hg, hf]
    generalize 1 + cross d _ _ = g at h1 ⊢
    generalize 1 - cross d _ _ = f at h2 ⊢
    field_simp
  · simp only [TwistedEdwards.add]
    rw [hg, hf]
    generalize 1 + cross d _ _ = g at h1 ⊢
    generalize 1 - cross d _ _ = f at h2 ⊢
    field_simp

/-- Other coordinates of the same point. -/
theorem IsSum.congr {P Q R S : Ext K} (h : IsSum d P Q R) (hz : S.z ≠ 0) (hx : S.x / S.z = R.x / R.z)
    (hy : S.y / S.z = R.y / R.z) : IsSum d P Q S :=
  ⟨hz, h.add_ne_zero, h.sub_ne_zero, hx.trans h.x_eq, hy.trans h.y_eq⟩

theorem IsSum.scale {P Q R : Ext K} (h : IsSum d P Q R) {c : K} (hc : c ≠ 0) : IsSum d P Q (R.scale c) := by
  have hz := h.z_ne_zero
  apply h.congr (mul_ne_zero hc hz)
  · exact mul_div_mul_left _ _ hc
  · exact mul_div_mul_left _ _ hc

theorem IsSum.neutral {P Q R : Ext K} (h : IsSum d P Q R) (hx : R.x = 0) (hy : R.y = R.z) {c : K} (hc : c ≠ 0) :
    IsSum d P Q ⟨0, c, c, 0⟩ := by
  apply h.congr hc
  · rw [hx, zero_div, zero_div]
  · rw [hy, div_self h.z_ne_zero, div_self hc]

theorem onCurve_neutral (d c : K) : OnCurve d ⟨0, c, c, 0⟩ := by
  constructor
  · simp
  · simp

/-- The double of the neutral point. -/
theorem add_self_neutral {P : Ext K} (hP : OnCurve d P) (hd : d ≠ 0) (hx : P.x = 0) (hy : P.y = P.z) :
    (TwistedEdwards.add d P P).x = 0 ∧ (TwistedEdwards.add d P P).y = (TwistedEdwards.add d P P).z := by
  have hdt : d * P.t ^ 2 = 0 := by
    have h := hP.curve
    rw [hx, hy] at h
    linear_combination -h
  have ht : P.t = 0 := pow_eq_zero_iff two_ne_zero |>.mp ((mul_eq_zero.mp hdt).resolve_left hd)
  simp only [TwistedEdwards.add, hx, hy, ht]
  constructor
  · ring
  · ring

/-! ### Completeness -/

section Complete

variable {i : K} (hi : i ^ 2 = -1) (hd : ∀ r : K, r ^ 2 ≠ d) (h2 : (2 : K) ≠ 0)

include hi hd in
include hi hd h2 in
/-- No denominator is zero: otherwise `d` would be the square of a quotient. -/
theorem cross_sq_ne_one {x₁ y₁ x₂ y₂ : K} (h₁ : y₁ ^ 2 - x₁ ^ 2 = 1 + d * x₁ ^ 2 * y₁ ^ 2)
    (h₂ : y₂ ^ 2 - x₂ ^ 2 = 1 + d * x₂ ^ 2 * y₂ ^ 2) : (d * x₁ * x₂ * y₁ * y₂) ^ 2 ≠ 1 := by
  intro hone
  obtain ⟨e, he⟩ : ∃ e, e = d * x₁ * x₂ * y₁ * y₂ := ⟨_, rfl⟩
  rw [← he] at hone
  have hprod : d * x₁ * x₂ * y₁ * y₂ ≠ 0 := by
    rw [← he]
    rintro rfl
    norm_num at hone
  have hx₁ : x₁ ≠ 0 := fun h => hprod (by rw [h]; ring)
  have hy₁ : y₁ ≠ 0 := fun h => hprod (by rw [h]; ring)
  have hx₂ : x₂ ≠ 0 := fun h => hprod (by rw [h]; ring)
  have hside : d * x₁ ^ 2 * y₁ ^ 2 * (y₂ ^ 2 - x₂ ^ 2) = y₁ ^ 2 - x₁ ^ 2 := by
    rw [h₁, h₂]
    linear_combination hone - (e + d * x₁ * x₂ * y₁ * y₂) * he
  have hplus : (i * x₁ + e * y₁) ^ 2 = d * (x₁ * y₁ * (i * x₂ + y₂)) ^ 2 := by
    linear_combination (x₁ ^ 2 - d * x₁ ^ 2 * y₁ ^ 2 * x₂ ^ 2) * hi + y₁ ^ 2 * hone - hside + 2 * i * x₁ * y₁ * he
  have hminus : (i * x₁ - e * y₁) ^ 2 = d * (x₁ * y₁ * (i * x₂ - y₂)) ^ 2 := by
    linear_combination (x₁ ^ 2 - d * x₁ ^ 2 * y₁ ^ 2 * x₂ ^ 2) * hi + y₁ ^ 2 * hone - hside - 2 * i * x₁ * y₁ * he
  have hzero {a b : K} (h : a ^ 2 = d * (x₁ * y₁ * b) ^ 2) : b = 0 := by
    by_contra hb
    refine hd (a / (x₁ * y₁ * b)) ?_
    rw [div_pow, div_eq_iff (pow_ne_zero 2 (mul_ne_zero (mul_ne_zero hx₁ hy₁) hb)), h]
  have hi0 : i ≠ 0 := by
    rintro rfl
    norm_num at hi
  have hsum : 2 * (i * x₂) = 0 := by linear_combination hzero hplus + hzero hminus
  exact mul_ne_zero h2 (mul_ne_zero hi0 hx₂) hsum

include hi hd h2 in
/-- **The sum is the affine one.** -/
theorem isSum_add {P Q : Ext K} (hP : OnCurve d P) (hQ : OnCurve d Q) (hPz : P.z ≠ 0) (hQz : Q.z ≠ 0) :
    IsSum d P Q (TwistedEdwards.add d P Q) := by
  have haff {S : Ext K} (hS : OnCurve d S) (hz : S.z ≠ 0) :
      (S.y / S.z) ^ 2 - (S.x / S.z) ^ 2 = 1 + d * (S.x / S.z) ^ 2 * (S.y / S.z) ^ 2 := by
    have ht : S.t = S.x * S.y / S.z := by
      rw [eq_div_iff hz]
      linear_combination -hS.product
    have hc := hS.curve
    rw [ht] at hc
    field_simp at hc ⊢
    linear_combination hc
  have hne : cross d P Q ^ 2 ≠ 1 := cross_sq_ne_one hi hd h2 (haff hP hPz) (haff hQ hQz)
  refine isSum_add_of_ne hP hQ hPz hQz (fun h => hne ?_) (fun h => hne ?_)
  · linear_combination (cross d P Q - 1) * h
  · linear_combination -(cross d P Q + 1) * h

end Complete

end Field

end Lib.TwistedEdwards
