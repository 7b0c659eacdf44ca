import SneppxAlg.Crypto.Poly1305

/-!
# Poly1305 limb arithmetic

What the limb operations of `poly1305.c` compute, as natural numbers. No word of a block
wraps, the carry chain folds the bits above `2 ^ 130` back times 5, and a block multiplies
the accumulator by the key modulo `2 ^ 130 - 5`.

The last section is about `condSub`. Its lowest constant is `2 ^ 30 - 5`, which no carried
limb reaches, so the chain of borrows always ends with one and the subtraction never happens.
-/

namespace SneppxAlg.Poly1305

open Lib.Bytes

/-- The Poly1305 prime. -/
def p : Nat := 2 ^ 130 - 5

/-- The number five limbs stand for. -/
def Limbs.val (x : Limbs) : Nat :=
  x.l0.toNat + 2 ^ 26 * x.l1.toNat + 2 ^ 52 * x.l2.toNat + 2 ^ 78 * x.l3.toNat +
    2 ^ 104 * x.l4.toNat

/-- Every limb is below `b`. -/
structure Limbs.Below (x : Limbs) (b : Nat) : Prop where
  l0 : x.l0.toNat < b
  l1 : x.l1.toNat < b
  l2 : x.l2.toNat < b
  l3 : x.l3.toNat < b
  l4 : x.l4.toNat < b

/-! ## Masks and shifts by limb -/

theorem toNat_and_mask26 (x : UInt64) : (x &&& mask26).toNat = x.toNat % 2 ^ 26 :=
  toNat_and_mask x mask26 26 rfl

theorem toNat_shiftRight_26 (x : UInt64) : (x >>> 26).toNat = x.toNat / 2 ^ 26 :=
  toNat_shiftRight_lt x 26 (by decide)

/-! ## Cutting two words into limbs -/

theorem toNat_limb2 (lo hi : UInt64) :
    (((lo >>> 52) ||| (hi <<< 12)) &&& mask26).toNat =
      lo.toNat / 2 ^ 52 + 2 ^ 12 * (hi.toNat % 2 ^ 14) := by
  have hlo := lo.toNat_lt
  have hhi := hi.toNat_lt
  have hs : (lo >>> 52).toNat = lo.toNat / 2 ^ 52 := toNat_shiftRight_lt lo 52 (by decide)
  have hl : (hi <<< 12).toNat = (hi.toNat % 2 ^ 52) <<< 12 := by
    have h12 : (12 : UInt64).toNat % 64 = 12 := rfl
    rw [UInt64.toNat_shiftLeft, h12, Nat.shiftLeft_eq, Nat.shiftLeft_eq]
    omega
  rw [toNat_and_mask26, UInt64.toNat_or, hs, hl, or_shiftLeft_eq_add (by omega)]
  omega

theorem limbsOf_val (lo hi : UInt64) : (limbsOf lo hi).val = lo.toNat + 2 ^ 64 * hi.toNat := by
  have hlo := lo.toNat_lt
  have hhi := hi.toNat_lt
  have h14 : (hi >>> 14).toNat = hi.toNat / 2 ^ 14 := toNat_shiftRight_lt hi 14 (by decide)
  have h40 : (hi >>> 40).toNat = hi.toNat / 2 ^ 40 := toNat_shiftRight_lt hi 40 (by decide)
  simp only [Limbs.val, limbsOf]
  rw [toNat_limb2]
  simp only [toNat_and_mask26, toNat_shiftRight_26, h14, h40]
  omega

theorem limbsOf_below (lo hi : UInt64) : (limbsOf lo hi).Below (2 ^ 26) := by
  constructor <;> simp only [limbsOf, toNat_and_mask26] <;> exact Nat.mod_lt _ (by decide)

/-! ## Adding a block -/

theorem load_eq (m : Vector UInt8 16) :
    (loadLo m).toNat + 2 ^ 64 * (loadHi m).toNat = leVal m.toList := by
  rw [loadLo, loadHi, toNat_word64, toNat_word64, toList_sixteen]
  simp only [leVal_cons, leVal_nil]
  omega

/-- What the accumulator's limbs keep between blocks: only the second may exceed 26 bits. -/
structure Limbs.Carried (x : Limbs) : Prop where
  l0 : x.l0.toNat < 2 ^ 26
  l1 : x.l1.toNat < 2 ^ 26 + 2 ^ 12
  l2 : x.l2.toNat < 2 ^ 26
  l3 : x.l3.toNat < 2 ^ 26
  l4 : x.l4.toNat < 2 ^ 26

theorem Limbs.Carried.below {x : Limbs} (h : x.Carried) : x.Below (2 ^ 60) := by
  obtain ⟨h0, h1, h2, h3, h4⟩ := h
  constructor <;> omega

theorem absorb_spec {h : Limbs} (hh : h.Carried) (m : Vector UInt8 16) {hb : UInt64}
    (hhb : hb.toNat ≤ 2 ^ 24) :
    (absorb h m hb).Below (2 ^ 28) ∧
      (absorb h m hb).val = h.val + leVal m.toList + 2 ^ 104 * hb.toNat := by
  obtain ⟨h0, h1, h2, h3, h4⟩ := hh
  have hbl := limbsOf_below (loadLo m) (loadHi m)
  have hval := limbsOf_val (loadLo m) (loadHi m)
  obtain ⟨b0, b1, b2, b3, b4⟩ := hbl
  rw [← load_eq, ← hval]
  simp only [absorb]
  generalize limbsOf (loadLo m) (loadHi m) = b at b0 b1 b2 b3 b4
  have e0 : (h.l0 + b.l0).toNat = h.l0.toNat + b.l0.toNat := toNat_add_lt (by omega)
  have e1 : (h.l1 + b.l1).toNat = h.l1.toNat + b.l1.toNat := toNat_add_lt (by omega)
  have e2 : (h.l2 + b.l2).toNat = h.l2.toNat + b.l2.toNat := toNat_add_lt (by omega)
  have e3 : (h.l3 + b.l3).toNat = h.l3.toNat + b.l3.toNat := toNat_add_lt (by omega)
  have e4 : (h.l4 + b.l4).toNat = h.l4.toNat + b.l4.toNat := toNat_add_lt (by omega)
  have e5 : (h.l4 + b.l4 + hb).toNat = h.l4.toNat + b.l4.toNat + hb.toNat := by
    rw [toNat_add_lt (by omega), e4]
  refine ⟨⟨?_, ?_, ?_, ?_, ?_⟩, ?_⟩ <;>
    simp only [Limbs.val, e0, e1, e2, e3, e5] <;> omega

/-! ## The product -/

/-- A sum of five products of bounded words does not wrap. -/
theorem toNat_dot {x0 x1 x2 x3 x4 y0 y1 y2 y3 y4 : UInt64}
    (hx0 : x0.toNat < 2 ^ 31) (hx1 : x1.toNat < 2 ^ 31) (hx2 : x2.toNat < 2 ^ 31)
    (hx3 : x3.toNat < 2 ^ 31) (hx4 : x4.toNat < 2 ^ 31)
    (hy0 : y0.toNat < 2 ^ 26) (hy1 : y1.toNat < 2 ^ 26) (hy2 : y2.toNat < 2 ^ 26)
    (hy3 : y3.toNat < 2 ^ 26) (hy4 : y4.toNat < 2 ^ 26) :
    (x0 * y0 + x1 * y1 + x2 * y2 + x3 * y3 + x4 * y4).toNat =
      x0.toNat * y0.toNat + x1.toNat * y1.toNat + x2.toNat * y2.toNat + x3.toNat * y3.toNat +
        x4.toNat * y4.toNat := by
  have hmul {x y : UInt64} (hx : x.toNat < 2 ^ 31) (hy : y.toNat < 2 ^ 26) :
      (x * y).toNat = x.toNat * y.toNat ∧ x.toNat * y.toNat < 2 ^ 57 := by
    have hlt : x.toNat * y.toNat < 2 ^ 31 * 2 ^ 26 := Nat.mul_lt_mul'' hx hy
    exact ⟨toNat_mul_lt (by omega), by omega⟩
  obtain ⟨e0, l0⟩ := hmul hx0 hy0
  obtain ⟨e1, l1⟩ := hmul hx1 hy1
  obtain ⟨e2, l2⟩ := hmul hx2 hy2
  obtain ⟨e3, l3⟩ := hmul hx3 hy3
  obtain ⟨e4, l4⟩ := hmul hx4 hy4
  have s1 : (x0 * y0 + x1 * y1).toNat = _ := toNat_add_lt (by omega)
  have s2 : (x0 * y0 + x1 * y1 + x2 * y2).toNat = _ := toNat_add_lt (by omega)
  have s3 : (x0 * y0 + x1 * y1 + x2 * y2 + x3 * y3).toNat = _ := toNat_add_lt (by omega)
  have s4 : (x0 * y0 + x1 * y1 + x2 * y2 + x3 * y3 + x4 * y4).toNat = _ :=
    toNat_add_lt (by omega)
  rw [s4, s3, s2, s1, e0, e1, e2, e3, e4]

/-- The multiples of `2 ^ 130` that `product` folds back. -/
def foldedPart (h r : Limbs) : Nat :=
  h.l1.toNat * r.l4.toNat + h.l2.toNat * r.l3.toNat + h.l3.toNat * r.l2.toNat +
      h.l4.toNat * r.l1.toNat +
    2 ^ 26 * (h.l2.toNat * r.l4.toNat + h.l3.toNat * r.l3.toNat + h.l4.toNat * r.l2.toNat) +
    2 ^ 52 * (h.l3.toNat * r.l4.toNat + h.l4.toNat * r.l3.toNat) +
    2 ^ 78 * (h.l4.toNat * r.l4.toNat)

theorem product_toNat {h r : Limbs} (hh : h.Below (2 ^ 28)) (hr : r.Below (2 ^ 26)) :
    (product h r).l0.toNat = h.l0.toNat * r.l0.toNat + 5 * (h.l1.toNat * r.l4.toNat) +
        5 * (h.l2.toNat * r.l3.toNat) + 5 * (h.l3.toNat * r.l2.toNat) +
        5 * (h.l4.toNat * r.l1.toNat) ∧
      (product h r).l1.toNat = h.l0.toNat * r.l1.toNat + h.l1.toNat * r.l0.toNat +
        5 * (h.l2.toNat * r.l4.toNat) + 5 * (h.l3.toNat * r.l3.toNat) +
        5 * (h.l4.toNat * r.l2.toNat) ∧
      (product h r).l2.toNat = h.l0.toNat * r.l2.toNat + h.l1.toNat * r.l1.toNat +
        h.l2.toNat * r.l0.toNat + 5 * (h.l3.toNat * r.l4.toNat) +
        5 * (h.l4.toNat * r.l3.toNat) ∧
      (product h r).l3.toNat = h.l0.toNat * r.l3.toNat + h.l1.toNat * r.l2.toNat +
        h.l2.toNat * r.l1.toNat + h.l3.toNat * r.l0.toNat + 5 * (h.l4.toNat * r.l4.toNat) ∧
      (product h r).l4.toNat = h.l0.toNat * r.l4.toNat + h.l1.toNat * r.l3.toNat +
        h.l2.toNat * r.l2.toNat + h.l3.toNat * r.l1.toNat + h.l4.toNat * r.l0.toNat := by
  obtain ⟨h0, h1, h2, h3, h4⟩ := hh
  obtain ⟨r0, r1, r2, r3, r4⟩ := hr
  have five {x : UInt64} (hx : x.toNat < 2 ^ 28) :
      (x * 5).toNat = 5 * x.toNat ∧ (x * 5).toNat < 2 ^ 31 := by
    have h5 : (5 : UInt64).toNat = 5 := rfl
    have e : (x * 5).toNat = x.toNat * 5 := by rw [toNat_mul_lt (by rw [h5]; omega), h5]
    omega
  have wide {x : UInt64} (hx : x.toNat < 2 ^ 28) : x.toNat < 2 ^ 31 := by omega
  obtain ⟨f1, b1⟩ := five h1
  obtain ⟨f2, b2⟩ := five h2
  obtain ⟨f3, b3⟩ := five h3
  obtain ⟨f4, b4⟩ := five h4
  have e0 := toNat_dot (wide h0) b1 b2 b3 b4 r0 r4 r3 r2 r1
  have e1 := toNat_dot (wide h0) (wide h1) b2 b3 b4 r1 r0 r4 r3 r2
  have e2 := toNat_dot (wide h0) (wide h1) (wide h2) b3 b4 r2 r1 r0 r4 r3
  have e3 := toNat_dot (wide h0) (wide h1) (wide h2) (wide h3) b4 r3 r2 r1 r0 r4
  have e4 := toNat_dot (wide h0) (wide h1) (wide h2) (wide h3) (wide h4) r4 r3 r2 r1 r0
  simp only [product, e0, e1, e2, e3, e4, f1, f2, f3, f4, Nat.mul_assoc, and_self]

theorem product_below {h r : Limbs} (hh : h.Below (2 ^ 28)) (hr : r.Below (2 ^ 26)) :
    (product h r).Below (2 ^ 60) := by
  obtain ⟨e0, e1, e2, e3, e4⟩ := product_toNat hh hr
  obtain ⟨h0, h1, h2, h3, h4⟩ := hh
  obtain ⟨r0, r1, r2, r3, r4⟩ := hr
  have bound {x y : Nat} (hx : x < 2 ^ 28) (hy : y < 2 ^ 26) : x * y < 2 ^ 54 :=
    (Nat.mul_lt_mul'' hx hy).trans_eq (by norm_num)
  constructor
  · have := bound h0 r0; have := bound h1 r4; have := bound h2 r3; have := bound h3 r2
    have := bound h4 r1; omega
  · have := bound h0 r1; have := bound h1 r0; have := bound h2 r4; have := bound h3 r3
    have := bound h4 r2; omega
  · have := bound h0 r2; have := bound h1 r1; have := bound h2 r0; have := bound h3 r4
    have := bound h4 r3; omega
  · have := bound h0 r3; have := bound h1 r2; have := bound h2 r1; have := bound h3 r0
    have := bound h4 r4; omega
  · have := bound h0 r4; have := bound h1 r3; have := bound h2 r2; have := bound h3 r1
    have := bound h4 r0; omega

theorem product_val {h r : Limbs} (hh : h.Below (2 ^ 28)) (hr : r.Below (2 ^ 26)) :
    h.val * r.val = (product h r).val + p * foldedPart h r := by
  obtain ⟨e0, e1, e2, e3, e4⟩ := product_toNat hh hr
  have hp : p = 1361129467683753853853498429727072845819 := by norm_num [p]
  simp only [Limbs.val, foldedPart, e0, e1, e2, e3, e4, hp]
  ring

/-- A number every multiple of which by a limb of a nonzero key vanishes is zero. -/
theorem eq_zero_of_mul_limbs {x : Nat} {r : Limbs} (hr : r.val ≠ 0) (k0 : x * r.l0.toNat = 0)
    (k1 : x * r.l1.toNat = 0) (k2 : x * r.l2.toNat = 0) (k3 : x * r.l3.toNat = 0)
    (k4 : x * r.l4.toNat = 0) : x = 0 := by
  by_contra hx
  have cancel {y : Nat} (hxy : x * y = 0) : y = 0 := (Nat.mul_eq_zero.mp hxy).resolve_left hx
  exact hr (by simp [Limbs.val, cancel k0, cancel k1, cancel k2, cancel k3, cancel k4])

/-- A product under a nonzero key is not small unless its factor is. -/
theorem product_val_ge {h r : Limbs} (hh : h.Below (2 ^ 28)) (hr : r.Below (2 ^ 26))
    (hr0 : r.val ≠ 0) (h5 : 5 ≤ h.val) : 5 ≤ (product h r).val := by
  obtain ⟨e0, e1, e2, e3, e4⟩ := product_toNat hh hr
  by_contra hlt
  rw [Limbs.val] at hlt
  -- Every limb but the lowest is zero, and in the lowest only `h0 * r0` has no factor 5.
  have sum {a b c d e : Nat} (hs : a + b + c + d + e = 0) :
      a = 0 ∧ b = 0 ∧ c = 0 ∧ d = 0 ∧ e = 0 := by omega
  have low {a b c d e : Nat} (hs : a + 5 * b + 5 * c + 5 * d + 5 * e < 5) :
      a < 5 ∧ b = 0 ∧ c = 0 ∧ d = 0 ∧ e = 0 := by omega
  have five {a : Nat} (ha : 5 * a = 0) : a = 0 := by omega
  obtain ⟨z00, z14, z23, z32, z41⟩ := low (e0.symm.trans_lt (by omega))
  obtain ⟨z01, z10, z24, z33, z42⟩ := sum (e1.symm.trans (by omega))
  obtain ⟨z02, z11, z20, z34, z43⟩ := sum (e2.symm.trans (by omega))
  obtain ⟨z03, z12, z21, z30, z44⟩ := sum (e3.symm.trans (by omega))
  obtain ⟨z04, z13, z22, z31, z40⟩ := sum (e4.symm.trans (by omega))
  have h1 := eq_zero_of_mul_limbs hr0 z10 z11 z12 z13 z14
  have h2 := eq_zero_of_mul_limbs hr0 z20 z21 z22 z23 (five z24)
  have h3 := eq_zero_of_mul_limbs hr0 z30 z31 z32 (five z33) (five z34)
  have h4 := eq_zero_of_mul_limbs hr0 z40 z41 (five z42) (five z43) (five z44)
  rw [Limbs.val, h1, h2, h3, h4] at h5
  by_cases hz : r.l0.toNat = 0
  · have h0 := eq_zero_of_mul_limbs hr0 (by rw [hz, Nat.mul_zero]) z01 z02 z03 z04
    omega
  · have hle := Nat.le_mul_of_pos_right h.l0.toNat (Nat.pos_of_ne_zero hz)
    omega

/-! ## The carry chain -/

/-- The limbs of a carry, as numbers: `q i` is what limb `i` holds when its carry is taken. -/
theorem carry_toNat {d : Limbs} (hd : d.Below (2 ^ 60)) :
    ∃ q1 q2 q3 q4 q0 : Nat,
      q1 = d.l1.toNat + d.l0.toNat / 2 ^ 26 ∧ q2 = d.l2.toNat + q1 / 2 ^ 26 ∧
      q3 = d.l3.toNat + q2 / 2 ^ 26 ∧ q4 = d.l4.toNat + q3 / 2 ^ 26 ∧
      q0 = d.l0.toNat % 2 ^ 26 + q4 / 2 ^ 26 * 5 ∧
      (carry d).l0.toNat = q0 % 2 ^ 26 ∧ (carry d).l1.toNat = q1 % 2 ^ 26 + q0 / 2 ^ 26 ∧
      (carry d).l2.toNat = q2 % 2 ^ 26 ∧ (carry d).l3.toNat = q3 % 2 ^ 26 ∧
      (carry d).l4.toNat = q4 % 2 ^ 26 := by
  obtain ⟨b0, b1, b2, b3, b4⟩ := hd
  have e1 : (d.l1 + (d.l0 >>> 26)).toNat = d.l1.toNat + d.l0.toNat / 2 ^ 26 := by
    rw [toNat_add_lt (by rw [toNat_shiftRight_26]; omega), toNat_shiftRight_26]
  generalize hd1 : d.l1 + (d.l0 >>> 26) = d1 at e1
  have e2 : (d.l2 + (d1 >>> 26)).toNat = d.l2.toNat + d1.toNat / 2 ^ 26 := by
    rw [toNat_add_lt (by rw [toNat_shiftRight_26]; omega), toNat_shiftRight_26]
  generalize hd2 : d.l2 + (d1 >>> 26) = d2 at e2
  have e3 : (d.l3 + (d2 >>> 26)).toNat = d.l3.toNat + d2.toNat / 2 ^ 26 := by
    rw [toNat_add_lt (by rw [toNat_shiftRight_26]; omega), toNat_shiftRight_26]
  generalize hd3 : d.l3 + (d2 >>> 26) = d3 at e3
  have e4 : (d.l4 + (d3 >>> 26)).toNat = d.l4.toNat + d3.toNat / 2 ^ 26 := by
    rw [toNat_add_lt (by rw [toNat_shiftRight_26]; omega), toNat_shiftRight_26]
  generalize hd4 : d.l4 + (d3 >>> 26) = d4 at e4
  have e5 : ((d4 >>> 26) * 5).toNat = d4.toNat / 2 ^ 26 * 5 := by
    have h5 : (5 : UInt64).toNat = 5 := rfl
    rw [toNat_mul_lt (by rw [toNat_shiftRight_26, h5]; omega), toNat_shiftRight_26, h5]
  have e0 : ((d.l0 &&& mask26) + (d4 >>> 26) * 5).toNat =
      d.l0.toNat % 2 ^ 26 + d4.toNat / 2 ^ 26 * 5 := by
    rw [toNat_add_lt (by rw [toNat_and_mask26, e5]; omega), toNat_and_mask26, e5]
  generalize hh0 : (d.l0 &&& mask26) + (d4 >>> 26) * 5 = h0 at e0
  have e6 : ((d1 &&& mask26) + (h0 >>> 26)).toNat = d1.toNat % 2 ^ 26 + h0.toNat / 2 ^ 26 := by
    rw [toNat_add_lt (by rw [toNat_and_mask26, toNat_shiftRight_26]; omega), toNat_and_mask26,
      toNat_shiftRight_26]
  refine ⟨d1.toNat, d2.toNat, d3.toNat, d4.toNat, h0.toNat, e1, e2, e3, e4, e0, ?_⟩
  simp only [carry, hd1, hd2, hd3, hd4, hh0, toNat_and_mask26, e6, and_self]

/-- Carrying folds the part above `2 ^ 130` back times 5 and changes nothing else. -/
theorem carry_spec {d : Limbs} (hd : d.Below (2 ^ 60)) :
    (carry d).Carried ∧
      (carry d).val = d.val % 2 ^ 130 + 5 * (d.val / 2 ^ 130) := by
  obtain ⟨q1, q2, q3, q4, q0, e1, e2, e3, e4, e0, c0, c1, c2, c3, c4⟩ := carry_toNat hd
  obtain ⟨b0, b1, b2, b3, b4⟩ := hd
  refine ⟨⟨?_, ?_, ?_, ?_, ?_⟩, ?_⟩ <;> simp only [Limbs.val, c0, c1, c2, c3, c4] <;> omega

/-- A second carry leaves 26 bits in every limb: it can overflow the top limb only when the
second limb's excess runs through all the others, and then that limb is left small. -/
theorem carry_below {d : Limbs} (hd : d.Carried) : (carry d).Below (2 ^ 26) := by
  obtain ⟨q1, q2, q3, q4, q0, e1, e2, e3, e4, e0, c0, c1, c2, c3, c4⟩ := carry_toNat hd.below
  obtain ⟨b0, b1, b2, b3, b4⟩ := hd
  constructor <;> simp only [c0, c1, c2, c3, c4] <;> omega

/-! ## One block -/

theorem carry_val_mod {d : Limbs} (hd : d.Below (2 ^ 60)) : (carry d).val % p = d.val % p := by
  have h := (carry_spec hd).2
  simp only [p]
  omega

theorem carry_val_ge {d : Limbs} (hd : d.Below (2 ^ 60)) (h5 : 5 ≤ d.val) : 5 ≤ (carry d).val := by
  have h := (carry_spec hd).2
  omega

section Block

variable {h r : Limbs} {hb : UInt64} (hc : h.Carried) (hr : r.Below (2 ^ 26))
  (hhb : hb.toNat ≤ 2 ^ 24) (m : Vector UInt8 16)

include hc hr hhb

theorem blockLimbs_carried : (blockLimbs h r m hb).Carried := by
  rw [blockLimbs]
  exact (carry_spec (product_below (absorb_spec hc m hhb).1 hr)).1

/-- A block multiplies by the key modulo `p`. -/
theorem blockLimbs_val_mod : (blockLimbs h r m hb).val % p =
    (h.val + leVal m.toList + 2 ^ 104 * hb.toNat) * r.val % p := by
  obtain ⟨hbelow, hval⟩ := absorb_spec hc m hhb
  rw [← hval, product_val hbelow hr, Nat.add_mul_mod_self_left, blockLimbs,
    carry_val_mod (product_below hbelow hr)]

/-- Under a nonzero key the accumulator never falls back below 5. -/
theorem blockLimbs_val_ge (hr0 : r.val ≠ 0)
    (h5 : 5 ≤ h.val + leVal m.toList + 2 ^ 104 * hb.toNat) : 5 ≤ (blockLimbs h r m hb).val := by
  obtain ⟨hbelow, hval⟩ := absorb_spec hc m hhb
  rw [← hval] at h5
  rw [blockLimbs]
  exact carry_val_ge (product_below hbelow hr) (product_val_ge hbelow hr hr0 h5)

theorem blockLimbs_val_zero (hr0 : r.val = 0) : (blockLimbs h r m hb).val = 0 := by
  obtain ⟨hbelow, -⟩ := absorb_spec hc m hhb
  have hprod := product_val hbelow hr
  rw [hr0, Nat.mul_zero] at hprod
  have hcarry := (carry_spec (product_below hbelow hr)).2
  rw [blockLimbs]
  omega

end Block

/-! ## The conditional subtraction -/

/-- Subtracting more than the word holds wraps above it. -/
theorem borrow_eq_one {h c b : UInt64} (hlt : h.toNat < c.toNat + b.toNat)
    (hc : c.toNat + b.toNat < 2 ^ 64) : borrow (h - c - b) h = 1 := by
  have hwrap : (h - c - b).toNat = 2 ^ 64 + h.toNat - c.toNat - b.toNat := by
    rw [UInt64.toNat_sub, UInt64.toNat_sub]
    omega
  have hgt : h - c - b > h := by
    rw [gt_iff_lt, UInt64.lt_iff_toNat_lt, hwrap]
    omega
  simp [borrow, hgt]

/-- **The subtraction never happens** on carried limbs. -/
theorem condSub_eq {h : Limbs} (hh : h.Below (2 ^ 26)) : condSub h = h := by
  obtain ⟨h0, h1, h2, h3, h4⟩ := hh
  have c26 : (0x3ffffff : UInt64).toNat = 2 ^ 26 - 1 := rfl
  have c30 : (0x3ffffffb : UInt64).toNat = 2 ^ 30 - 5 := rfl
  have one : (1 : UInt64).toNat = 1 := rfl
  have b0 : borrow (h.l0 - 0x3ffffffb) h.l0 = 1 := by
    have := borrow_eq_one (h := h.l0) (c := 0x3ffffffb) (b := 0) (by simp [c30]; omega) (by decide)
    simpa using this
  have step {x : UInt64} (hx : x.toNat < 2 ^ 26) : borrow (x - 0x3ffffff - 1) x = 1 :=
    borrow_eq_one (by rw [c26, one]; omega) (by decide)
  have hm : (0 : UInt64) - 1 = -1 := by decide
  simp only [condSub, b0, step h1, step h2, step h3, step h4, hm]
  simp

/-! ## Packing -/

theorem packLo_toNat {h : Limbs} (hh : h.Below (2 ^ 26)) :
    (packLo h).toNat = h.val % 2 ^ 64 := by
  obtain ⟨h0, h1, h2, h3, h4⟩ := hh
  have m2 : (h.l2 &&& 0xfff).toNat = h.l2.toNat % 2 ^ 12 := toNat_and_mask _ _ 12 rfl
  have s1 : (h.l1 <<< 26).toNat = h.l1.toNat <<< 26 :=
    toNat_shiftLeft_lt (by decide) (h1.trans (by decide))
  have s2 : ((h.l2 &&& 0xfff) <<< 52).toNat = (h.l2.toNat % 2 ^ 12) <<< 52 := by
    rw [toNat_shiftLeft_lt (by decide) (by rw [m2]; exact Nat.mod_lt _ (by decide)), m2]
    rfl
  rw [packLo, UInt64.toNat_or, UInt64.toNat_or, s1, s2, or_shiftLeft_eq_add h0,
    or_shiftLeft_eq_add (by omega), Limbs.val]
  omega

theorem packHi_toNat {h : Limbs} (hh : h.Below (2 ^ 26)) :
    (packHi h).toNat = h.val / 2 ^ 64 % 2 ^ 64 := by
  obtain ⟨h0, h1, h2, h3, h4⟩ := hh
  have m4 : (h.l4 &&& 0xffffff).toNat = h.l4.toNat % 2 ^ 24 := toNat_and_mask _ _ 24 rfl
  have s2 : (h.l2 >>> 12).toNat = h.l2.toNat / 2 ^ 12 := toNat_shiftRight_lt _ 12 (by decide)
  have s3 : (h.l3 <<< 14).toNat = h.l3.toNat <<< 14 :=
    toNat_shiftLeft_lt (by decide) (h3.trans (by decide))
  have s4 : ((h.l4 &&& 0xffffff) <<< 40).toNat = (h.l4.toNat % 2 ^ 24) <<< 40 := by
    rw [toNat_shiftLeft_lt (by decide) (by rw [m4]; exact Nat.mod_lt _ (by decide)), m4]
    rfl
  rw [packHi, UInt64.toNat_or, UInt64.toNat_or, s2, s3, s4,
    or_shiftLeft_eq_add (k := 14) (by omega), or_shiftLeft_eq_add (k := 40) (by omega), Limbs.val]
  omega

/-- The two-word addition at the end of `finish`. -/
theorem addPad_eq (a b s t : UInt64) :
    wordBytes (a + s) ++ wordBytes (b + (t + (if a + s < a then 1 else 0))) =
      leBytes 16 (a.toNat + 2 ^ 64 * b.toNat + (s.toNat + 2 ^ 64 * t.toNat)) := by
  have ha := a.toNat_lt
  have hs := s.toNat_lt
  have hlo : (a + s).toNat = (a.toNat + s.toNat) % 2 ^ 64 := UInt64.toNat_add a s
  have hc : (if a + s < a then (1 : UInt64) else 0).toNat = (a.toNat + s.toNat) / 2 ^ 64 := by
    split
    case isTrue hlt =>
      rw [UInt64.lt_iff_toNat_lt, hlo] at hlt
      simp only [UInt64.reduceToNat]
      omega
    case isFalse hge =>
      rw [UInt64.lt_iff_toNat_lt, hlo] at hge
      simp only [UInt64.reduceToNat]
      omega
  rw [wordBytes_eq, wordBytes_eq, show (16 : Nat) = 8 + 8 from rfl, leBytes_add]
  congr 1
  · apply leBytes_congr
    rw [hlo]
    omega
  · apply leBytes_congr
    rw [UInt64.toNat_add, UInt64.toNat_add, hc]
    omega

end SneppxAlg.Poly1305
