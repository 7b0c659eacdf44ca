import Mathlib.Data.Fintype.Basic
import Mathlib.Data.Int.Notation
import Mathlib.Logic.Basic

/-!
# FP8

The two formats of `kernel/quantization/quantize_fp8.c`, on the bit patterns of `float`. A number of the E4M3
format with the exponent 8 is encoded with the top exponent, which is decoded as infinity or NaN. The encoder of
E5M2 takes one bit of the mantissa only, and puts it into the lower of the two places.

So decoding gives the number with its mantissa cut exactly for exponents up to 7 in E4M3, and in E5M2 for
numbers whose two upper bits of the mantissa are zero (`fp8_correct_iff`).
-/

namespace SneppxAlg.Fp8

/-! ## The functions -/

/-- What the formats differ in. -/
structure Format where
  encShift : UInt32
  encMask : UInt32
  mantBits : UInt32
  expMask : UInt32
  mantMask : UInt32
  bias : ℤ
  infinity : UInt32
  minExp : ℤ
  maxExp : ℤ
  decShift : UInt32

def e4m3 : Format where
  encShift := 20
  encMask := 0x07
  mantBits := 3
  expMask := 0x0F
  mantMask := 0x07
  bias := 7
  infinity := 0x78
  minExp := -6
  maxExp := 8
  decShift := 20

def e5m2 : Format where
  encShift := 22
  encMask := 0x01
  mantBits := 2
  expMask := 0x1F
  mantMask := 0x03
  bias := 15
  infinity := 0x7C
  minExp := -14
  maxExp := 15
  decShift := 21

def signOf (b : UInt32) : UInt32 := (b >>> 31) &&& 1
def expBits (b : UInt32) : UInt32 := (b >>> 23) &&& 0xFF

def floatToFp8 (f : Format) (b : UInt32) : UInt8 :=
  let sign := signOf b
  if expBits b = 0xFF then ((sign <<< 7) ||| f.infinity).toUInt8
  else if expBits b = 0 then (sign <<< 7).toUInt8
  else
    let exp : ℤ := (expBits b).toNat - 127
    let mant := (b >>> f.encShift) &&& f.encMask
    if exp < f.minExp then (sign <<< 7).toUInt8
    else if f.maxExp < exp then ((sign <<< 7) ||| f.infinity).toUInt8
    else ((sign <<< 7) ||| ((UInt8.ofInt (exp + f.bias)).toUInt32 <<< f.mantBits) ||| mant).toUInt8

/-- The patterns of `INFINITY`, `-INFINITY` and `NAN` are those of IEEE 754. -/
def fp8ToFloat (f : Format) (fp8 : UInt8) : UInt32 :=
  let sign := (fp8.toUInt32 >>> 7) &&& 1
  let exp := (fp8.toUInt32 >>> f.mantBits) &&& f.expMask
  let mant := fp8.toUInt32 &&& f.mantMask
  if exp = f.expMask then
    if mant = 0 then (if sign ≠ 0 then 0xFF800000 else 0x7F800000) else 0x7FC00000
  else if exp = 0 ∧ mant = 0 then 0
  else
    let f32Exp := UInt32.ofInt ((exp.toNat : ℤ) - f.bias + 127)
    (sign <<< 31) ||| (f32Exp <<< 23) ||| (mant <<< f.decShift)

/-- `SNEPPX_float_to_fp8_e4m3`. -/
def floatToFp8E4m3 : UInt32 → UInt8 := floatToFp8 e4m3

/-- `SNEPPX_fp8_e4m3_to_float`. -/
def fp8E4m3ToFloat : UInt8 → UInt32 := fp8ToFloat e4m3

/-- `SNEPPX_float_to_fp8_e5m2`. -/
def floatToFp8E5m2 : UInt32 → UInt8 := floatToFp8 e5m2

/-- `SNEPPX_fp8_e5m2_to_float`. -/
def fp8E5m2ToFloat : UInt8 → UInt32 := fp8ToFloat e5m2

/-! ## What they are for -/

def mantissa (b : UInt32) : UInt32 := b &&& 0x7FFFFF

/-- The `width` upper bits of the mantissa. -/
def topBits (width b : UInt32) : UInt32 := mantissa b >>> (23 - width)

def exponent (b : UInt32) : ℤ := (expBits b).toNat - 127

def Normal (b : UInt32) : Prop := expBits b ≠ 0 ∧ expBits b ≠ 0xFF

/-- A finite number with the same sign and exponent, and the mantissa cut to the width. -/
structure Truncated (width b out : UInt32) : Prop where
  finite : expBits out ≠ 0xFF
  sign : signOf out = signOf b
  exp : expBits out = expBits b
  mant : mantissa out = topBits width b <<< (23 - width)

/-! ## The three ranges of the exponent -/

variable {f : Format} {b out width : UInt32}

theorem exists_fin_and (x : UInt32) {mask : UInt32} {n : ℕ} (h : mask.toNat < n) :
    ∃ m : Fin n, x &&& mask = UInt32.ofNat m := by
  refine ⟨⟨(x &&& mask).toNat, ?_⟩, (UInt32.ofNat_toNat).symm⟩
  rw [UInt32.toNat_and]
  exact Nat.and_le_right.trans_lt h

theorem floatToFp8_below (h : Normal b) (hexp : exponent b < f.minExp) :
    floatToFp8 f b = (signOf b <<< 7).toUInt8 := by
  rw [floatToFp8, if_neg h.2, if_neg h.1]
  exact if_pos hexp

theorem floatToFp8_above (h : Normal b) (hmin : f.minExp ≤ exponent b) (hexp : f.maxExp < exponent b) :
    floatToFp8 f b = ((signOf b <<< 7) ||| f.infinity).toUInt8 := by
  rw [floatToFp8, if_neg h.2, if_neg h.1]
  exact (if_neg (not_lt.mpr hmin)).trans (if_pos hexp)

theorem floatToFp8_between (h : Normal b) (hmin : f.minExp ≤ exponent b) (hmax : exponent b ≤ f.maxExp) :
    floatToFp8 f b = ((signOf b <<< 7) ||| ((UInt8.ofInt (exponent b + f.bias)).toUInt32 <<< f.mantBits) |||
      ((b >>> f.encShift) &&& f.encMask)).toUInt8 := by
  rw [floatToFp8, if_neg h.2, if_neg h.1]
  exact (if_neg (not_lt.mpr hmin)).trans (if_neg (not_lt.mpr hmax))

theorem Truncated.not_of_expBits_zero (h : Normal b) (hout : expBits out = 0) : ¬Truncated width b out :=
  fun ht => h.1 (ht.exp.symm.trans hout)

theorem Truncated.not_of_expBits_top (hout : expBits out = 0xFF) : ¬Truncated width b out :=
  fun ht => ht.finite hout

/-- The decoder on zeros and infinities. -/
theorem expBits_decode (s : Fin 2) :
    (expBits (fp8ToFloat e4m3 (UInt32.ofNat s <<< 7).toUInt8) = 0 ∧
      expBits (fp8ToFloat e4m3 ((UInt32.ofNat s <<< 7) ||| e4m3.infinity).toUInt8) = 0xFF) ∧
    expBits (fp8ToFloat e5m2 (UInt32.ofNat s <<< 7).toUInt8) = 0 ∧
      expBits (fp8ToFloat e5m2 ((UInt32.ofNat s <<< 7) ||| e5m2.infinity).toUInt8) = 0xFF := by
  revert s
  decide

/-- The fields of the byte, next to each other. -/
def byteOf (f : Format) (s e m : ℕ) : UInt8 :=
  ((UInt32.ofNat s <<< 7) ||| ((UInt8.ofInt e).toUInt32 <<< f.mantBits) ||| UInt32.ofNat m).toUInt8

/-- What the decoder makes of the fields: the bias is changed, and the mantissa moved. -/
def Decoded (f : Format) (s e m : ℕ) (shift : ℕ) : Prop :=
  signOf (fp8ToFloat f (byteOf f s e m)) = UInt32.ofNat s ∧
    expBits (fp8ToFloat f (byteOf f s e m)) = UInt32.ofNat (e + shift) ∧
    mantissa (fp8ToFloat f (byteOf f s e m)) = UInt32.ofNat m <<< f.decShift

instance (f : Format) (s e m shift : ℕ) : Decidable (Decoded f s e m shift) :=
  inferInstanceAs (Decidable (_ ∧ _))

theorem decoded_e4m3 : ∀ (s : Fin 2) (e : Fin 16) (m : Fin 8), 1 ≤ e.val → e.val ≤ 14 →
    Decoded e4m3 s e m 120 := by
  decide

theorem expBits_e4m3_top : ∀ (s : Fin 2) (m : Fin 8), expBits (fp8ToFloat e4m3 (byteOf e4m3 s 15 m)) = 0xFF := by
  decide

theorem decoded_e5m2 : ∀ (s : Fin 2) (e : Fin 32) (m : Fin 2), 1 ≤ e.val → e.val ≤ 30 →
    Decoded e5m2 s e m 112 := by
  decide

/-- The fields of a normal number. -/
theorem exists_fields (b : UInt32) : ∃ (s : Fin 2) (e : Fin 256), signOf b = UInt32.ofNat s ∧
    expBits b = UInt32.ofNat e ∧ exponent b = e - 127 := by
  obtain ⟨s, hs⟩ := @exists_fin_and (b >>> 31) 1 2 (by decide)
  obtain ⟨e, he⟩ := @exists_fin_and (b >>> 23) 0xFF 256 (by decide)
  refine ⟨s, e, hs, he, ?_⟩
  rw [exponent, expBits, he, UInt32.toNat_ofNat']
  omega

theorem topBits_three (b : UInt32) : topBits 3 b = (b >>> 20) &&& 7 := by
  rw [topBits, mantissa, UInt32.shiftRight_and]
  rfl

theorem topBits_two (b : UInt32) : topBits 2 b = (b >>> 21) &&& 3 := by
  rw [topBits, mantissa, UInt32.shiftRight_and]
  rfl

theorem shiftRight_and_one (b : UInt32) : ((b >>> 22) &&& 1 : UInt32) = topBits 2 b >>> (1 : UInt32) := by
  have hshift : b >>> 21 >>> 1 = b >>> 22 := by
    rw [← UInt32.toNat_inj]
    simp [← Nat.shiftRight_add]
  rw [topBits_two, UInt32.shiftRight_and, hshift]
  rfl

theorem e4m3_truncated_iff {b : UInt32} (h : Normal b) :
    Truncated 3 b (fp8E4m3ToFloat (floatToFp8E4m3 b)) ↔ -6 ≤ exponent b ∧ exponent b ≤ 7 := by
  obtain ⟨s, e, hs, he, hexp⟩ := exists_fields b
  rw [fp8E4m3ToFloat, floatToFp8E4m3]
  rcases lt_or_ge (exponent b) (-6) with hlow | hlow
  · rw [floatToFp8_below h hlow, hs]
    exact iff_of_false (Truncated.not_of_expBits_zero h (expBits_decode s).1.1) (by omega)
  rcases lt_or_ge 8 (exponent b) with hhigh | hhigh
  · rw [floatToFp8_above h hlow hhigh, hs]
    exact iff_of_false (Truncated.not_of_expBits_top (expBits_decode s).1.2) (by omega)
  obtain ⟨m, hm⟩ := @exists_fin_and (b >>> 20) 0x07 8 (by decide)
  obtain ⟨k, hk⟩ : ∃ k : Fin 16, exponent b + 7 = (k.val : ℤ) := ⟨⟨(exponent b + 7).toNat, by omega⟩, by simp only; omega⟩
  have hbyte : floatToFp8 e4m3 b = byteOf e4m3 s k m := by
    rw [floatToFp8_between h hlow hhigh, hs, show exponent b + e4m3.bias = k from hk]
    exact congrArg (fun x : UInt32 => ((UInt32.ofNat s <<< 7) ||| ((UInt8.ofInt k).toUInt32 <<< 3) ||| x).toUInt8) hm
  rw [hbyte]
  rcases Nat.lt_or_ge 14 k with htop | hle
  · obtain rfl : k = 15 := by omega
    exact iff_of_false (Truncated.not_of_expBits_top (expBits_e4m3_top s m)) (by omega)
  · obtain ⟨hsign, hexpBits, hmant⟩ := decoded_e4m3 s k m (by omega) hle
    have hsame : k.val + 120 = e.val := by omega
    refine iff_of_true ⟨?_, hsign.trans hs.symm, ?_, ?_⟩ (by omega)
    · rw [hexpBits, hsame, ← he]
      exact h.2
    · rw [hexpBits, hsame, he]
    · rw [hmant, topBits_three, hm]
      rfl

/-- One bit in the wrong place is right only if both bits are zero. -/
theorem misplaced_bit_iff : ∀ (t : Fin 4) (m : Fin 2), UInt32.ofNat m = UInt32.ofNat t >>> (1 : UInt32) →
    (UInt32.ofNat m <<< e5m2.decShift = UInt32.ofNat t <<< (23 - 2 : UInt32) ↔ UInt32.ofNat t = 0) := by
  decide

theorem e5m2_truncated_iff {b : UInt32} (h : Normal b) :
    Truncated 2 b (fp8E5m2ToFloat (floatToFp8E5m2 b)) ↔
      (-14 ≤ exponent b ∧ exponent b ≤ 15) ∧ topBits 2 b = 0 := by
  obtain ⟨s, e, hs, he, hexp⟩ := exists_fields b
  rw [fp8E5m2ToFloat, floatToFp8E5m2]
  rcases lt_or_ge (exponent b) (-14) with hlow | hlow
  · rw [floatToFp8_below h hlow, hs]
    exact iff_of_false (Truncated.not_of_expBits_zero h (expBits_decode s).2.1) (by omega)
  rcases lt_or_ge 15 (exponent b) with hhigh | hhigh
  · rw [floatToFp8_above h hlow hhigh, hs]
    exact iff_of_false (Truncated.not_of_expBits_top (expBits_decode s).2.2) (by omega)
  obtain ⟨m, hm⟩ := @exists_fin_and (b >>> 22) 0x01 2 (by decide)
  obtain ⟨t, ht⟩ := @exists_fin_and (b >>> 21) 0x03 4 (by decide)
  rw [← topBits_two] at ht
  obtain ⟨k, hk⟩ : ∃ k : Fin 32, exponent b + 15 = (k.val : ℤ) := ⟨⟨(exponent b + 15).toNat, by omega⟩, by simp only; omega⟩
  have hbyte : floatToFp8 e5m2 b = byteOf e5m2 s k m := by
    rw [floatToFp8_between h hlow hhigh, hs, show exponent b + e5m2.bias = k from hk]
    exact congrArg (fun x : UInt32 => ((UInt32.ofNat s <<< 7) ||| ((UInt8.ofInt k).toUInt32 <<< 2) ||| x).toUInt8) hm
  rw [hbyte, and_iff_right ⟨hlow, hhigh⟩]
  obtain ⟨hsign, hexpBits, hmant⟩ := decoded_e5m2 s k m (by omega) (by omega)
  have hsame : k.val + 112 = e.val := by omega
  have hmt : UInt32.ofNat m = UInt32.ofNat t >>> (1 : UInt32) := by rw [← hm, ← ht, ← shiftRight_and_one]
  rw [ht, ← misplaced_bit_iff t m hmt]
  constructor
  · intro htruncated
    rw [← hmant, htruncated.mant, ht]
  · intro heq
    refine ⟨?_, hsign.trans hs.symm, ?_, ?_⟩
    · rw [hexpBits, hsame, ← he]
      exact h.2
    · rw [hexpBits, hsame, he]
    · rw [hmant, ht, heq]

/-- Decoding gives the truncated number exactly in these cases. -/
theorem fp8_correct_iff {b : UInt32} (h : Normal b) :
    (Truncated 3 b (fp8E4m3ToFloat (floatToFp8E4m3 b)) ↔ -6 ≤ exponent b ∧ exponent b ≤ 7) ∧
      (Truncated 2 b (fp8E5m2ToFloat (floatToFp8E5m2 b)) ↔
        (-14 ≤ exponent b ∧ exponent b ≤ 15) ∧ topBits 2 b = 0) :=
  ⟨e4m3_truncated_iff h, e5m2_truncated_iff h⟩

/-- 1.5 -/
def threeHalves : UInt32 := 0x3FC00000

theorem fp8_correct_iff_threeHalves :
    (Truncated 3 threeHalves (fp8E4m3ToFloat (floatToFp8E4m3 threeHalves)) ↔
      -6 ≤ exponent threeHalves ∧ exponent threeHalves ≤ 7) ∧
    (Truncated 2 threeHalves (fp8E5m2ToFloat (floatToFp8E5m2 threeHalves)) ↔
      (-14 ≤ exponent threeHalves ∧ exponent threeHalves ≤ 15) ∧ topBits 2 threeHalves = 0) :=
  fp8_correct_iff ⟨by decide, by decide⟩

/-- 256 becomes infinity in E4M3, and 1.5 becomes 1.25 in E5M2. -/
theorem not_truncated : fp8E4m3ToFloat (floatToFp8E4m3 0x43800000) = 0x7F800000 ∧
    ¬Truncated 3 0x43800000 (fp8E4m3ToFloat (floatToFp8E4m3 0x43800000)) ∧
    fp8E5m2ToFloat (floatToFp8E5m2 threeHalves) = 0x3FA00000 ∧
    ¬Truncated 2 threeHalves (fp8E5m2ToFloat (floatToFp8E5m2 threeHalves)) :=
  ⟨by decide, fun h => absurd h.finite (by decide), by decide, fun h => absurd h.mant (by decide)⟩

end SneppxAlg.Fp8
