import Mathlib.Data.List.GetD
import Mathlib.Tactic.Positivity
import Mathlib.Tactic.Ring
import Mathlib.Data.Rat.Floor
import SneppxAlg.Lib.Loops
import SneppxAlg.Lib.Rounding

/-!
# Quantisation to 8 and 4 bits

`kernel/quantization/quantize_int8.c`, over exact arithmetic. In the symmetric forms a scale is taken from the
largest absolute value, so that all quotients are in range, and rounding loses at most half a step. In the
asymmetric form the range from the smallest to the largest value is laid over 0 to 255 by a zero point that
is itself kept between 0 and 255. If 0 is more than a step outside of the range of the values, then no such zero
point fits, and the largest or the smallest value is cut off; and an array of equal values becomes 0
(`quantize_correct_iff`).
-/

namespace SneppxAlg.Quantize

open Lib.Loops Lib.Rounding

variable {F : Type} [Field F] [LinearOrder F] [FloorRing F]

/-! ## The functions -/

attribute [local instance] Lib.Rounding.atLeastTwo_two

/-- `FLT_MIN`. -/
def fltMin : F := 1 / 2 ^ 126

/-- The conversion to `int`, undefined if the value does not fit. -/
def toInt (q : ℤ) : Option ℤ := if -2 ^ 31 ≤ q ∧ q < 2 ^ 31 then some q else none

def maxAbs (input : List F) : F := input.foldl (fun m x => if m < |x| then |x| else m) 0

/-- `SNEPPX_quantize_int8_sym`, with the output and the scale; `none` if it returns -1. -/
def quantizeInt8Sym (input : List F) : Option (List Int8 × F) :=
  if input.length = 0 then none
  else if maxAbs input < fltMin then some (List.replicate input.length 0, 1)
  else do
    let scale := maxAbs input / 127
    let output ← input.mapM fun x => do
      let q ← toInt (roundAway (x * (1 / scale)))
      some (Int8.ofInt (clamp (-128) 127 q))
    some (output, scale)

/-- `SNEPPX_dequantize_int8_sym`. -/
def dequantizeInt8Sym (input : List Int8) (scale : F) : Option (List F) :=
  if input.length = 0 then none else some (input.map fun q => q.toInt * scale)

def minOf (x : F) (l : List F) : F := l.foldl (fun m y => if y < m then y else m) x
def maxOf (x : F) (l : List F) : F := l.foldl (fun m y => if m < y then y else m) x

/-- `SNEPPX_quantize_int8_asym`, with the output, the scale and the zero point. -/
def quantizeInt8Asym : List F → Option (List Int8 × F × ℤ)
  | [] => none
  | x :: l =>
    let vmin := minOf x l
    let vmax := maxOf x l
    if vmax - vmin < fltMin then some (List.replicate (l.length + 1) 0, 1, 0)
    else do
      let scale := (vmax - vmin) / 255
      let zp ← toInt (roundAway (-vmin / scale))
      let zp := clamp 0 255 zp
      let output ← (x :: l).mapM fun y => do
        let q ← toInt (roundAway (y / scale + zp))
        some (Int8.ofInt (clamp 0 255 q))
      some (output, scale, zp)

/-- `SNEPPX_dequantize_int8_asym`. -/
def dequantizeInt8Asym (input : List Int8) (scale : F) (zp : ℤ) : Option (List F) :=
  if input.length = 0 then none else some (input.map fun q => ((q.toUInt8.toNat : F) - zp) * scale)

/-- `q & 0x0F`. -/
def nibble (q : ℤ) : UInt8 := UInt8.ofInt (q % 16)

/-- The loop over pairs in `SNEPPX_quantize_int4_sym`. -/
def packInt4 (scale : F) : List F → Option (List UInt8)
  | [] => some []
  | [x] => do
    let q0 ← toInt (roundAway (x * (1 / scale)))
    some [nibble (clamp (-8) 7 q0)]
  | x :: y :: l => do
    let q0 ← toInt (roundAway (x * (1 / scale)))
    let q1 ← toInt (roundAway (y * (1 / scale)))
    let output ← packInt4 scale l
    some ((nibble (clamp (-8) 7 q0) ||| nibble (clamp (-8) 7 q1) <<< 4) :: output)

/-- `SNEPPX_quantize_int4_sym`. -/
def quantizeInt4Sym (input : List F) : Option (List UInt8 × F) :=
  if input.length = 0 then none
  else if maxAbs input < fltMin then some (List.replicate ((input.length + 1) / 2) 0, 1)
  else do
    let scale := maxAbs input / 7
    let output ← packInt4 scale input
    some (output, scale)

/-- The number in the lower or the upper half of a byte. -/
def unpackNibble (packed : UInt8) (upper : Bool) : ℤ :=
  let q : ℤ := if upper then ((packed >>> 4) &&& 0x0F).toNat else (packed &&& 0x0F).toNat
  if 8 ≤ q then q - 16 else q

/-- `SNEPPX_dequantize_int4_sym` for `n` elements, `none` also if it reads beyond the bytes. -/
def dequantizeInt4Sym (input : List UInt8) (n : ℕ) (scale : F) : Option (List F) :=
  if n = 0 then none
  else (List.range n).mapM fun i => do
    let packed ← input[i / 2]?
    some (unpackNibble packed (i % 2 = 1) * scale)

/-! ## What they are for -/

def Reproduces (input output : List F) (bound : F) : Prop :=
  List.Forall₂ (fun x y => |x - y| ≤ bound) input output

def Int8SymCorrect (input : List F) : Prop :=
  ∃ output scale values, quantizeInt8Sym input = some (output, scale) ∧
    dequantizeInt8Sym output scale = some values ∧ Reproduces input values (scale / 2)

def Int8AsymCorrect (input : List F) : Prop :=
  ∃ output scale zp values, quantizeInt8Asym input = some (output, scale, zp) ∧
    dequantizeInt8Asym output scale zp = some values ∧ Reproduces input values scale

def Int4SymCorrect (input : List F) : Prop :=
  ∃ output scale values, quantizeInt4Sym input = some (output, scale) ∧
    dequantizeInt4Sym output input.length scale = some values ∧ Reproduces input values (scale / 2)

/-- 0 is at most a step of the scale outside of the range of the values; values that are almost equal are
at most 1. -/
def ZeroFits : List F → Prop
  | [] => False
  | x :: l =>
    if maxOf x l - minOf x l < fltMin then ∀ y ∈ x :: l, |y| ≤ 1
    else minOf x l ≤ (maxOf x l - minOf x l) / 255 ∧ -((maxOf x l - minOf x l) / 255) ≤ maxOf x l

/-! ## Extreme values -/

section Extremes

omit [Field F] [FloorRing F] in
theorem minOf_spec (x : F) (l : List F) : minOf x l ∈ x :: l ∧ ∀ y ∈ x :: l, minOf x l ≤ y := by
  induction l generalizing x with
  | nil => simp [minOf]
  | cons z l ih =>
    rw [minOf, List.foldl_cons]
    split_ifs with hlt
    · obtain ⟨hmem, hle⟩ := ih z
      obtain ⟨hz, hl⟩ := List.forall_mem_cons.mp hle
      exact ⟨List.mem_cons_of_mem x hmem,
        List.forall_mem_cons.mpr ⟨hz.trans hlt.le, List.forall_mem_cons.mpr ⟨hz, hl⟩⟩⟩
    · obtain ⟨hmem, hle⟩ := ih x
      obtain ⟨hx, hl⟩ := List.forall_mem_cons.mp hle
      refine ⟨?_, List.forall_mem_cons.mpr ⟨hx, List.forall_mem_cons.mpr ⟨hx.trans (not_lt.mp hlt), hl⟩⟩⟩
      rcases List.mem_cons.mp hmem with heq | hmem
      · exact List.mem_cons.mpr (.inl heq)
      · exact List.mem_cons_of_mem x (List.mem_cons_of_mem z hmem)

omit [Field F] [FloorRing F] in
theorem maxOf_spec (x : F) (l : List F) : maxOf x l ∈ x :: l ∧ ∀ y ∈ x :: l, y ≤ maxOf x l :=
  minOf_spec (F := Fᵒᵈ) x l

omit [FloorRing F] in
theorem foldl_maxAbs (input : List F) (m : F) :
    m ≤ input.foldl (fun m x => if m < |x| then |x| else m) m ∧
      ∀ x ∈ input, |x| ≤ input.foldl (fun m x => if m < |x| then |x| else m) m := by
  induction input generalizing m with
  | nil => exact ⟨le_rfl, nofun⟩
  | cons x input ih =>
    rw [List.foldl_cons, List.forall_mem_cons]
    split_ifs with hlt
    · obtain ⟨hm, hinput⟩ := ih |x|
      exact ⟨hlt.le.trans hm, hm, hinput⟩
    · obtain ⟨hm, hinput⟩ := ih m
      exact ⟨hm, (not_lt.mp hlt).trans hm, hinput⟩

omit [FloorRing F] in
theorem abs_le_maxAbs {input : List F} {x : F} (hx : x ∈ input) : |x| ≤ maxAbs input :=
  (foldl_maxAbs input 0).2 x hx

end Extremes

/-! ## Errors -/

section Errors

variable [IsStrictOrderedRing F] {x y scale m : F} {input : List F} {lo hi q : ℤ}

omit [FloorRing F] in
/-- An error of a quotient, in steps of the scale. -/
theorem abs_sub_mul_le (hscale : 0 < scale) (c : F) (h : |x / scale - c| ≤ m) : |x - c * scale| ≤ m * scale := by
  have heq : x - c * scale = (x / scale - c) * scale := by
    rw [sub_mul, div_mul_cancel₀ x hscale.ne']
  rw [heq, abs_mul, abs_of_pos hscale]
  exact mul_le_mul_of_nonneg_right h hscale.le

theorem toInt_roundAway (h : |x| ≤ (2 ^ 20 : ℤ)) : toInt (roundAway x) = some (roundAway x) := by
  obtain ⟨hlo, hhi⟩ := abs_roundAway_lt h
  exact if_pos ⟨by omega, by omega⟩

omit [FloorRing F] in
theorem fltMin_pos : (0 : F) < fltMin := by
  rw [fltMin]
  positivity

omit [FloorRing F] in
theorem fltMin_le : (fltMin : F) ≤ 1 / 2 := by
  rw [fltMin]
  norm_num

/-- The code of an element in the symmetric forms. -/
theorem sym_code {lo k : ℤ} (hk : 0 < k ∧ k ≤ 2 ^ 20 ∧ lo ≤ -k) (hm : 0 < m) (hscale : scale * k = m)
    (hx : |x| ≤ m) : toInt (roundAway (x * (1 / scale))) = some (roundAway (x * (1 / scale))) ∧
      |x - clamp lo k (roundAway (x * (1 / scale))) * scale| ≤ scale / 2 := by
  obtain ⟨hk, hk', hlo⟩ := hk
  have hkF : (0 : F) < k := by exact_mod_cast hk
  have hpos : 0 < scale := pos_of_mul_pos_left (hscale ▸ hm) hkF.le
  have hquotient : |x * (1 / scale)| ≤ k := by
    rw [mul_one_div, abs_div, abs_of_pos hpos, div_le_iff₀ hpos, mul_comm, hscale]
    exact hx
  obtain ⟨hbelow, habove⟩ := abs_le.mp hquotient
  refine ⟨toInt_roundAway (hquotient.trans (by exact_mod_cast hk')), ?_⟩
  have hloF : (lo : F) ≤ -k := by exact_mod_cast hlo
  have hcode := abs_sub_clamp_le (x := x * (1 / scale)) (m := 1 / 2) le_rfl (by linarith : (lo : F) - 1 / 2 ≤ _)
    (by linarith : _ ≤ (k : F) + 1 / 2)
  rw [mul_one_div] at hcode ⊢
  have herror := abs_sub_mul_le hpos _ hcode
  linarith

omit [FloorRing F] [IsStrictOrderedRing F] in
theorem reproduces_map {f : F → F} {bound : F} :
    Reproduces input (input.map f) bound ↔ ∀ x ∈ input, |x - f x| ≤ bound := by
  rw [Reproduces, List.forall₂_map_right_iff, List.forall₂_same]

omit [FloorRing F] [IsStrictOrderedRing F] in
theorem Reproduces.exists_of_mem {values : List F} {bound : F} (h : Reproduces input values bound) (hx : x ∈ input) :
    ∃ y ∈ values, |x - y| ≤ bound := by
  induction h with
  | nil => cases hx
  | cons hxy _ ih =>
    rcases List.mem_cons.mp hx with rfl | hx
    · exact ⟨_, List.mem_cons_self, hxy⟩
    · obtain ⟨y, hy, hle⟩ := ih hx
      exact ⟨y, List.mem_cons_of_mem _ hy, hle⟩

omit [FloorRing F] in
/-- Values that are almost zero become zero, with a step of one. -/
theorem reproduces_zero (h : maxAbs input < fltMin) (c : F) (hc : c = 0) :
    Reproduces input (input.map fun _ => c) (1 / 2) := by
  refine reproduces_map.mpr fun x hx => ?_
  rw [hc, sub_zero]
  exact (abs_le_maxAbs hx).trans (h.le.trans fltMin_le)

end Errors

/-! ## The symmetric forms -/

section Symmetric

variable [IsStrictOrderedRing F] {scale : F} {input l : List F}

theorem int8Range : (0 : ℤ) < 127 ∧ (127 : ℤ) ≤ 2 ^ 20 ∧ (-128 : ℤ) ≤ -127 := by omega

theorem toInt_ofInt_clamp (q : ℤ) : (Int8.ofInt (clamp (-128) 127 q)).toInt = clamp (-128) 127 q := by
  have hlo : -128 ≤ clamp (-128) 127 q := le_clamp (by omega) q
  have hhi : clamp (-128) 127 q ≤ 127 := clamp_le (by omega) q
  exact Int8.toInt_ofInt_of_le (by omega) (by omega)

theorem int8Sym_correct (h : input ≠ []) : Int8SymCorrect input := by
  have hlength : input.length ≠ 0 := mt List.length_eq_zero_iff.mp h
  rw [Int8SymCorrect, quantizeInt8Sym, if_neg hlength]
  split_ifs with hsmall
  · refine ⟨_, _, _, rfl, if_neg (by simpa using h), ?_⟩
    rw [List.map_replicate, ← List.map_const']
    exact reproduces_zero hsmall _ (by simp)
  · have hmax : 0 < maxAbs input := fltMin_pos.trans_le (not_lt.mp hsmall)
    have hscale : maxAbs input / 127 * ((127 : ℤ) : F) = maxAbs input := by
      push_cast
      exact div_mul_cancel₀ _ (by norm_num)
    have hcode := fun x (hx : x ∈ input) => sym_code int8Range hmax hscale (abs_le_maxAbs hx)
    have houtput := mapM_eq_some_map (f := fun x => do
      let q ← toInt (roundAway (x * (1 / (maxAbs input / 127))))
      some (Int8.ofInt (clamp (-128) 127 q))) (l := input) fun x hx => by
        rw [(hcode x hx).1]
        rfl
    dsimp only
    rw [houtput]
    refine ⟨_, _, _, rfl, if_neg (by simpa using h), ?_⟩
    rw [List.map_map]
    refine reproduces_map.mpr fun x hx => ?_
    dsimp only [Function.comp_apply]
    rw [toInt_ofInt_clamp]
    exact (hcode x hx).2

theorem int4Range : (0 : ℤ) < 7 ∧ (7 : ℤ) ≤ 2 ^ 20 ∧ (-8 : ℤ) ≤ -7 := by omega

/-- A pair of numbers is got back from its byte. -/
theorem unpackNibble_pack : ∀ a b : Fin 16,
    unpackNibble (nibble ((a : ℤ) - 8) ||| nibble ((b : ℤ) - 8) <<< 4) false = (a : ℤ) - 8 ∧
      unpackNibble (nibble ((a : ℤ) - 8) ||| nibble ((b : ℤ) - 8) <<< 4) true = (b : ℤ) - 8 := by
  decide

theorem unpackNibble_nibble : ∀ a : Fin 16, unpackNibble (nibble ((a : ℤ) - 8)) false = (a : ℤ) - 8 := by
  decide

theorem exists_clamp_int4 (q : ℤ) : ∃ a : Fin 16, clamp (-8) 7 q = (a : ℤ) - 8 := by
  have hlo : -8 ≤ clamp (-8) 7 q := le_clamp (by omega) q
  have hhi : clamp (-8) 7 q ≤ 7 := clamp_le (by omega) q
  exact ⟨⟨(clamp (-8) 7 q + 8).toNat, by omega⟩, by simp only; omega⟩

omit [IsStrictOrderedRing F] in
/-- Every element is in its half of its byte. -/
theorem packInt4_spec (hround : ∀ x ∈ l, toInt (roundAway (x * (1 / scale))) = some (roundAway (x * (1 / scale)))) :
    ∃ output, packInt4 scale l = some output ∧ ∀ i (hi : i < l.length), ∃ packed, output[i / 2]? = some packed ∧
      unpackNibble packed (i % 2 = 1) = clamp (-8) 7 (roundAway (l[i] * (1 / scale))) := by
  induction l using packInt4.induct with
  | case1 => exact ⟨[], rfl, fun i hi => absurd hi (Nat.not_lt_zero i)⟩
  | case2 x =>
    rw [packInt4, hround x List.mem_cons_self]
    refine ⟨_, rfl, fun i hi => ?_⟩
    obtain rfl : i = 0 := Nat.lt_one_iff.mp hi
    obtain ⟨a, ha⟩ := exists_clamp_int4 (roundAway (x * (1 / scale)))
    refine ⟨_, rfl, ?_⟩
    rw [List.getElem_cons_zero, ha]
    exact unpackNibble_nibble a
  | case3 x y l ih =>
    obtain ⟨hx, hy, hl⟩ := (List.forall_mem_cons.mp hround).imp_right List.forall_mem_cons.mp
    obtain ⟨output, hpack, hspec⟩ := ih hl
    rw [packInt4, hx, hy, hpack]
    obtain ⟨a, ha⟩ := exists_clamp_int4 (roundAway (x * (1 / scale)))
    obtain ⟨b, hb⟩ := exists_clamp_int4 (roundAway (y * (1 / scale)))
    refine ⟨_, rfl, fun i hi => ?_⟩
    match i with
    | 0 =>
      refine ⟨_, rfl, ?_⟩
      rw [List.getElem_cons_zero, ha, hb]
      exact (unpackNibble_pack a b).1
    | 1 =>
      refine ⟨_, rfl, ?_⟩
      rw [List.getElem_cons_succ, List.getElem_cons_zero, ha, hb]
      exact (unpackNibble_pack a b).2
    | i + 2 =>
      obtain ⟨packed, hget, hunpack⟩ := hspec i (by simpa using hi)
      refine ⟨packed, ?_, ?_⟩
      · rw [show (i + 2) / 2 = i / 2 + 1 by omega, List.getElem?_cons_succ, hget]
      · rw [List.getElem_cons_succ, List.getElem_cons_succ, ← hunpack, Nat.add_mod_right]

omit [LinearOrder F] [FloorRing F] [IsStrictOrderedRing F] in
theorem dequantizeInt4Sym_eq {output : List UInt8} {code : F → ℤ} (h : input ≠ [])
    (hcode : ∀ i (hi : i < input.length), ∃ packed, output[i / 2]? = some packed ∧
      unpackNibble packed (i % 2 = 1) = code input[i]) :
    dequantizeInt4Sym output input.length scale = some (input.map fun x => code x * scale) := by
  rw [dequantizeInt4Sym, if_neg (mt List.length_eq_zero_iff.mp h),
    mapM_range_eq_some (l := input.map fun x => code x * scale) (by rw [List.length_map]),
    List.take_of_length_le (by rw [List.length_map])]
  intro i hi
  rw [List.length_map] at hi
  obtain ⟨packed, hget, hunpack⟩ := hcode i hi
  rw [hget, List.getElem_map, ← hunpack]
  rfl

theorem int4Sym_correct (h : input ≠ []) : Int4SymCorrect input := by
  have hlength : input.length ≠ 0 := mt List.length_eq_zero_iff.mp h
  rw [Int4SymCorrect, quantizeInt4Sym, if_neg hlength]
  split_ifs with hsmall
  · refine ⟨_, _, _, rfl, @dequantizeInt4Sym_eq _ _ _ _ _ (fun _ => 0) h fun i hi => ⟨0, ?_, ?_⟩, ?_⟩
    · exact List.getElem?_replicate_of_lt (by omega)
    · cases decide (i % 2 = 1) <;> rfl
    · exact reproduces_zero hsmall _ (by simp)
  · have hmax : 0 < maxAbs input := fltMin_pos.trans_le (not_lt.mp hsmall)
    have hscale : maxAbs input / 7 * ((7 : ℤ) : F) = maxAbs input := by
      push_cast
      exact div_mul_cancel₀ _ (by norm_num)
    have hcode := fun x (hx : x ∈ input) => sym_code int4Range hmax hscale (abs_le_maxAbs hx)
    obtain ⟨output, hpack, hspec⟩ := packInt4_spec fun x hx => (hcode x hx).1
    dsimp only
    rw [hpack]
    exact ⟨_, _, _, rfl, dequantizeInt4Sym_eq h hspec, reproduces_map.mpr fun x hx => (hcode x hx).2⟩

end Symmetric

/-! ## The asymmetric form -/

section Asymmetric

variable [IsStrictOrderedRing F] {x vmin vmax scale : F} {l : List F} {zp q : ℤ}

omit [LinearOrder F] [FloorRing F] [IsStrictOrderedRing F] in
/-- The byte of a code, read without its sign. -/
theorem cast_toUInt8_clamp (q : ℤ) : ((Int8.ofInt (clamp 0 255 q)).toUInt8.toNat : F) = clamp 0 255 q := by
  have hlo : 0 ≤ clamp 0 255 q := le_clamp (by omega) q
  have hhi : clamp 0 255 q ≤ 255 := clamp_le (by omega) q
  have heq : (Int8.ofInt (clamp 0 255 q)).toUInt8.toNat = (BitVec.ofInt 8 (clamp 0 255 q)).toNat := rfl
  have hint : ((Int8.ofInt (clamp 0 255 q)).toUInt8.toNat : ℤ) = clamp 0 255 q := by
    rw [heq, BitVec.toNat_ofInt]
    omega
  exact_mod_cast congrArg (Int.cast : ℤ → F) hint

/-- A zero point within a step of where it should be. -/
theorem zeroPoint_fits (hscale : 0 < scale) (hrange : vmax - vmin = 255 * scale) (hmin : vmin ≤ scale)
    (hmax : -scale ≤ vmax) : toInt (roundAway (-vmin / scale)) = some (roundAway (-vmin / scale)) ∧
      |-vmin / scale - clamp 0 255 (roundAway (-vmin / scale))| ≤ 1 := by
  have hlo : -1 ≤ -vmin / scale := by
    rw [le_div_iff₀ hscale]
    linarith
  have hhi : -vmin / scale ≤ 256 := by
    rw [div_le_iff₀ hscale]
    linarith
  constructor
  · refine toInt_roundAway (abs_le.mpr ⟨?_, ?_⟩)
    · push_cast
      linarith
    · push_cast
      linarith
  · exact abs_sub_clamp_le (by norm_num) (by push_cast; linarith) (by push_cast; linarith)

/-- All quotients are then within a step of the codes. -/
theorem code_fits (hscale : 0 < scale) (hrange : vmax - vmin = 255 * scale) (hzp : |-vmin / scale - zp| ≤ 1)
    (hx : vmin ≤ x ∧ x ≤ vmax) :
    toInt (roundAway (x / scale + zp)) = some (roundAway (x / scale + zp)) ∧
      |x - ((clamp 0 255 (roundAway (x / scale + zp)) : F) - zp) * scale| ≤ scale := by
  obtain ⟨hlo, hhi⟩ := abs_le.mp hzp
  rw [neg_div] at hlo hhi
  have hmin : vmin / scale ≤ x / scale := div_le_div_of_nonneg_right hx.1 hscale.le
  have hmax : x / scale ≤ vmin / scale + 255 := by
    rw [div_add' _ _ _ hscale.ne', div_le_div_iff_of_pos_right hscale]
    linarith [hx.2]
  have hround := @abs_sub_clamp_le _ _ _ _ _ (x / scale + zp) 0 255 1 (by norm_num)
    (by push_cast; linarith) (by push_cast; linarith)
  constructor
  · refine toInt_roundAway (abs_le.mpr ⟨?_, ?_⟩)
    · push_cast
      linarith
    · push_cast
      linarith
  · have hquotient : |x / scale - (clamp 0 255 (roundAway (x / scale + zp)) - zp)| ≤ 1 := by
      rw [show x / scale - (clamp 0 255 (roundAway (x / scale + zp)) - zp) =
        x / scale + zp - clamp 0 255 (roundAway (x / scale + zp)) by ring]
      exact hround
    have := abs_sub_mul_le hscale _ hquotient
    rwa [one_mul] at this

/-- No value that the code can give is within a step of one that is too far from 0. -/
theorem zero_of_close {output : List Int8} {values : List F} (hscale : 0 < scale) (hrange : vmax - vmin = 255 * scale)
    (hzp : 0 ≤ zp ∧ zp ≤ 255) (hvalues : dequantizeInt8Asym output scale zp = some values)
    (hmin : ∃ v ∈ values, |vmin - v| ≤ scale) (hmax : ∃ v ∈ values, |vmax - v| ≤ scale) :
    vmin ≤ scale ∧ -scale ≤ vmax := by
  have hbounds : ∀ v ∈ values, -(255 * scale) ≤ v ∧ v ≤ 255 * scale := by
    intro v hv
    rw [dequantizeInt8Asym] at hvalues
    split_ifs at hvalues
    obtain rfl := Option.some.inj hvalues
    obtain ⟨q, -, rfl⟩ := List.mem_map.mp hv
    have hq : (q.toUInt8.toNat : F) ≤ 255 := by exact_mod_cast Nat.le_of_lt_succ q.toUInt8.toNat_lt
    have hq0 : (0 : F) ≤ q.toUInt8.toNat := Nat.cast_nonneg _
    have hzp0 : (0 : F) ≤ zp := by exact_mod_cast hzp.1
    have hzp255 : (zp : F) ≤ 255 := by exact_mod_cast hzp.2
    rw [← neg_mul]
    exact ⟨mul_le_mul_of_nonneg_right (by linarith) hscale.le, mul_le_mul_of_nonneg_right (by linarith) hscale.le⟩
  obtain ⟨v, hv, hvmin⟩ := hmin
  obtain ⟨w, hw, hwmax⟩ := hmax
  have hvle := (abs_le.mp hvmin).1
  have hwle := (abs_le.mp hwmax).2
  have hv := hbounds v hv
  have hw := hbounds w hw
  constructor <;> linarith

theorem int8Asym_correct_iff (x : F) (l : List F) : Int8AsymCorrect (x :: l) ↔ ZeroFits (x :: l) := by
  obtain ⟨hmaxMem, hmaxLe⟩ := maxOf_spec x l
  obtain ⟨hminMem, hminLe⟩ := minOf_spec x l
  rw [Int8AsymCorrect, ZeroFits, quantizeInt8Asym]
  dsimp only
  split_ifs with hsmall
  · have hvalues : dequantizeInt8Asym (List.replicate (l.length + 1) 0) (1 : F) 0 =
        some ((x :: l).map fun _ => 0) := by
      rw [dequantizeInt8Asym, if_neg (by simp), List.map_replicate, List.map_const', List.length_cons]
      have hzero : (0 : Int8).toUInt8.toNat = 0 := rfl
      simp [hzero]
    have hiff : Reproduces (x :: l) ((x :: l).map fun _ => 0) 1 ↔ ∀ y ∈ x :: l, |y| ≤ 1 := by
      simp only [reproduces_map, sub_zero]
    rw [← hiff]
    constructor
    · rintro ⟨output, scale, zp, values, hquantize, hdequantize, hrep⟩
      obtain ⟨rfl, rfl, rfl⟩ : _ ∧ _ ∧ _ := by simpa using hquantize
      rw [hvalues] at hdequantize
      exact Option.some.inj hdequantize ▸ hrep
    · exact fun hrep => ⟨_, _, _, _, rfl, hvalues, hrep⟩
  · have hscale : 0 < (maxOf x l - minOf x l) / 255 := div_pos (fltMin_pos.trans_le (not_lt.mp hsmall)) (by norm_num)
    have hrange : maxOf x l - minOf x l = 255 * ((maxOf x l - minOf x l) / 255) :=
      (mul_div_cancel₀ _ (by norm_num)).symm
    generalize (maxOf x l - minOf x l) / 255 = scale at hscale hrange ⊢
    constructor
    · rintro ⟨output, scale', zp, values, hquantize, hdequantize, hrep⟩
      obtain ⟨z, -, hquantize⟩ := Option.bind_eq_some_iff.mp hquantize
      obtain ⟨output', -, hquantize⟩ := Option.bind_eq_some_iff.mp hquantize
      obtain ⟨rfl, rfl, rfl⟩ : _ ∧ _ ∧ _ := by simpa using hquantize
      exact zero_of_close hscale hrange ⟨le_clamp (by omega) z, clamp_le (by omega) z⟩ hdequantize
        (hrep.exists_of_mem hminMem) (hrep.exists_of_mem hmaxMem)
    · rintro ⟨hmin, hmax⟩
      obtain ⟨hzp, hzpError⟩ := zeroPoint_fits hscale hrange hmin hmax
      have hcode := fun y (hy : y ∈ x :: l) => code_fits hscale hrange hzpError ⟨hminLe y hy, hmaxLe y hy⟩
      rw [hzp]
      dsimp only [Option.bind_eq_bind, Option.bind_some]
      generalize clamp 0 255 (roundAway (-minOf x l / scale)) = zp at hcode
      have houtput := mapM_eq_some_map (f := fun y => do
        let q ← toInt (roundAway (y / scale + zp))
        some (Int8.ofInt (clamp 0 255 q))) (l := x :: l) fun y hy => by
          rw [(hcode y hy).1]
          rfl
      dsimp only [Option.bind_eq_bind] at houtput
      rw [houtput]
      refine ⟨_, _, _, _, rfl, if_neg (by simp), ?_⟩
      rw [List.map_map]
      refine reproduces_map.mpr fun y hy => ?_
      dsimp only [Function.comp_apply]
      rw [cast_toUInt8_clamp]
      exact (hcode y hy).2

end Asymmetric

/-- The symmetric forms are right for all arrays, the asymmetric form for those whose range has 0 near it. -/
theorem quantize_correct_iff [IsStrictOrderedRing F] {input : List F} (h : input ≠ []) :
    Int8SymCorrect input ∧ Int4SymCorrect input ∧ (Int8AsymCorrect input ↔ ZeroFits input) := by
  refine ⟨int8Sym_correct h, int4Sym_correct h, ?_⟩
  match input with
  | [] => exact absurd rfl h
  | x :: l => exact int8Asym_correct_iff x l

def mixedSigns : List ℚ := [-1, 2, 3]

theorem quantize_correct_iff_mixed : Int8SymCorrect mixedSigns ∧ Int4SymCorrect mixedSigns ∧
    (Int8AsymCorrect mixedSigns ↔ ZeroFits mixedSigns) :=
  quantize_correct_iff (List.cons_ne_nil _ _)

/-- Both values are positive, and far from 0: 20 becomes 10. -/
theorem not_asym_positive : ¬Int8AsymCorrect ([10, 20] : List ℚ) := by
  rw [int8Asym_correct_iff, ZeroFits]
  norm_num [maxOf, minOf, fltMin]

end SneppxAlg.Quantize
