import SneppxAlg.Lib.WordArray
import Mathlib.Data.Nat.ModEq

/-!
# `zk_proof.c`: 256-bit arithmetic

The arithmetic is on eight words of 32 bits, the products on sixteen. `mul256` is the schoolbook
product, `bn_mod` subtracts shifted copies of the modulus from the top down, and `modexp` squares and
multiplies along the bits of the exponent. Each function has one lemma that says which number it
computes.

A loop of the source is a recursion over the number of turns it has made, or has still to make when
it counts down.
-/

namespace SneppxAlg.Zk

open Lib.WordArray

/-- `BNW`. -/
def BNW : ℕ := 8

def bnSetU32 (v : UInt32) : Words := Function.update (fun _ => 0) 0 v

/-- The first turns of the loops of `bn_sub` and of `usub`; `b` counts as 0 from `nb` on. -/
def subLoop (a b : Words) (nb : ℕ) : ℕ → Words × UInt64
  | 0 => (a, 0)
  | i + 1 =>
    let (d, borrow) := subLoop a b nb i
    let sb := if i < nb then (b i).toUInt64 else 0
    let s := (a i).toUInt64 - sb - borrow
    (Function.update d i s.toUInt32, (s >>> 63) &&& 1)

def bnSub (a b : Words) : Words := (subLoop a b BNW BNW).1

def usub (a : Words) (n : ℕ) (b : Words) (nb : ℕ) : Words := (subLoop a b nb n).1

/-- The comparison of the words below `n`, from the top down. -/
def cmpFrom (a b : Words) : ℕ → ℤ
  | 0 => 0
  | i + 1 => if a i ≠ b i then if b i < a i then 1 else -1 else cmpFrom a b i

def bnCmp (a b : Words) : ℤ := cmpFrom a b BNW

/-- The first turns of the inner loop of `mul256`. -/
def mulRow (p a b : Words) (i : ℕ) : ℕ → Words × UInt64
  | 0 => (p, 0)
  | j + 1 =>
    let (p, k) := mulRow p a b i j
    let cur := (a i).toUInt64 * (b j).toUInt64 + (p (i + j)).toUInt64 + k
    (Function.update p (i + j) cur.toUInt32, cur >>> 32)

/-- The loop of `mul256` that adds the last carry, with `n` words left up to the sixteenth. -/
def carryLoop (p : Words) (carry : UInt64) : ℕ → Words
  | 0 => p
  | n + 1 =>
    if carry ≠ 0 then
      let idx := 16 - (n + 1)
      let s := (p idx).toUInt64 + carry
      carryLoop (Function.update p idx s.toUInt32) (s >>> 32) n
    else p

/-- The first turns of the outer loop of `mul256`. -/
def mulLoop (a b : Words) : ℕ → Words
  | 0 => fun _ => 0
  | i + 1 =>
    let (p, k) := mulRow (mulLoop a b i) a b i BNW
    carryLoop p k (16 - (i + BNW))

def mul256 (a b : Words) : Words := mulLoop a b BNW

/-- The highest bit of a word that is not 0, from bit `b` down. -/
def topBit (x : UInt32) : ℕ → ℕ
  | 0 => 0
  | b + 1 => if (x >>> .ofNat (b + 1)) &&& 1 = 0 then topBit x b else b + 1

def hiBit (a : Words) : ℕ → ℤ
  | 0 => -1
  | i + 1 => if a i ≠ 0 then i * 32 + topBit (a i) 31 else hiBit a i

def ucmp (a : Words) (na : ℕ) (b : Words) (nb : ℕ) : ℤ :=
  let ia := hiBit a na
  let ib := hiBit b nb
  if ia ≠ ib then if ib < ia then 1 else -1
  else if ia < 0 then 0
  else cmpFrom a b ((ia / 32).toNat + 1)

/-- The first turns of the loop of `bn_mod` that shifts the modulus by `s` bits. -/
def shiftLoop (m : Words) (s : ℕ) : ℕ → Words
  | 0 => fun _ => 0
  | i + 1 =>
    let t := shiftLoop m s i
    let ws := s / 32
    let bs := s % 32
    let di := i + ws
    let t := if di < 16 then Function.update t di (t di ||| m i <<< .ofNat bs) else t
    if bs ≠ 0 ∧ di + 1 < 16 then
      Function.update t (di + 1) (t (di + 1) ||| m i >>> .ofNat (32 - bs))
    else t

/-- The loop of `bn_mod`, with `n` turns left. -/
def modLoop (m : Words) : ℕ → Words → Words
  | 0, a => a
  | s + 1, a =>
    let t := shiftLoop m s BNW
    modLoop m s (if ucmp a 16 t 16 ≥ 0 then usub a 16 t 16 else a)

def bnMod (x m : Words) : Words :=
  let bl := hiBit m BNW
  let al := hiBit x 16
  if bl < 0 then fun _ => 0
  else if al < 0 then fun _ => 0
  else modLoop m (al - bl + 1).toNat x

def modmul (a b m : Words) : Words := bnMod (mul256 a b) m

/-- The array of sixteen words that starts with the eight words of a number. -/
def widen (a : Words) : Words := fun i => if i < BNW then a i else 0

/-- The first turns of the loop of `modadd`. -/
def addLoop (t b : Words) : ℕ → Words × UInt64
  | 0 => (t, 0)
  | i + 1 =>
    let (t, carry) := addLoop t b i
    let s := (t i).toUInt64 + (b i).toUInt64 + carry
    (Function.update t i s.toUInt32, s >>> 32)

def modadd (a b m : Words) : Words :=
  let (t, carry) := addLoop (widen a) b BNW
  bnMod (Function.update t BNW carry.toUInt32) m

/-- The loop of `modexp`, with the bits below `i` left. -/
def expLoop (g exp m : Words) : ℕ → Words → Words
  | 0, r => r
  | i + 1, r =>
    let r := modmul r r m
    let bit := (exp (i / 32) >>> .ofNat (i % 32)) &&& 1
    expLoop g exp m i (if bit ≠ 0 then modmul r g m else r)

def modexp (base exp m : Words) : Words :=
  expLoop base exp m (hiBit exp BNW + 1).toNat (bnSetU32 1)

/-! ## Subtraction and comparison -/

section Sub

variable {a b : Words} {n nb : ℕ}

theorem sub_digit (x y : UInt32) (borrow : UInt64) (h : borrow.toNat ≤ 1) :
    let s := x.toUInt64 - y.toUInt64 - borrow
    s.toUInt32.toNat + y.toNat + borrow.toNat = x.toNat + ((s >>> 63) &&& 1).toNat * 2 ^ 32 ∧
      ((s >>> 63) &&& 1).toNat ≤ 1 := by
  intro s
  have hx := x.toNat_lt
  have hy := y.toNat_lt
  have hs : s.toNat = (2 ^ 64 - borrow.toNat + (2 ^ 64 - y.toNat + x.toNat) % 2 ^ 64) % 2 ^ 64 := by
    simp [s, UInt64.toNat_sub]
  have hbit : ((s >>> 63) &&& 1).toNat = s.toNat / 2 ^ 63 % 2 := by
    rw [UInt64.toNat_and, UInt64.toNat_shiftRight, Nat.shiftRight_eq_div_pow]
    exact Nat.and_one_is_mod _
  rw [hbit, UInt64.toNat_toUInt32]
  omega

theorem subLoop_spec (a b : Words) (nb n : ℕ) :
    value (subLoop a b nb n).1 n + value (fun i => if i < nb then b i else 0) n =
        value a n + (subLoop a b nb n).2.toNat * 2 ^ (32 * n) ∧
      (subLoop a b nb n).2.toNat ≤ 1 := by
  induction n with
  | zero => simp [subLoop]
  | succ n ih =>
    obtain ⟨hval, hle⟩ := ih
    set d := (subLoop a b nb n).1
    set borrow := (subLoop a b nb n).2
    set y : UInt32 := if n < nb then b n else 0 with hy
    have hsb : (if n < nb then (b n).toUInt64 else 0) = y.toUInt64 := by
      rw [hy]
      split_ifs <;> rfl
    have hstep : subLoop a b nb (n + 1) =
        (Function.update d n ((a n).toUInt64 - y.toUInt64 - borrow).toUInt32,
          (((a n).toUInt64 - y.toUInt64 - borrow) >>> 63) &&& 1) := by
      simp only [subLoop, hsb]
      rfl
    obtain ⟨hdigit, hle'⟩ := sub_digit (a n) y borrow hle
    rw [hstep]
    refine ⟨?_, hle'⟩
    have hbelow : value (Function.update d n
        ((a n).toUInt64 - y.toUInt64 - borrow).toUInt32) n = value d n :=
      value_congr fun j hj => Function.update_of_ne hj.ne ..
    dsimp only
    rw [value_succ, value_succ, value_succ, hbelow, Function.update_self, pow_step, ← hy]
    have hscaled := congrArg (· * 2 ^ (32 * n)) hdigit
    linarith

theorem value_subLoop (h : value b n ≤ value a n) :
    value (subLoop a b n n).1 n = value a n - value b n := by
  obtain ⟨hval, hle⟩ := subLoop_spec a b n n
  have hlt := value_lt (subLoop a b n n).1 n
  have hb : value (fun i => if i < n then b i else 0) n = value b n :=
    value_congr fun i hi => if_pos hi
  rw [hb] at hval
  have hzero : (subLoop a b n n).2.toNat = 0 := by
    by_contra hne
    have hone : (subLoop a b n n).2.toNat = 1 := by omega
    rw [hone] at hval
    omega
  rw [hzero] at hval
  omega

theorem value_bnSub (h : value b BNW ≤ value a BNW) :
    value (bnSub a b) BNW = value a BNW - value b BNW := value_subLoop h

theorem value_usub (h : value b 16 ≤ value a 16) :
    value (usub a 16 b 16) 16 = value a 16 - value b 16 := value_subLoop h

/-- The comparison from the top down compares the numbers. -/
theorem cmpFrom_spec (a b : Words) (n : ℕ) :
    cmpFrom a b n = if value a n = value b n then 0
      else if value b n < value a n then 1 else -1 := by
  induction n with
  | zero => simp [cmpFrom]
  | succ n ih =>
    have ha := value_lt a n
    have hb := value_lt b n
    rw [cmpFrom, value_succ, value_succ]
    by_cases heq : a n = b n
    · rw [if_neg (not_not_intro heq), ih, heq]
      simp
    · rw [if_pos heq]
      have hne : (a n).toNat ≠ (b n).toNat := fun h => heq (UInt32.toNat_inj.mp h)
      rcases Nat.lt_or_gt_of_ne hne with hlt | hgt
      · have hle : ((a n).toNat + 1) * 2 ^ (32 * n) ≤ (b n).toNat * 2 ^ (32 * n) :=
          Nat.mul_le_mul_right _ hlt
        rw [Nat.add_mul] at hle
        rw [if_neg (show ¬ b n < a n from fun h => by
            have := UInt32.lt_iff_toNat_lt.mp h; omega),
          if_neg (by omega), if_neg (by omega)]
      · have hle : ((b n).toNat + 1) * 2 ^ (32 * n) ≤ (a n).toNat * 2 ^ (32 * n) :=
          Nat.mul_le_mul_right _ hgt
        rw [Nat.add_mul] at hle
        rw [if_pos (UInt32.lt_iff_toNat_lt.mpr hgt), if_neg (by omega), if_pos (by omega)]

theorem bnCmp_eq_zero (a b : Words) : bnCmp a b = 0 ↔ value a BNW = value b BNW := by
  rw [bnCmp, cmpFrom_spec]
  split_ifs <;> simp_all

end Sub

/-! ## Multiplication -/

section Mul

variable {p a b : Words} {n : ℕ}

/-- One digit of a row: the sum of the product, the old digit and the carry fits into 64 bits. -/
theorem mul_digit (x y old : UInt32) (k : UInt64) (hk : k.toNat < 2 ^ 32) :
    let cur := x.toUInt64 * y.toUInt64 + old.toUInt64 + k
    cur.toUInt32.toNat + (cur >>> 32).toNat * 2 ^ 32 = x.toNat * y.toNat + old.toNat + k.toNat ∧
      (cur >>> 32).toNat < 2 ^ 32 := by
  intro cur
  have hx : x.toNat ≤ 2 ^ 32 - 1 := Nat.le_sub_one_of_lt x.toNat_lt
  have hy : y.toNat ≤ 2 ^ 32 - 1 := Nat.le_sub_one_of_lt y.toNat_lt
  have hold := old.toNat_lt
  have hmul : x.toNat * y.toNat ≤ (2 ^ 32 - 1) * (2 ^ 32 - 1) := Nat.mul_le_mul hx hy
  have hcur : cur.toNat = x.toNat * y.toNat + old.toNat + k.toNat := by
    simp only [cur, UInt64.toNat_add, UInt64.toNat_mul, UInt32.toNat_toUInt64]
    omega
  have hsplit := toUInt32_add_shiftRight cur
  exact ⟨hsplit.trans hcur, by omega⟩

/-- A row adds the product with one digit of `a`, up to a carry. -/
theorem mulRow_spec (p a b : Words) (i n : ℕ) (hn : i + n ≤ 16) :
    value (mulRow p a b i n).1 16 + (mulRow p a b i n).2.toNat * 2 ^ (32 * (i + n)) =
        value p 16 + (a i).toNat * value b n * 2 ^ (32 * i) ∧
      (mulRow p a b i n).2.toNat < 2 ^ 32 := by
  induction n with
  | zero => simp [mulRow]
  | succ n ih =>
    obtain ⟨hval, hlt⟩ := ih (by omega)
    set q := (mulRow p a b i n).1
    set k := (mulRow p a b i n).2
    obtain ⟨hdigit, hlt'⟩ := mul_digit (a i) (b n) (q (i + n)) k hlt
    set cur := (a i).toUInt64 * (b n).toUInt64 + (q (i + n)).toUInt64 + k
    have hstep : mulRow p a b i (n + 1) = (Function.update q (i + n) cur.toUInt32, cur >>> 32) := rfl
    have hwrite := value_update q cur.toUInt32 (show i + n < 16 by omega)
    have hscaled := congrArg (· * 2 ^ (32 * (i + n))) hdigit
    have hpow : 2 ^ (32 * (i + n)) = 2 ^ (32 * i) * 2 ^ (32 * n) := by rw [Nat.mul_add, pow_add]
    rw [hstep]
    refine ⟨?_, hlt'⟩
    dsimp only
    rw [← Nat.add_assoc i n 1, pow_step, value_succ b n]
    rw [hpow] at hval hwrite hscaled ⊢
    linarith

/-- The last carry is added, unless the sum has more than sixteen words. -/
theorem carryLoop_spec (p : Words) (carry : UInt64) (n : ℕ) (hn : n ≤ 16)
    (hc : carry.toNat < 2 ^ 32) :
    ∃ lost, value (carryLoop p carry n) 16 + lost * 2 ^ (32 * (2 * BNW)) =
      value p 16 + carry.toNat * 2 ^ (32 * (16 - n)) := by
  induction n generalizing p carry with
  | zero =>
    have htop : 2 * BNW = 16 - 0 := rfl
    exact ⟨carry.toNat, by rw [carryLoop, htop]⟩
  | succ n ih =>
    unfold carryLoop
    split_ifs with h
    · set idx := 16 - (n + 1) with hidx
      set s := (p idx).toUInt64 + carry
      have hs : s.toNat = (p idx).toNat + carry.toNat := by
        have := (p idx).toNat_lt
        simp only [s, UInt64.toNat_add, UInt32.toNat_toUInt64]
        omega
      have hsplit := toUInt32_add_shiftRight s
      have hp := (p idx).toNat_lt
      have hwrite := value_update p s.toUInt32 (show idx < 16 by omega)
      obtain ⟨lost, hlost⟩ := ih (Function.update p idx s.toUInt32) (s >>> 32) (by omega) (by omega)
      have hpow : 2 ^ (32 * (16 - n)) = 2 ^ 32 * 2 ^ (32 * idx) := by
        rw [show 16 - n = idx + 1 by omega, pow_step]
      refine ⟨lost, ?_⟩
      rw [hpow] at hlost
      have hscaled := congrArg (· * 2 ^ (32 * idx)) (hsplit.trans hs)
      dsimp only at hscaled ⊢
      linarith
    · have hzero : carry = 0 := not_not.mp h
      exact ⟨0, by simp [hzero]⟩

theorem value_mulLoop (a b : Words) (n : ℕ) (hn : n ≤ BNW) :
    value (mulLoop a b n) 16 = value a n * value b BNW := by
  induction n with
  | zero =>
    have hzero : value (fun _ => 0) 16 = 0 := value_eq_of_zero (Nat.zero_le _) fun _ _ _ => rfl
    simpa [mulLoop] using hzero
  | succ n ih =>
    have hn' : n + BNW ≤ 16 := by unfold BNW at *; omega
    obtain ⟨hrow, hlt⟩ := mulRow_spec (mulLoop a b n) a b n BNW hn'
    obtain ⟨lost, hlost⟩ := carryLoop_spec (mulRow (mulLoop a b n) a b n BNW).1
      (mulRow (mulLoop a b n) a b n BNW).2 (16 - (n + BNW)) (Nat.sub_le _ _) hlt
    rw [Nat.sub_sub_self hn', hrow, ih (by omega)] at hlost
    have htotal : value a n * value b BNW + (a n).toNat * value b BNW * 2 ^ (32 * n) =
        value a (n + 1) * value b BNW := by
      rw [value_succ]
      ring
    -- The product has at most sixteen words, so nothing is lost.
    have hfits : value a (n + 1) * value b BNW < 2 ^ (32 * (2 * BNW)) :=
      calc value a (n + 1) * value b BNW < 2 ^ (32 * (n + 1)) * 2 ^ (32 * BNW) :=
            Nat.mul_lt_mul'' (value_lt a (n + 1)) (value_lt b BNW)
        _ = 2 ^ (32 * (n + 1 + BNW)) := by rw [← pow_add, ← Nat.mul_add]
        _ ≤ 2 ^ (32 * (2 * BNW)) := Nat.pow_le_pow_right (by decide) (by unfold BNW at *; omega)
    rw [htotal] at hlost
    have hnone : lost = 0 := by
      by_contra hne
      have : 1 * 2 ^ (32 * (2 * BNW)) ≤ lost * 2 ^ (32 * (2 * BNW)) :=
        Nat.mul_le_mul_right _ (Nat.one_le_iff_ne_zero.mpr hne)
      linarith
    rw [hnone, Nat.zero_mul, Nat.add_zero] at hlost
    exact hlost

/-- `mul256` computes the product. -/
theorem value_mul256 (a b : Words) : value (mul256 a b) 16 = value a BNW * value b BNW :=
  value_mulLoop a b BNW le_rfl

end Mul

/-! ## Reduction -/

section Mod

variable {a b m x : Words} {n s : ℕ}

theorem toNat_bit (x : UInt32) {c : ℕ} (hc : c < 32) :
    (x >>> .ofNat c &&& 1).toNat = x.toNat / 2 ^ c % 2 := by
  rw [UInt32.toNat_and, UInt32.toNat_shiftRight, UInt32.toNat_ofNat_of_lt' (by
    rw [UInt32.size]; omega), Nat.mod_eq_of_lt hc, Nat.shiftRight_eq_div_pow]
  exact Nat.and_one_is_mod _

theorem topBit_spec (x : UInt32) (b : ℕ) (hb : b < 32) (hx : x ≠ 0) (hlt : x.toNat < 2 ^ (b + 1)) :
    2 ^ topBit x b ≤ x.toNat ∧ x.toNat < 2 ^ (topBit x b + 1) := by
  induction b with
  | zero =>
    have hpos : x.toNat ≠ 0 := fun h => hx (UInt32.toNat_inj.mp h)
    exact ⟨Nat.one_le_iff_ne_zero.mpr hpos, hlt⟩
  | succ b ih =>
    have hbit := toNat_bit x hb
    have hdiv : x.toNat / 2 ^ (b + 1) < 2 := by
      rw [Nat.div_lt_iff_lt_mul (by positivity)]
      rwa [pow_succ' 2 (b + 1)] at hlt
    rw [topBit]
    split_ifs with h
    · rw [h] at hbit
      refine ih (by omega) ?_
      have hzero : x.toNat / 2 ^ (b + 1) = 0 := by
        rw [← Nat.mod_eq_of_lt hdiv]
        exact hbit.symm
      exact (Nat.div_eq_zero_iff_lt (by positivity)).mp hzero
    · refine ⟨?_, hlt⟩
      by_contra hsmall
      rw [Nat.div_eq_of_lt (by omega)] at hbit
      exact h (UInt32.toNat_inj.mp hbit)

/-- `hi_bit` is the position of the highest bit, and -1 for 0. -/
theorem hiBit_spec (a : Words) (n : ℕ) :
    (value a n = 0 ∧ hiBit a n = -1) ∨
      ∃ h : ℕ, hiBit a n = h ∧ 2 ^ h ≤ value a n ∧ value a n < 2 ^ (h + 1) := by
  induction n with
  | zero => exact .inl ⟨rfl, rfl⟩
  | succ n ih =>
    by_cases hzero : a n = 0
    · simpa [hiBit, value_succ, hzero] using ih
    · right
      obtain ⟨hle, hlt⟩ := topBit_spec (a n) 31 (by decide) hzero (a n).toNat_lt
      have hlow := value_lt a n
      refine ⟨n * 32 + topBit (a n) 31, by simp [hiBit, hzero], ?_, ?_⟩
      · calc 2 ^ (n * 32 + topBit (a n) 31) = 2 ^ topBit (a n) 31 * 2 ^ (32 * n) := by
              rw [← pow_add, Nat.mul_comm n, Nat.add_comm]
          _ ≤ (a n).toNat * 2 ^ (32 * n) := Nat.mul_le_mul_right _ hle
          _ ≤ value a (n + 1) := Nat.le_add_left _ _
      · calc value a (n + 1) < 2 ^ (32 * n) + (a n).toNat * 2 ^ (32 * n) :=
              Nat.add_lt_add_right hlow _
          _ = ((a n).toNat + 1) * 2 ^ (32 * n) := by ring
          _ ≤ 2 ^ (topBit (a n) 31 + 1) * 2 ^ (32 * n) := Nat.mul_le_mul_right _ hlt
          _ = 2 ^ (n * 32 + topBit (a n) 31 + 1) := by
              rw [← pow_add, Nat.mul_comm n, Nat.add_comm, Nat.add_assoc]

/-- `ucmp` compares the numbers. -/
theorem ucmp_nonneg (a b : Words) : 0 ≤ ucmp a 16 b 16 ↔ value b 16 ≤ value a 16 := by
  unfold ucmp
  rcases hiBit_spec a 16 with ⟨ha, hia⟩ | ⟨i, hia, hia1, hia2⟩ <;>
    rcases hiBit_spec b 16 with ⟨hb, hib⟩ | ⟨j, hib, hib1, hib2⟩
  · simp [hia, hib, ha, hb]
  · have : 0 < 2 ^ j := by positivity
    simp only [hia, hib, ha]
    rw [if_pos (by omega), if_neg (by omega)]
    constructor <;> intro h <;> omega
  · simp only [hia, hib, hb]
    rw [if_pos (by omega), if_pos (by omega)]
    simp
  · simp only [hia, hib]
    rcases Nat.lt_trichotomy i j with hlt | rfl | hgt
    · have hpow : 2 ^ (i + 1) ≤ 2 ^ j := Nat.pow_le_pow_right (by decide) hlt
      rw [if_pos (by omega), if_neg (by omega)]
      constructor <;> intro h <;> omega
    · rw [if_neg (by simp), if_neg (by omega), cmpFrom_spec]
      -- The highest bit is in the word `i / 32`, so the words above are 0.
      have hidx : ((i : ℤ) / 32).toNat + 1 = i / 32 + 1 := by omega
      have hpow : 2 ^ (i + 1) ≤ 2 ^ (32 * (i / 32 + 1)) :=
        Nat.pow_le_pow_right (by decide) (by omega)
      have hi : i < 32 * 16 := lt_of_two_pow_le_value hia1
      rw [hidx, ← value_eq_of_lt (show i / 32 + 1 ≤ 16 by omega) (hia2.trans_le hpow),
        ← value_eq_of_lt (show i / 32 + 1 ≤ 16 by omega) (hib2.trans_le hpow)]
      split_ifs <;> constructor <;> intro h <;> omega
    · have hpow : 2 ^ (j + 1) ≤ 2 ^ i := Nat.pow_le_pow_right (by decide) hgt
      rw [if_pos (by omega), if_pos (by omega)]
      constructor <;> intro h <;> omega

/-- One turn of the loop that shifts the modulus writes two words. -/
theorem shiftLoop_succ (m : Words) (s n w : ℕ) (hw : w < 16) :
    shiftLoop m s (n + 1) w =
      if w = n + s / 32 then shiftLoop m s n w ||| m n <<< .ofNat (s % 32)
      else if s % 32 ≠ 0 ∧ w = n + s / 32 + 1 then
        shiftLoop m s n w ||| m n >>> .ofNat (32 - s % 32)
      else shiftLoop m s n w := by
  simp only [shiftLoop]
  by_cases hlow : w = n + s / 32
  · subst hlow
    rw [if_pos hw, if_pos rfl]
    split_ifs
    · rw [Function.update_of_ne (by omega), Function.update_self]
    · rw [Function.update_self]
  · rw [if_neg hlow]
    have hfirst : (if n + s / 32 < 16 then Function.update (shiftLoop m s n) (n + s / 32)
        (shiftLoop m s n (n + s / 32) ||| m n <<< .ofNat (s % 32)) else shiftLoop m s n) w =
        shiftLoop m s n w := by
      split_ifs
      · exact Function.update_of_ne hlow ..
      · rfl
    by_cases hhigh : s % 32 ≠ 0 ∧ w = n + s / 32 + 1
    · rw [if_pos hhigh, if_pos ⟨hhigh.1, by omega⟩, ← hhigh.2, Function.update_self, hfirst]
    · rw [if_neg hhigh]
      by_cases h : s % 32 ≠ 0 ∧ n + s / 32 + 1 < 16
      · rw [if_pos h, Function.update_of_ne fun hw => hhigh ⟨h.1, hw⟩, hfirst]
      · rw [if_neg h, hfirst]

/-- The words of the shifted modulus, after some turns of the loop. -/
theorem shiftLoop_word (m : Words) (s n w : ℕ) (hw : w < 16) :
    shiftLoop m s n w =
      (if s / 32 ≤ w ∧ w < s / 32 + n then m (w - s / 32) <<< .ofNat (s % 32) else 0) |||
        (if s % 32 ≠ 0 ∧ s / 32 + 1 ≤ w ∧ w < s / 32 + 1 + n then
          m (w - s / 32 - 1) >>> .ofNat (32 - s % 32) else 0) := by
  induction n with
  | zero =>
    rw [if_neg (by omega), if_neg (by omega)]
    rfl
  | succ n ih =>
    rw [shiftLoop_succ m s n w hw, ih]
    by_cases hlow : w = n + s / 32
    · rw [if_pos hlow, if_neg (show ¬ (s / 32 ≤ w ∧ w < s / 32 + n) by omega),
        if_pos (show s / 32 ≤ w ∧ w < s / 32 + (n + 1) by omega), show w - s / 32 = n by omega]
      simp only [show w < s / 32 + 1 + n by omega, show w < s / 32 + 1 + (n + 1) by omega]
      rw [UInt32.zero_or, UInt32.or_comm]
    · rw [if_neg hlow]
      have hsame : (w < s / 32 + (n + 1)) = (w < s / 32 + n) := propext (by omega)
      simp only [hsame]
      by_cases hhigh : s % 32 ≠ 0 ∧ w = n + s / 32 + 1
      · have hcond : s % 32 ≠ 0 ∧ s / 32 + 1 ≤ w ∧ w < s / 32 + 1 + (n + 1) := ⟨hhigh.1, by omega⟩
        rw [if_pos hhigh, if_neg (show ¬ (s % 32 ≠ 0 ∧ s / 32 + 1 ≤ w ∧ w < s / 32 + 1 + n) by omega),
          if_pos hcond, show w - s / 32 - 1 = n by omega, UInt32.or_zero]
      · have hcond : (s % 32 ≠ 0 ∧ s / 32 + 1 ≤ w ∧ w < s / 32 + 1 + (n + 1)) =
            (s % 32 ≠ 0 ∧ s / 32 + 1 ≤ w ∧ w < s / 32 + 1 + n) := propext (by omega)
        rw [if_neg hhigh]
        simp only [hcond]

theorem testBit_shiftLeft (x : UInt32) {c q : ℕ} (hc : c < 32) (hq : q < 32) :
    (x <<< .ofNat c).toNat.testBit q = (decide (c ≤ q) && x.toNat.testBit (q - c)) := by
  rw [UInt32.toNat_shiftLeft, UInt32.toNat_ofNat_of_lt' (by rw [UInt32.size]; omega),
    Nat.mod_eq_of_lt hc, Nat.testBit_mod_two_pow, Nat.testBit_shiftLeft]
  simp [hq]

theorem testBit_shiftRight (x : UInt32) {c : ℕ} (hc : c < 32) (q : ℕ) :
    (x >>> .ofNat c).toNat.testBit q = x.toNat.testBit (c + q) := by
  rw [UInt32.toNat_shiftRight, UInt32.toNat_ofNat_of_lt' (by rw [UInt32.size]; omega),
    Nat.mod_eq_of_lt hc, Nat.testBit_shiftRight]

/-- The shifted modulus, if it fits into sixteen words. -/
theorem value_shiftLoop (m : Words) (s : ℕ) (h : value m BNW * 2 ^ s < 2 ^ (32 * (2 * BNW))) :
    value (shiftLoop m s BNW) 16 = value m BNW * 2 ^ s := by
  apply Nat.eq_of_testBit_eq
  intro j
  rcases Nat.lt_or_ge j (32 * 16) with hj | hj
  · rw [testBit_value, Nat.mul_comm (value m BNW), Nat.testBit_two_pow_mul, testBit_value,
      shiftLoop_word m s BNW (j / 32) (by omega), UInt32.toNat_or, Nat.testBit_or]
    have hq : j % 32 < 32 := Nat.mod_lt _ (by decide)
    have hc : s % 32 < 32 := Nat.mod_lt _ (by decide)
    rcases Nat.lt_or_ge (j % 32) (s % 32) with hlt | hge
    · -- The bit comes from the word below, shifted right.
      have hleft : (if s / 32 ≤ j / 32 ∧ j / 32 < s / 32 + BNW then
          m (j / 32 - s / 32) <<< UInt32.ofNat (s % 32) else 0).toNat.testBit (j % 32) = false := by
        split_ifs
        · rw [testBit_shiftLeft _ hc hq, decide_eq_false (by omega), Bool.false_and]
        · exact Nat.zero_testBit _
      rw [hleft, Bool.false_or]
      by_cases hin : s / 32 + 1 ≤ j / 32 ∧ j / 32 < s / 32 + 1 + BNW
      · rw [if_pos ⟨by omega, hin⟩, testBit_shiftRight _ (by omega),
          show j / 32 - s / 32 - 1 = (j - s) / 32 by omega,
          show 32 - s % 32 + j % 32 = (j - s) % 32 by omega]
        simp [hj, show s ≤ j by omega, show j - s < 32 * BNW by omega]
      · rw [if_neg fun h => hin h.2]
        have hout : ¬ (s ≤ j ∧ j - s < 32 * BNW) := by omega
        simp only [not_and_or] at hout
        obtain hout | hout := hout <;> simp [hout]
    · -- The bit comes from the word itself, shifted left.
      have hright : (if s % 32 ≠ 0 ∧ s / 32 + 1 ≤ j / 32 ∧ j / 32 < s / 32 + 1 + BNW then
          m (j / 32 - s / 32 - 1) >>> UInt32.ofNat (32 - s % 32) else 0).toNat.testBit (j % 32) =
          false := by
        split_ifs with hin
        · rw [testBit_shiftRight _ (by omega)]
          exact Nat.testBit_eq_false_of_lt ((m _).toNat_lt.trans_le
            (Nat.pow_le_pow_right (by decide) (by omega)))
        · exact Nat.zero_testBit _
      rw [hright, Bool.or_false]
      by_cases hin : s / 32 ≤ j / 32 ∧ j / 32 < s / 32 + BNW
      · rw [if_pos hin, testBit_shiftLeft _ hc hq, show j / 32 - s / 32 = (j - s) / 32 by omega,
          show j % 32 - s % 32 = (j - s) % 32 by omega]
        simp [hj, hge, show s ≤ j by omega, show j - s < 32 * BNW by omega]
      · rw [if_neg hin]
        have hout : ¬ (s ≤ j ∧ j - s < 32 * BNW) := by omega
        simp only [not_and_or] at hout
        obtain hout | hout := hout <;> simp [hout]
  · have hpow : 2 ^ (32 * (2 * BNW)) ≤ 2 ^ j := Nat.pow_le_pow_right (by decide) hj
    rw [Nat.testBit_eq_false_of_lt (h.trans_le hpow), testBit_value, decide_eq_false (by omega),
      Bool.false_and]

/-- The loop of `bn_mod` reduces a number below `2 ^ n` times the modulus. -/
theorem value_modLoop (hfit : value m BNW * 2 ^ n < 2 * 2 ^ (32 * (2 * BNW)))
    (ha : value a 16 < value m BNW * 2 ^ n) :
    value (modLoop m n a) 16 = value a 16 % value m BNW := by
  induction n generalizing a with
  | zero =>
    rw [pow_zero, Nat.mul_one] at ha
    exact (Nat.mod_eq_of_lt ha).symm
  | succ n ih =>
    have hdouble : value m BNW * 2 ^ (n + 1) = 2 * (value m BNW * 2 ^ n) := by
      rw [pow_succ]
      ring
    rw [hdouble] at hfit ha
    have ht : value (shiftLoop m n BNW) 16 = value m BNW * 2 ^ n :=
      value_shiftLoop m n (lt_of_mul_lt_mul_left hfit (Nat.zero_le 2))
    rw [modLoop]
    split_ifs with hcmp
    · have hle := (ucmp_nonneg a (shiftLoop m n BNW)).mp hcmp
      have hsub := value_usub hle
      rw [ht] at hle hsub
      rw [ih (by linarith) (by rw [hsub]; omega), hsub]
      obtain ⟨rest, hrest⟩ := Nat.exists_eq_add_of_le hle
      rw [hrest, Nat.add_sub_cancel_left, Nat.mul_add_mod]
    · have hlt := mt (ucmp_nonneg a (shiftLoop m n BNW)).mpr hcmp
      rw [ht, not_le] at hlt
      exact ih (by linarith) hlt

/-- `bn_mod` computes the remainder. -/
theorem value_bnMod (x : Words) (hm : 0 < value m BNW) :
    value (bnMod x m) BNW = value x 16 % value m BNW := by
  rcases hiBit_spec m BNW with ⟨hzero, -⟩ | ⟨bl, hbl, hbl1, hbl2⟩
  · omega
  have hwide : ∀ r : Words, value r 16 = value x 16 % value m BNW →
      value r BNW = value x 16 % value m BNW := by
    intro r hr
    have hlt : value r 16 < 2 ^ (32 * BNW) := by
      rw [hr]
      exact (Nat.mod_lt _ hm).trans (value_lt m BNW)
    rw [← value_eq_of_lt (by decide) hlt, hr]
  apply hwide
  simp only [bnMod, hbl]
  rw [if_neg (by omega)]
  rcases hiBit_spec x 16 with ⟨hzero, hal⟩ | ⟨al, hal, hal1, hal2⟩
  · rw [hal, if_pos (by decide), hzero, Nat.zero_mod]
    exact value_eq_of_zero (Nat.zero_le _) fun _ _ _ => rfl
  · rw [hal, if_neg (by omega)]
    rcases Nat.lt_or_ge al bl with hlt | hge
    · rw [show ((al : ℤ) - bl + 1).toNat = 0 by omega, modLoop]
      have hpow : 2 ^ (al + 1) ≤ 2 ^ bl := Nat.pow_le_pow_right (by decide) hlt
      exact (Nat.mod_eq_of_lt (hal2.trans_le (hpow.trans hbl1))).symm
    · obtain ⟨d, rfl⟩ := Nat.exists_eq_add_of_le hge
      rw [show (((bl + d : ℕ) : ℤ) - bl + 1).toNat = d + 1 by omega]
      have hal16 : bl + d < 32 * (2 * BNW) := lt_of_two_pow_le_value hal1
      apply value_modLoop
      · calc value m BNW * 2 ^ (d + 1) < 2 ^ (bl + 1) * 2 ^ (d + 1) :=
              Nat.mul_lt_mul_of_pos_right hbl2 (by positivity)
          _ = 2 * 2 ^ (bl + d + 1) := by rw [← pow_add, ← pow_succ']; congr 1; omega
          _ ≤ 2 * 2 ^ (32 * (2 * BNW)) :=
              Nat.mul_le_mul_left _ (Nat.pow_le_pow_right (by decide) hal16)
      · calc value x 16 < 2 ^ (bl + d + 1) := hal2
          _ = 2 ^ bl * 2 ^ (d + 1) := by rw [← pow_add, Nat.add_assoc]
          _ ≤ value m BNW * 2 ^ (d + 1) := Nat.mul_le_mul_right _ hbl1

end Mod

/-! ## Modular operations -/

section Modular

variable {m : Words}

theorem value_modmul (a b : Words) (hm : 0 < value m BNW) :
    value (modmul a b m) BNW = value a BNW * value b BNW % value m BNW := by
  rw [modmul, value_bnMod _ hm, value_mul256]

theorem value_widen (a : Words) : value (widen a) 16 = value a BNW :=
  (value_eq_of_zero (show BNW ≤ 16 by decide) fun i hi _ => if_neg (by omega)).trans
    (value_congr fun i hi => if_pos hi)

theorem addLoop_of_le (t b : Words) {n i : ℕ} (hi : n ≤ i) : (addLoop t b n).1 i = t i := by
  induction n with
  | zero => rfl
  | succ n ih => exact (Function.update_of_ne (by omega) ..).trans (ih (by omega))

theorem addLoop_spec (t b : Words) (n : ℕ) :
    value (addLoop t b n).1 n + (addLoop t b n).2.toNat * 2 ^ (32 * n) = value t n + value b n ∧
      (addLoop t b n).2.toNat ≤ 1 := by
  induction n with
  | zero => simp [addLoop]
  | succ n ih =>
    obtain ⟨hval, hle⟩ := ih
    have hword : (addLoop t b n).1 n = t n := addLoop_of_le t b le_rfl
    set d := (addLoop t b n).1
    set c := (addLoop t b n).2
    set s := (d n).toUInt64 + (b n).toUInt64 + c
    have hs : s.toNat = (t n).toNat + (b n).toNat + c.toNat := by
      have := (t n).toNat_lt
      have := (b n).toNat_lt
      simp only [s, UInt64.toNat_add, UInt32.toNat_toUInt64, hword]
      omega
    have hsplit := (toUInt32_add_shiftRight s).trans hs
    have hstep : addLoop t b (n + 1) = (Function.update d n s.toUInt32, s >>> 32) := rfl
    have hbelow : value (Function.update d n s.toUInt32) n = value d n :=
      value_congr fun j hj => Function.update_of_ne hj.ne ..
    have hscaled := congrArg (· * 2 ^ (32 * n)) hsplit
    rw [hstep]
    dsimp only at hscaled ⊢
    refine ⟨?_, ?_⟩
    · rw [value_succ, value_succ, value_succ, hbelow, Function.update_self, pow_step]
      linarith
    · have := (t n).toNat_lt
      have := (b n).toNat_lt
      omega

theorem value_modadd (a b : Words) (hm : 0 < value m BNW) :
    value (modadd a b m) BNW = (value a BNW + value b BNW) % value m BNW := by
  obtain ⟨hsum, hle⟩ := addLoop_spec (widen a) b BNW
  set t := (addLoop (widen a) b BNW).1 with ht
  set carry := (addLoop (widen a) b BNW).2
  have hcarry : carry.toUInt32.toNat = carry.toNat := by
    rw [UInt64.toNat_toUInt32]
    omega
  have hwide : value (Function.update t BNW carry.toUInt32) 16 = value a BNW + value b BNW := by
    have hzero : ∀ i, BNW + 1 ≤ i → i < 16 → Function.update t BNW carry.toUInt32 i = 0 := by
      intro i hi _
      rw [Function.update_of_ne (by omega), ht, addLoop_of_le _ _ (by omega)]
      exact if_neg (by omega)
    have hbelow : value (Function.update t BNW carry.toUInt32) BNW = value t BNW :=
      value_congr fun j hj => Function.update_of_ne hj.ne ..
    have hwiden : value (widen a) BNW = value a BNW := value_congr fun i hi => if_pos hi
    rw [value_eq_of_zero (by decide) hzero, value_succ, hbelow, Function.update_self, hcarry, hsum,
      hwiden]
  rw [modadd, ← hwide]
  exact value_bnMod _ hm

/-- The bit of the exponent that a turn of `modexp` looks at. -/
theorem exponent_bit (exp : Words) {i : ℕ} (hi : i < 32 * BNW) :
    (exp (i / 32) >>> .ofNat (i % 32) &&& 1) ≠ 0 ↔ (value exp BNW).testBit i = true := by
  have hbit := toNat_bit (exp (i / 32)) (Nat.mod_lt i (show 0 < 32 by decide))
  rw [testBit_value, decide_eq_true hi, Bool.true_and, Nat.testBit_eq_decide_div_mod_eq,
    decide_eq_true_iff, ← hbit, Ne, ← UInt32.toNat_inj]
  have h0 : (0 : UInt32).toNat = 0 := rfl
  omega

/-- The loop of `modexp` appends the remaining bits to the exponent. -/
theorem value_expLoop (g exp r : Words) (hm : 0 < value m BNW) (n : ℕ) (hn : n ≤ 32 * BNW)
    (hr : value r BNW = value g BNW ^ (value exp BNW / 2 ^ n) % value m BNW) :
    value (expLoop g exp m n r) BNW = value g BNW ^ value exp BNW % value m BNW := by
  induction n generalizing r with
  | zero => simpa [expLoop] using hr
  | succ n ih =>
    set E := value exp BNW with hE
    have hsquare : value (modmul r r m) BNW =
        value g BNW ^ (2 * (E / 2 ^ (n + 1))) % value m BNW := by
      rw [value_modmul _ _ hm, hr, ← Nat.mul_mod, ← pow_add, ← two_mul]
    have hhalf : E / 2 ^ n = 2 * (E / 2 ^ (n + 1)) + E / 2 ^ n % 2 := by
      rw [pow_succ, ← Nat.div_div_eq_div_mul]
      omega
    have hbit := exponent_bit exp (show n < 32 * BNW by omega)
    rw [Nat.testBit_eq_decide_div_mod_eq, decide_eq_true_iff, ← hE] at hbit
    rw [expLoop]
    apply ih _ (by omega)
    split_ifs with h
    · rw [value_modmul _ _ hm, hsquare, hhalf, hbit.mp h, pow_succ (value g BNW), Nat.mod_mul_mod]
    · have heven : E / 2 ^ n = 2 * (E / 2 ^ (n + 1)) := by
        have := mt hbit.mpr h
        omega
      rw [hsquare, heven]

theorem value_bnSetU32 (v : UInt32) : value (bnSetU32 v) BNW = v.toNat := by
  have hone : value (bnSetU32 v) BNW = value (bnSetU32 v) 1 :=
    value_eq_of_zero (by decide) fun i hi _ => Function.update_of_ne (by omega) ..
  rw [hone, value_succ]
  simp [bnSetU32]

/-- `modexp` computes the power. -/
theorem value_modexp (base exp : Words) (hm : 1 < value m BNW) :
    value (modexp base exp m) BNW = value base BNW ^ value exp BNW % value m BNW := by
  rw [modexp]
  rcases hiBit_spec exp BNW with ⟨hzero, hb⟩ | ⟨h, hb, hb1, hb2⟩
  · rw [hb, hzero, pow_zero, Nat.mod_eq_of_lt hm]
    exact value_bnSetU32 1
  · rw [hb, show ((h : ℤ) + 1).toNat = h + 1 by omega]
    apply value_expLoop base exp (bnSetU32 1) (by omega) (h + 1) (lt_of_two_pow_le_value hb1)
    rw [Nat.div_eq_of_lt hb2, pow_zero, Nat.mod_eq_of_lt hm]
    exact value_bnSetU32 1

end Modular

end SneppxAlg.Zk
