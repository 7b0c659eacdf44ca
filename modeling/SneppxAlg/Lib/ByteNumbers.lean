import SneppxAlg.Lib.Bytes

/-!
# Numbers as byte strings

The loops of multi-precision arithmetic on little-endian byte strings: comparing from the highest byte down, adding with
a carry, subtracting with a borrow in 16-bit words, and cutting columns to bytes.
-/

namespace Lib.Bytes

/-! ## Comparing -/

/-- Comparing from the highest byte down; the highest bytes stand first. -/
def compareHigh : List UInt8 → List UInt8 → Ordering
  | a :: as, b :: bs => if b < a then .gt else if a < b then .lt else compareHigh as bs
  | _, _ => .eq

theorem compareHigh_eq {a b : List UInt8} (h : a.length = b.length) :
    compareHigh a b = compare (leVal a.reverse) (leVal b.reverse) := by
  induction a generalizing b with
  | nil =>
    obtain rfl : b = [] := List.length_eq_zero_iff.mp h.symm
    simp [compareHigh]
  | cons x a ih =>
    obtain _ | ⟨y, b⟩ := b
    · cases h
    · have hlen : a.length = b.length := Nat.succ_injective h
      have ha := leVal_lt a.reverse
      have hb := leVal_lt b.reverse
      rw [List.length_reverse] at ha hb
      rw [← hlen] at hb
      have hval (z : UInt8) (l : List UInt8) (hl : a.length = l.length) :
          leVal (z :: l).reverse = leVal l.reverse + 256 ^ a.length * z.toNat := by
        rw [List.reverse_cons, leVal_append, List.length_reverse, leVal_cons, leVal_nil, hl, Nat.mul_zero,
          Nat.add_zero]
      rw [compareHigh, hval x a rfl, hval y b hlen]
      have hmul {m n : ℕ} (hmn : m < n) : 256 ^ a.length * m + 256 ^ a.length ≤ 256 ^ a.length * n := by
        rw [← Nat.mul_succ]
        exact Nat.mul_le_mul_left _ hmn
      split_ifs with hgt hlt
      · have h := hmul (UInt8.lt_iff_toNat_lt.mp hgt)
        exact (Nat.compare_eq_gt.mpr (by omega)).symm
      · have h := hmul (UInt8.lt_iff_toNat_lt.mp hlt)
        exact (Nat.compare_eq_lt.mpr (by omega)).symm
      · have hxy : x.toNat = y.toNat := by
          rw [UInt8.lt_iff_toNat_lt] at hgt hlt
          omega
        rw [hxy, ih hlen]
        rcases lt_trichotomy (leVal a.reverse) (leVal b.reverse) with h | h | h
        · rw [Nat.compare_eq_lt.mpr h, Nat.compare_eq_lt.mpr (by omega)]
        · rw [h]
          simp
        · rw [Nat.compare_eq_gt.mpr h, Nat.compare_eq_gt.mpr (by omega)]

/-- The comparison of two byte strings of one length. -/
theorem compareHigh_ne_lt {a b : List UInt8} (h : a.length = b.length) :
    compareHigh a.reverse b.reverse ≠ .lt ↔ leVal b ≤ leVal a := by
  rw [compareHigh_eq (by rw [List.length_reverse, List.length_reverse, h]), List.reverse_reverse, List.reverse_reverse,
    Ne, Nat.compare_eq_lt, not_lt]

/-- No byte of a string has a bit exactly if it is the number `0`. -/
theorem foldl_or_eq_zero {l : List UInt8} {acc : UInt8} :
    l.foldl (· ||| ·) acc = 0 ↔ acc = 0 ∧ leVal l = 0 := by
  induction l generalizing acc with
  | nil => simp
  | cons b l ih =>
    rw [List.foldl_cons, ih, UInt8.or_eq_zero_iff, leVal_cons, and_assoc]
    refine and_congr_right fun _ => ?_
    rw [← UInt8.toNat_inj, show (0 : UInt8).toNat = 0 from rfl]
    omega

/-! ## Subtracting -/

/-- Bytes are subtracted with a borrow, in 16-bit words. -/
def subBytes (borrow : UInt16) : List UInt8 → List UInt8 → List UInt8 × UInt16
  | t :: ts, s :: ss =>
    let diff := t.toUInt16 - s.toUInt16 - borrow
    let r := subBytes (diff >>> 8 &&& 1) ts ss
    (diff.toUInt8 :: r.1, r.2)
  | _, _ => ([], borrow)

theorem length_subBytes {t s : List UInt8} (h : t.length = s.length) (borrow : UInt16) :
    (subBytes borrow t s).1.length = t.length := by
  induction t generalizing s borrow with
  | nil => rfl
  | cons x t ih =>
    obtain _ | ⟨y, s⟩ := s
    · cases h
    · rw [subBytes, List.length_cons, List.length_cons, ih (Nat.succ_injective h)]

/-- One byte: what is taken from the byte behind counts for 256. -/
theorem toNat_sub_borrow (x y : UInt8) {borrow : UInt16} (hb : borrow.toNat ≤ 1) :
    ((x.toUInt16 - y.toUInt16 - borrow) >>> 8 &&& 1).toNat ≤ 1 ∧
      (x.toUInt16 - y.toUInt16 - borrow).toUInt8.toNat + y.toNat + borrow.toNat =
        x.toNat + 256 * ((x.toUInt16 - y.toUInt16 - borrow) >>> 8 &&& 1).toNat := by
  have hx := x.toNat_lt
  have hy := y.toNat_lt
  have hd : (x.toUInt16 - y.toUInt16 - borrow).toNat = (x.toNat + 65536 - y.toNat - borrow.toNat) % 65536 := by
    rw [UInt16.toNat_sub, UInt16.toNat_sub, UInt8.toNat_toUInt16, UInt8.toNat_toUInt16]
    omega
  have hand : ((x.toUInt16 - y.toUInt16 - borrow) >>> 8 &&& 1).toNat =
      (x.toUInt16 - y.toUInt16 - borrow).toNat / 256 % 2 := by
    rw [UInt16.toNat_and, UInt16.toNat_shiftRight, Nat.shiftRight_eq_div_pow]
    exact Nat.and_one_is_mod _
  rw [hand, UInt16.toNat_toUInt8, hd]
  omega

theorem leVal_subBytes {t s : List UInt8} (h : t.length = s.length) {b : UInt16} (hb : b.toNat ≤ 1) :
    (subBytes b t s).2.toNat ≤ 1 ∧
      leVal (subBytes b t s).1 + leVal s + b.toNat =
        leVal t + 256 ^ t.length * (subBytes b t s).2.toNat := by
  induction t generalizing s b with
  | nil =>
    obtain rfl : s = [] := List.length_eq_zero_iff.mp h.symm
    refine ⟨hb, ?_⟩
    simp [subBytes]
  | cons x t ih =>
    obtain _ | ⟨y, s⟩ := s
    · cases h
    · obtain ⟨hle, hstep⟩ := toNat_sub_borrow x y hb
      obtain ⟨hle', hrest⟩ := ih (Nat.succ_injective h) hle
      refine ⟨hle', ?_⟩
      rw [subBytes]
      simp only [leVal_cons, List.length_cons, pow_succ']
      have hmul : 256 * 256 ^ t.length * (subBytes ((x.toUInt16 - y.toUInt16 - b) >>> 8 &&& 1) t s).2.toNat =
          256 * (256 ^ t.length * (subBytes ((x.toUInt16 - y.toUInt16 - b) >>> 8 &&& 1) t s).2.toNat) :=
        Nat.mul_assoc _ _ _
      rw [hmul]
      omega

/-- No borrow is left exactly if the number is as large. -/
theorem subBytes_borrow_eq_zero {t s : List UInt8} (h : t.length = s.length) :
    (subBytes 0 t s).2 = 0 ↔ leVal s ≤ leVal t := by
  have hout := leVal_lt (subBytes 0 t s).1
  rw [length_subBytes h] at hout
  obtain ⟨hle, hval⟩ := leVal_subBytes h (b := 0) (by decide)
  have hzero : (0 : UInt16).toNat = 0 := rfl
  constructor
  · intro hb
    rw [hb, hzero] at hval
    omega
  · intro hst
    rcases Nat.le_one_iff_eq_zero_or_eq_one.mp hle with h0 | h1
    · exact UInt16.toNat_inj.mp h0
    · rw [h1, hzero] at hval
      omega

theorem leVal_subBytes_of_le {t s : List UInt8} (h : t.length = s.length) (hle : leVal s ≤ leVal t) :
    leVal (subBytes 0 t s).1 = leVal t - leVal s := by
  have hval := (leVal_subBytes h (b := 0) (by decide)).2
  have hzero : (0 : UInt16).toNat = 0 := rfl
  rw [(subBytes_borrow_eq_zero h).mpr hle, hzero] at hval
  omega

/-! ## Adding -/

/-- Bytes are added with a carry, the second string up to its length. -/
def addBytes (carry : UInt32) : List UInt8 → List UInt8 → List UInt8
  | a :: as, bs =>
    let sum := carry + a.toUInt32 + (bs.headD 0).toUInt32
    sum.toUInt8 :: addBytes (sum >>> 8) as bs.tail
  | [], _ => []

theorem length_addBytes (carry : UInt32) (a b : List UInt8) : (addBytes carry a b).length = a.length := by
  induction a generalizing carry b with
  | nil => rfl
  | cons x a ih => rw [addBytes, List.length_cons, List.length_cons, ih]

theorem leVal_headD_tail (b : List UInt8) : leVal b = (b.headD 0).toNat + 256 * leVal b.tail := by
  cases b with
  | nil => rfl
  | cons y b => exact leVal_cons y b

theorem leVal_addBytes {a b : List UInt8} (h : b.length ≤ a.length) {c : UInt32} (hc : c.toNat ≤ 1) :
    leVal (addBytes c a b) = (leVal a + leVal b + c.toNat) % 256 ^ a.length := by
  induction a generalizing b c with
  | nil =>
    obtain rfl : b = [] := List.length_eq_zero_iff.mp (Nat.le_zero.mp h)
    rw [addBytes, List.length_nil, pow_zero, Nat.mod_one]
    rfl
  | cons x a ih =>
    have hx := x.toNat_lt
    have hy := (b.headD 0).toNat_lt
    have hsum : (c + x.toUInt32 + (b.headD 0).toUInt32).toNat = c.toNat + x.toNat + (b.headD 0).toNat := by
      rw [UInt32.toNat_add, UInt32.toNat_add, UInt8.toNat_toUInt32, UInt8.toNat_toUInt32]
      omega
    have hshift : ((c + x.toUInt32 + (b.headD 0).toUInt32) >>> 8).toNat =
        (c.toNat + x.toNat + (b.headD 0).toNat) / 256 := by
      rw [UInt32.toNat_shiftRight, hsum, Nat.shiftRight_eq_div_pow]
      rfl
    have hbyte : (c + x.toUInt32 + (b.headD 0).toUInt32).toUInt8.toNat =
        (c.toNat + x.toNat + (b.headD 0).toNat) % 256 := by
      rw [UInt32.toNat_toUInt8, hsum]
    have hrest := ih (b := b.tail) (c := (c + x.toUInt32 + (b.headD 0).toUInt32) >>> 8)
      (by rw [List.length_tail, List.length_cons] at *; omega) (by rw [hshift]; omega)
    rw [addBytes]
    simp only [leVal_cons, List.length_cons]
    rw [hrest, hbyte, hshift, pow_succ', Nat.mod_mul, leVal_headD_tail b]
    congr 1
    · omega
    · congr 2
      omega

/-! ## Columns -/

/-- Columns are cut to bytes; what is above goes into the column behind. -/
def carryBytes (carry : UInt64) : List UInt32 → List UInt8
  | t :: ts =>
    let carry := carry + t.toUInt64
    carry.toUInt8 :: carryBytes (carry >>> 8) ts
  | [] => []

theorem length_carryBytes (carry : UInt64) (t : List UInt32) : (carryBytes carry t).length = t.length := by
  induction t generalizing carry with
  | nil => rfl
  | cons x t ih => rw [carryBytes, List.length_cons, List.length_cons, ih]

/-- The value of the columns, as far as the bytes go. -/
theorem leVal_carryBytes {carry : UInt64} (hc : carry.toNat < 2 ^ 32) (t : List UInt32) :
    leVal (carryBytes carry t) = (carry.toNat + Nat.ofDigits 256 (t.map UInt32.toNat)) % 256 ^ t.length := by
  induction t generalizing carry with
  | nil =>
    rw [carryBytes, List.length_nil, pow_zero, Nat.mod_one]
    rfl
  | cons x t ih =>
    have hx := x.toNat_lt
    have hsum : (carry + x.toUInt64).toNat = carry.toNat + x.toNat := by
      rw [UInt64.toNat_add, UInt32.toNat_toUInt64]
      omega
    have hshift : ((carry + x.toUInt64) >>> 8).toNat = (carry.toNat + x.toNat) / 256 := by
      rw [UInt64.toNat_shiftRight, hsum, Nat.shiftRight_eq_div_pow]
      rfl
    have hbyte : (carry + x.toUInt64).toUInt8.toNat = (carry.toNat + x.toNat) % 256 := by
      rw [UInt64.toNat_toUInt8, hsum]
    rw [carryBytes]
    simp only [leVal_cons, List.length_cons, List.map_cons, Nat.ofDigits_cons]
    rw [ih (by rw [hshift]; omega), hbyte, hshift, pow_succ', Nat.mod_mul]
    congr 1
    · omega
    · congr 2
      omega

end Lib.Bytes
