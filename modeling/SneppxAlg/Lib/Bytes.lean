import Mathlib

/-!
# Little-endian byte strings

The value of a byte string read in radix 256, its fixed-width encoding, and the two 64-bit
idioms that C code spells with shifts: assembling a word from eight bytes, and cutting a
128-bit quantity held in two words into limbs.
-/

namespace Lib.Bytes

/-! ## Values and encodings -/

/-- The value of a byte string, least significant byte first. -/
def leVal (l : List UInt8) : Nat := Nat.ofDigits 256 (l.map UInt8.toNat)

@[simp] theorem leVal_nil : leVal [] = 0 := rfl

@[simp] theorem leVal_cons (b : UInt8) (l : List UInt8) :
    leVal (b :: l) = b.toNat + 256 * leVal l := by
  simp [leVal, Nat.ofDigits_cons]

theorem leVal_append (l m : List UInt8) :
    leVal (l ++ m) = leVal l + 256 ^ l.length * leVal m := by
  simp [leVal, Nat.ofDigits_append]

theorem leVal_replicate_zero (n : Nat) : leVal (List.replicate n 0) = 0 := by
  induction n with
  | zero => rfl
  | succ n ih => simp [List.replicate_succ, ih]

theorem leVal_lt (l : List UInt8) : leVal l < 256 ^ l.length := by
  induction l with
  | nil => exact Nat.one_pos
  | cons b l ih =>
    have hb : b.toNat < 256 := b.toNat_lt
    rw [leVal_cons, List.length_cons, pow_succ']
    omega

/-- A byte string of a known length is given by its value. -/
theorem eq_of_leVal_eq {l m : List UInt8} (hlen : l.length = m.length) (h : leVal l = leVal m) : l = m := by
  induction l generalizing m with
  | nil => exact (List.length_eq_zero_iff.mp hlen.symm).symm
  | cons b l ih =>
    obtain _ | ⟨c, m⟩ := m
    · cases hlen
    · have hb : b.toNat < 256 := b.toNat_lt
      have hc : c.toNat < 256 := c.toNat_lt
      rw [leVal_cons, leVal_cons] at h
      rw [UInt8.toNat_inj.mp (show b.toNat = c.toNat by omega),
        ih (Nat.succ_injective hlen) (by omega)]

/-- Masking byte by byte masks the value. -/
theorem leVal_zipWith_and (l m : List UInt8) (h : l.length = m.length) :
    leVal (List.zipWith (· &&& ·) l m) = leVal l &&& leVal m := by
  induction l generalizing m with
  | nil => simp
  | cons a l ih =>
    obtain _ | ⟨b, m⟩ := m
    · simp at h
    · have ha : a.toNat < 2 ^ 8 := a.toNat_lt
      have hb : b.toNat < 2 ^ 8 := b.toNat_lt
      have hab : (a &&& b).toNat < 2 ^ 8 := (a &&& b).toNat_lt
      rw [List.zipWith_cons_cons, leVal_cons, leVal_cons, leVal_cons, ih m (by simpa using h)]
      apply Nat.eq_of_testBit_eq
      intro j
      rw [Nat.testBit_and, Nat.add_comm, Nat.add_comm a.toNat, Nat.add_comm b.toNat,
        show (256 : Nat) = 2 ^ 8 from rfl, Nat.testBit_two_pow_mul_add _ hab,
        Nat.testBit_two_pow_mul_add _ ha, Nat.testBit_two_pow_mul_add _ hb]
      split <;> simp

/-- The `n`-byte encoding of a value, least significant byte first. -/
def leBytes : Nat → Nat → List UInt8
  | 0, _ => []
  | n + 1, v => UInt8.ofNat v :: leBytes n (v / 256)

@[simp] theorem length_leBytes (n v : Nat) : (leBytes n v).length = n := by
  induction n generalizing v with
  | zero => rfl
  | succ n ih => simp [leBytes, ih]

theorem leVal_leBytes (n v : Nat) : leVal (leBytes n v) = v % 256 ^ n := by
  induction n generalizing v with
  | zero => simp [leBytes, Nat.mod_one]
  | succ n ih =>
    have hb : (UInt8.ofNat v).toNat = v % 256 := by simp
    rw [leBytes, leVal_cons, ih, hb, pow_succ', Nat.mod_mul]

theorem leBytes_congr {n v w : Nat} (h : v % 256 ^ n = w % 256 ^ n) :
    leBytes n v = leBytes n w := by
  induction n generalizing v w with
  | zero => rfl
  | succ n ih =>
    rw [pow_succ', Nat.mod_mul, Nat.mod_mul] at h
    have h0 : v % 256 = w % 256 := by omega
    have h1 : v / 256 % 256 ^ n = w / 256 % 256 ^ n := by omega
    have hb : UInt8.ofNat v = UInt8.ofNat w := by
      apply UInt8.toNat_inj.mp
      simpa using h0
    rw [leBytes, leBytes, hb, ih h1]

theorem leBytes_add (n m v : Nat) :
    leBytes (n + m) v = leBytes n v ++ leBytes m (v / 256 ^ n) := by
  induction n generalizing v with
  | zero => simp [leBytes]
  | succ n ih =>
    rw [Nat.succ_add, leBytes, ih, Nat.div_div_eq_div_mul, ← pow_succ']
    rfl

/-- A fixed-width encoding determines the value it encodes. -/
theorem leBytes_inj {n v w : Nat} (h : leBytes n v = leBytes n w) :
    v % 256 ^ n = w % 256 ^ n := by
  rw [← leVal_leBytes, ← leVal_leBytes, h]

/-! ## Words from bytes -/

/-- The C idiom `b0 | b1 << 8 | … | b7 << 56`. -/
def word64 (b0 b1 b2 b3 b4 b5 b6 b7 : UInt8) : UInt64 :=
  b0.toUInt64 ||| b1.toUInt64 <<< 8 ||| b2.toUInt64 <<< 16 ||| b3.toUInt64 <<< 24 |||
    b4.toUInt64 <<< 32 ||| b5.toUInt64 <<< 40 ||| b6.toUInt64 <<< 48 ||| b7.toUInt64 <<< 56

/-- Joining a value that fits below bit `k` with one shifted above it adds them. -/
theorem or_shiftLeft_eq_add {a b k : Nat} (ha : a < 2 ^ k) : a ||| b <<< k = a + b * 2 ^ k := by
  rw [Nat.or_comm, ← Nat.shiftLeft_add_eq_or_of_lt ha, Nat.shiftLeft_eq, Nat.add_comm]

theorem xor_shiftLeft_eq_add {a b k : Nat} (ha : a < 2 ^ k) : a ^^^ b <<< k = a + b * 2 ^ k := by
  apply Nat.eq_of_testBit_eq
  intro j
  rw [Nat.testBit_xor, Nat.testBit_shiftLeft, Nat.add_comm, Nat.mul_comm, Nat.testBit_two_pow_mul_add _ ha]
  by_cases hj : j < k
  · simp [hj, Nat.not_le.mpr hj]
  · have haj : a.testBit j = false :=
      Nat.testBit_lt_two_pow (ha.trans_le (Nat.pow_le_pow_right (by decide) (by omega)))
    rw [if_neg hj, haj, Bool.false_xor, decide_eq_true (by omega), Bool.true_and]

theorem toNat_shiftLeft_lt {x k : UInt64} (hk : k.toNat < 64) (hx : x.toNat < 2 ^ (64 - k.toNat)) :
    (x <<< k).toNat = x.toNat <<< k.toNat := by
  have hlt : x.toNat <<< k.toNat < 2 ^ 64 := by
    rw [Nat.shiftLeft_eq]
    calc x.toNat * 2 ^ k.toNat < 2 ^ (64 - k.toNat) * 2 ^ k.toNat :=
          Nat.mul_lt_mul_of_pos_right hx (by positivity)
      _ = 2 ^ 64 := by rw [← pow_add, Nat.sub_add_cancel hk.le]
  rw [UInt64.toNat_shiftLeft, Nat.mod_eq_of_lt hk, Nat.mod_eq_of_lt hlt]

theorem toNat_byte_shiftLeft (b : UInt8) {k : UInt64} (hk : k.toNat ≤ 56) :
    (b.toUInt64 <<< k).toNat = b.toNat <<< k.toNat := by
  have hb : b.toNat < 2 ^ (64 - k.toNat) :=
    b.toNat_lt.trans_le (Nat.pow_le_pow_right (by decide) (by omega))
  rw [toNat_shiftLeft_lt (by omega) (by simpa using hb), UInt8.toNat_toUInt64]

theorem toNat_word64 (b0 b1 b2 b3 b4 b5 b6 b7 : UInt8) :
    (word64 b0 b1 b2 b3 b4 b5 b6 b7).toNat = leVal [b0, b1, b2, b3, b4, b5, b6, b7] := by
  have h0 := b0.toNat_lt
  have h1 := b1.toNat_lt
  have h2 := b2.toNat_lt
  have h3 := b3.toNat_lt
  have h4 := b4.toNat_lt
  have h5 := b5.toNat_lt
  have h6 := b6.toNat_lt
  have h7 := b7.toNat_lt
  simp only [word64, UInt64.toNat_or, UInt8.toNat_toUInt64]
  rw [toNat_byte_shiftLeft b1 (k := 8) (by decide), toNat_byte_shiftLeft b2 (k := 16) (by decide),
    toNat_byte_shiftLeft b3 (k := 24) (by decide), toNat_byte_shiftLeft b4 (k := 32) (by decide),
    toNat_byte_shiftLeft b5 (k := 40) (by decide), toNat_byte_shiftLeft b6 (k := 48) (by decide),
    toNat_byte_shiftLeft b7 (k := 56) (by decide)]
  simp only [UInt64.reduceToNat]
  rw [or_shiftLeft_eq_add (k := 8) h0, or_shiftLeft_eq_add (k := 16) (by omega),
    or_shiftLeft_eq_add (k := 24) (by omega), or_shiftLeft_eq_add (k := 32) (by omega),
    or_shiftLeft_eq_add (k := 40) (by omega), or_shiftLeft_eq_add (k := 48) (by omega),
    or_shiftLeft_eq_add (k := 56) (by omega)]
  simp only [leVal_cons, leVal_nil]
  omega

/-- The eight bytes of a word, as C code extracts them. -/
def wordBytes (w : UInt64) : List UInt8 :=
  [w.toUInt8, (w >>> 8).toUInt8, (w >>> 16).toUInt8, (w >>> 24).toUInt8,
   (w >>> 32).toUInt8, (w >>> 40).toUInt8, (w >>> 48).toUInt8, (w >>> 56).toUInt8]

/-! ## Masks and shifts as arithmetic -/

theorem toNat_and_mask (x : UInt64) (m : UInt64) (k : Nat) (hm : m.toNat = 2 ^ k - 1) :
    (x &&& m).toNat = x.toNat % 2 ^ k := by
  rw [UInt64.toNat_and, hm, Nat.and_two_pow_sub_one_eq_mod]

theorem toNat_shiftRight_lt (x k : UInt64) (hk : k.toNat < 64) :
    (x >>> k).toNat = x.toNat / 2 ^ k.toNat := by
  rw [UInt64.toNat_shiftRight, Nat.mod_eq_of_lt hk, Nat.shiftRight_eq_div_pow]

theorem toNat_add_lt {x y : UInt64} (h : x.toNat + y.toNat < 2 ^ 64) :
    (x + y).toNat = x.toNat + y.toNat := by
  rw [UInt64.toNat_add, Nat.mod_eq_of_lt h]

theorem toNat_mul_lt {x y : UInt64} (h : x.toNat * y.toNat < 2 ^ 64) :
    (x * y).toNat = x.toNat * y.toNat := by
  rw [UInt64.toNat_mul, Nat.mod_eq_of_lt h]

theorem wordBytes_eq (w : UInt64) : wordBytes w = leBytes 8 w.toNat := by
  have hbyte (k : UInt64) (n : Nat) (hk : k.toNat < 64) (hn : 2 ^ k.toNat = n) :
      (w >>> k).toUInt8 = UInt8.ofNat (w.toNat / n) := by
    apply UInt8.toNat_inj.mp
    rw [UInt64.toNat_toUInt8, toNat_shiftRight_lt w k hk, hn]
    simp
  have h0 : w.toUInt8 = UInt8.ofNat w.toNat := by
    apply UInt8.toNat_inj.mp
    rw [UInt64.toNat_toUInt8]
    simp
  rw [wordBytes, h0, hbyte 8 256 (by decide) (by decide),
    hbyte 16 (256 * 256) (by decide) (by decide), hbyte 24 (256 * 256 * 256) (by decide) (by decide),
    hbyte 32 (256 * 256 * 256 * 256) (by decide) (by decide),
    hbyte 40 (256 * 256 * 256 * 256 * 256) (by decide) (by decide),
    hbyte 48 (256 * 256 * 256 * 256 * 256 * 256) (by decide) (by decide),
    hbyte 56 (256 * 256 * 256 * 256 * 256 * 256 * 256) (by decide) (by decide)]
  simp only [leBytes, Nat.div_div_eq_div_mul]

/-! ## Key streams -/

/-- A byte string with a key stream of at least its length XORed in. -/
def xorBytes (data stream : List UInt8) : List UInt8 := List.zipWith (· ^^^ ·) data stream

theorem length_xorBytes {data stream : List UInt8} (h : data.length ≤ stream.length) :
    (xorBytes data stream).length = data.length := by
  simp [xorBytes, h]

/-- The same key stream twice is the identity. -/
theorem xorBytes_xorBytes {data stream : List UInt8} (h : data.length ≤ stream.length) :
    xorBytes (xorBytes data stream) stream = data := by
  induction data generalizing stream with
  | nil => simp [xorBytes]
  | cons b data ih =>
    obtain _ | ⟨k, stream⟩ := stream
    · simp at h
    · have ih := @ih stream (by simpa using h)
      simp only [xorBytes, List.zipWith_cons_cons] at ih ⊢
      rw [ih, UInt8.xor_assoc, UInt8.xor_self, UInt8.xor_zero]

/-- OR-ing up the differences of two strings of one length gives zero only if they agree. -/
theorem foldl_or_xor_eq_zero {a b : List UInt8} (h : a.length = b.length) (acc : UInt8) :
    (xorBytes a b).foldl (· ||| ·) acc = 0 ↔ acc = 0 ∧ a = b := by
  induction a generalizing b acc with
  | nil =>
    obtain rfl : b = [] := List.length_eq_zero_iff.mp h.symm
    simp [xorBytes]
  | cons x a ih =>
    obtain _ | ⟨y, b⟩ := b
    · simp at h
    · have ih := ih (b := b) (by simpa using h) (acc ||| (x ^^^ y))
      simp only [xorBytes, List.zipWith_cons_cons, List.foldl_cons] at ih ⊢
      rw [ih, UInt8.or_eq_zero_iff, UInt8.xor_eq_zero_iff, List.cons.injEq, and_assoc]

end Lib.Bytes
