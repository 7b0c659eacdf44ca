import SneppxAlg.Lib.Bytes
import SneppxAlg.Lib.Segments

/-!
# Fixed-width numbers packed into bytes

Two ways in which C code packs numbers of a fixed number of bits into bytes, least significant bit
first: through an accumulator from which whole bytes are drained, and four numbers at a time. In
both, the bytes have the value of the numbers read as digits (`leVal_packBits`,
`leVal_packGroups`), and unpacking takes that value apart again.
-/

namespace Lib.BitStream

open Lib.Bytes Lib.Segments

/-! ## Digits -/

/-- The first `n` digits of `v` in radix `b`, least significant first. -/
def digitsOf (b : ℕ) : ℕ → ℕ → List ℕ
  | 0, _ => []
  | n + 1, v => v % b :: digitsOf b n (v / b)

@[simp] theorem length_digitsOf (b n v : ℕ) : (digitsOf b n v).length = n := by
  induction n generalizing v with
  | zero => rfl
  | succ n ih => rw [digitsOf, List.length_cons, ih]

/-- The digits of a number that was put together from them, whatever stands above them. -/
theorem digitsOf_ofDigits {b : ℕ} {l : List ℕ} (m : ℕ) (hl : ∀ d ∈ l, d < b) :
    digitsOf b l.length (Nat.ofDigits b l + b ^ l.length * m) = l := by
  induction l with
  | nil => rfl
  | cons d l ih =>
    have hd : d < b := hl d List.mem_cons_self
    have hval : Nat.ofDigits b (d :: l) + b ^ (d :: l).length * m =
        d + b * (Nat.ofDigits b l + b ^ l.length * m) := by
      rw [Nat.ofDigits_cons, List.length_cons, pow_succ]
      ring
    rw [List.length_cons, digitsOf, ← List.length_cons, hval, Nat.add_mul_mod_self_left,
      Nat.mod_eq_of_lt hd, Nat.add_mul_div_left _ _ (by omega), Nat.div_eq_of_lt hd, Nat.zero_add,
      ih fun e he => hl e (List.mem_cons_of_mem _ he)]

/-! ## The accumulator -/

/-- The whole bytes of an accumulator of `n` bits: `while (n >= 8) …`. -/
def drain (buf n : ℕ) : List UInt8 :=
  if 8 ≤ n then UInt8.ofNat (buf &&& 0xFF) :: drain (buf >>> 8) (n - 8) else []

/-- What is left in the accumulator. -/
def drained (buf n : ℕ) : ℕ × ℕ :=
  if 8 ≤ n then drained (buf >>> 8) (n - 8) else (buf, n)

/-- The bytes of an accumulator of `n` bits, the last of them not full: `while (n > 0) …`. -/
def flush (buf n : ℕ) : List UInt8 :=
  if 0 < n then UInt8.ofNat (buf &&& 0xFF) :: flush (buf >>> 8) (n - 8) else []

/-- Packs numbers of `bits` bits behind an accumulator of `n` bits. -/
def packLoop (bits : ℕ) : List ℕ → ℕ → ℕ → List UInt8
  | [], buf, n => flush buf n
  | v :: vs, buf, n =>
    let buf := buf ||| v <<< n
    drain buf (n + bits) ++ packLoop bits vs (drained buf (n + bits)).1 (drained buf (n + bits)).2

/-- Packs numbers of `bits` bits. -/
def packBits (bits : ℕ) (vs : List ℕ) : List UInt8 := packLoop bits vs 0 0

/-- Reads bytes until the accumulator has `bits` bits: `while (n < bits) …`. -/
def fill (bits : ℕ) (input : List UInt8) (buf n : ℕ) : List UInt8 × ℕ × ℕ :=
  if n < bits then fill bits input.tail (buf ||| (input.headD 0).toNat <<< n) (n + 8)
  else (input, buf, n)
termination_by bits - n

/-- Unpacks numbers of `bits` bits from an accumulator of `n` bits and the bytes after it. -/
def unpackLoop (bits : ℕ) : ℕ → List UInt8 → ℕ → ℕ → List ℕ
  | 0, _, _, _ => []
  | count + 1, input, buf, n =>
    let (input, buf, n) := fill bits input buf n
    (buf &&& (1 <<< bits - 1)) :: unpackLoop bits count input (buf >>> bits) (n - bits)

/-- Unpacks numbers of `bits` bits. -/
def unpackBits (bits count : ℕ) (input : List UInt8) : List ℕ := unpackLoop bits count input 0 0

theorem low_byte_add (buf : ℕ) :
    (UInt8.ofNat (buf &&& 0xFF)).toNat + 256 * (buf >>> 8) = buf := by
  have hmask : buf &&& 0xFF = buf % 256 := Nat.and_two_pow_sub_one_eq_mod buf 8
  rw [hmask, Nat.shiftRight_eq_div_pow]
  simp only [UInt8.toNat_ofNat']
  omega

/-- Draining moves the low bytes of the accumulator out. -/
theorem drain_spec (buf n : ℕ) :
    leVal (drain buf n) + 256 ^ (drain buf n).length * (drained buf n).1 = buf ∧
      (drained buf n).2 < 8 ∧ n = 8 * (drain buf n).length + (drained buf n).2 := by
  induction buf, n using drain.induct with
  | case1 buf n h ih =>
    obtain ⟨hval, hlt, hn⟩ := ih
    rw [drain, drained, if_pos h, if_pos h]
    refine ⟨?_, hlt, ?_⟩
    · have hlow := low_byte_add buf
      rw [leVal_cons, List.length_cons, pow_succ]
      calc _ = (UInt8.ofNat (buf &&& 0xFF)).toNat + 256 * (leVal (drain (buf >>> 8) (n - 8)) +
            256 ^ (drain (buf >>> 8) (n - 8)).length * (drained (buf >>> 8) (n - 8)).1) := by ring
        _ = buf := by rw [hval, hlow]
    · rw [List.length_cons]
      omega
  | case2 buf n h =>
    rw [drain, drained, if_neg h, if_neg h]
    exact ⟨by simp, by omega, by simp⟩

theorem flush_spec (buf n : ℕ) (h : buf < 2 ^ n) :
    leVal (flush buf n) = buf ∧ (flush buf n).length = (n + 7) / 8 := by
  induction buf, n using flush.induct with
  | case1 buf n hn ih =>
    have hshift : buf >>> 8 < 2 ^ (n - 8) := by
      rw [Nat.shiftRight_eq_div_pow]
      rcases Nat.lt_or_ge n 8 with h8 | h8
      · have : 2 ^ n ≤ 2 ^ 8 := Nat.pow_le_pow_right (by omega) h8.le
        rw [Nat.div_eq_of_lt (by omega)]
        exact Nat.two_pow_pos _
      · rw [Nat.div_lt_iff_lt_mul (by norm_num), ← pow_add, Nat.sub_add_cancel h8]
        exact h
    obtain ⟨hval, hlen⟩ := ih hshift
    rw [flush, if_pos hn]
    refine ⟨?_, ?_⟩
    · rw [leVal_cons, hval, low_byte_add]
    · rw [List.length_cons, hlen]
      omega
  | case2 buf n hn =>
    obtain rfl : n = 0 := by omega
    obtain rfl : buf = 0 := by omega
    rw [flush]
    exact ⟨rfl, rfl⟩

/-- The value of the packed bytes, the accumulator included. -/
theorem packLoop_spec {bits : ℕ} {vs : List ℕ} {buf n : ℕ} (hvs : ∀ v ∈ vs, v < 2 ^ bits)
    (hbuf : buf < 2 ^ n) :
    leVal (packLoop bits vs buf n) = buf + 2 ^ n * Nat.ofDigits (2 ^ bits) vs ∧
      (packLoop bits vs buf n).length = (n + bits * vs.length + 7) / 8 := by
  induction vs generalizing buf n with
  | nil => simpa [packLoop] using flush_spec buf n hbuf
  | cons v vs ih =>
    have hv : v < 2 ^ bits := hvs v List.mem_cons_self
    have hor : buf ||| v <<< n = buf + v * 2 ^ n := or_shiftLeft_eq_add hbuf
    obtain ⟨hval, hlt, hn⟩ := drain_spec (buf ||| v <<< n) (n + bits)
    set bytes := drain (buf ||| v <<< n) (n + bits)
    set buf' := (drained (buf ||| v <<< n) (n + bits)).1
    set n' := (drained (buf ||| v <<< n) (n + bits)).2
    have hpow : (256 : ℕ) ^ bytes.length = 2 ^ (8 * bytes.length) := by
      rw [pow_mul]
      norm_num
    have hsum : buf + v * 2 ^ n < 2 ^ (n + bits) := by
      calc buf + v * 2 ^ n < 2 ^ n + v * 2 ^ n := by omega
        _ = (v + 1) * 2 ^ n := by ring
        _ ≤ 2 ^ bits * 2 ^ n := Nat.mul_le_mul_right _ hv
        _ = 2 ^ (n + bits) := by rw [pow_add, mul_comm]
    have hbuf' : buf' < 2 ^ n' := by
      have hle : 256 ^ bytes.length * buf' < 256 ^ bytes.length * 2 ^ n' := by
        calc 256 ^ bytes.length * buf' ≤ buf ||| v <<< n := by omega
          _ < 2 ^ (n + bits) := by rwa [hor]
          _ = 256 ^ bytes.length * 2 ^ n' := by rw [hn, hpow, pow_add]
      exact lt_of_mul_lt_mul_left' hle
    obtain ⟨ihval, ihlen⟩ := ih (fun w hw => hvs w (List.mem_cons_of_mem _ hw)) hbuf'
    refine ⟨?_, ?_⟩
    · rw [packLoop, leVal_append, ihval, Nat.ofDigits_cons]
      calc leVal bytes + 256 ^ bytes.length * (buf' + 2 ^ n' * Nat.ofDigits (2 ^ bits) vs)
          = leVal bytes + 256 ^ bytes.length * buf' +
              2 ^ (8 * bytes.length + n') * Nat.ofDigits (2 ^ bits) vs := by
            rw [pow_add, ← hpow]
            ring
        _ = buf + 2 ^ n * (v + 2 ^ bits * Nat.ofDigits (2 ^ bits) vs) := by
            rw [hval, ← hn, hor, pow_add]
            ring
        _ = _ := by simp
    · rw [packLoop, List.length_append, ihlen, List.length_cons]
      change bytes.length + _ = _
      rw [Nat.mul_succ]
      omega

theorem leVal_packBits {bits : ℕ} {vs : List ℕ} (hvs : ∀ v ∈ vs, v < 2 ^ bits) :
    leVal (packBits bits vs) = Nat.ofDigits (2 ^ bits) vs := by
  rw [packBits, (packLoop_spec hvs (by norm_num)).1]
  ring

theorem length_packBits {bits : ℕ} {vs : List ℕ} (hvs : ∀ v ∈ vs, v < 2 ^ bits) :
    (packBits bits vs).length = (bits * vs.length + 7) / 8 := by
  rw [packBits, (packLoop_spec hvs (by norm_num)).2, Nat.zero_add]

/-- Filling moves bytes of the input into the accumulator. -/
theorem fill_spec (bits : ℕ) (input : List UInt8) (buf n : ℕ) (hbuf : buf < 2 ^ n) :
    (fill bits input buf n).2.1 + 2 ^ (fill bits input buf n).2.2 * leVal (fill bits input buf n).1 =
        buf + 2 ^ n * leVal input ∧
      (fill bits input buf n).2.1 < 2 ^ (fill bits input buf n).2.2 ∧
      bits ≤ (fill bits input buf n).2.2 := by
  induction input, buf, n using fill.induct bits with
  | case1 input buf n h ih =>
    have hbyte := (input.headD 0).toNat_lt
    have hor : buf ||| (input.headD 0).toNat <<< n = buf + (input.headD 0).toNat * 2 ^ n :=
      or_shiftLeft_eq_add hbuf
    have hlt : buf ||| (input.headD 0).toNat <<< n < 2 ^ (n + 8) := by
      rw [hor, pow_add]
      calc buf + (input.headD 0).toNat * 2 ^ n < 2 ^ n + (input.headD 0).toNat * 2 ^ n := by omega
        _ = ((input.headD 0).toNat + 1) * 2 ^ n := by ring
        _ ≤ 2 ^ 8 * 2 ^ n := Nat.mul_le_mul_right _ (by omega)
        _ = 2 ^ n * 2 ^ 8 := by ring
    have hval : leVal input = (input.headD 0).toNat + 256 * leVal input.tail := by
      cases input with
      | nil => simp
      | cons b l => simp
    rw [fill, if_pos h]
    obtain ⟨ihval, ihrest⟩ := ih hlt
    refine ⟨?_, ihrest⟩
    rw [ihval, hor, hval, pow_add]
    ring
  | case2 input buf n h =>
    rw [fill, if_neg h]
    exact ⟨rfl, hbuf, Nat.le_of_not_lt h⟩

theorem unpackLoop_eq {bits : ℕ} (count : ℕ) (input : List UInt8) {buf n : ℕ} (hbuf : buf < 2 ^ n) :
    unpackLoop bits count input buf n =
      digitsOf (2 ^ bits) count (buf + 2 ^ n * leVal input) := by
  induction count generalizing input buf n with
  | zero => rfl
  | succ count ih =>
    obtain ⟨hval, hlt, hbits⟩ := fill_spec bits input buf n hbuf
    rw [unpackLoop]
    generalize fill bits input buf n = r at hval hlt hbits
    obtain ⟨input', buf', n'⟩ := r
    dsimp only at hval hlt hbits ⊢
    have hpow : (2 : ℕ) ^ n' = 2 ^ bits * 2 ^ (n' - bits) := by
      rw [← pow_add, Nat.add_sub_cancel' hbits]
    have hlt' : buf' >>> bits < 2 ^ (n' - bits) := by
      rw [Nat.shiftRight_eq_div_pow, Nat.div_lt_iff_lt_mul (Nat.two_pow_pos _), mul_comm, ← hpow]
      exact hlt
    rw [ih input' hlt', digitsOf, ← hval, hpow, mul_assoc, Nat.add_mul_mod_self_left,
      Nat.add_mul_div_left _ _ (Nat.two_pow_pos _), Nat.shiftRight_eq_div_pow, Nat.shiftLeft_eq,
      one_mul, Nat.and_two_pow_sub_one_eq_mod]

/-- Unpacking gives the packed numbers back, whatever follows them. -/
theorem unpackBits_packBits {bits : ℕ} {vs : List ℕ} (rest : List UInt8)
    (hvs : ∀ v ∈ vs, v < 2 ^ bits) :
    unpackBits bits vs.length (packBits bits vs ++ rest) = vs := by
  have hlen := length_packBits hvs
  -- the bytes that follow only show above the packed numbers
  have hpow : (256 : ℕ) ^ (packBits bits vs).length =
      (2 ^ bits) ^ vs.length * 2 ^ (8 * ((bits * vs.length + 7) / 8) - bits * vs.length) := by
    rw [hlen, ← pow_mul, ← pow_add, Nat.add_sub_cancel' (by omega), pow_mul]
    norm_num
  rw [unpackBits, unpackLoop_eq _ _ (by norm_num), leVal_append, leVal_packBits hvs, pow_zero,
    one_mul, Nat.zero_add, hpow, mul_assoc, digitsOf_ofDigits _ hvs]

/-! ## Groups of four -/

/-- Four numbers of `bits` bits in one word. -/
def groupWord (bits a b c d : ℕ) : ℕ :=
  a ||| b <<< bits ||| c <<< (2 * bits) ||| d <<< (3 * bits)

/-- Packs numbers of `bits` bits, each four of them into `bytes` bytes. -/
def packGroups (bits bytes : ℕ) : List ℕ → List UInt8
  | a :: b :: c :: d :: vs => leBytes bytes (groupWord bits a b c d) ++ packGroups bits bytes vs
  | _ => []

/-- Unpacks `groups` groups of four numbers. -/
def unpackGroups (bits bytes : ℕ) : ℕ → List UInt8 → List ℕ
  | 0, _ => []
  | groups + 1, input =>
    let v := leVal (input.take bytes)
    (v &&& (1 <<< bits - 1)) :: (v >>> bits &&& (1 <<< bits - 1)) ::
      (v >>> (2 * bits) &&& (1 <<< bits - 1)) :: (v >>> (3 * bits) &&& (1 <<< bits - 1)) ::
        unpackGroups bits bytes groups (input.drop bytes)

theorem groupWord_eq {bits a b c d : ℕ} (ha : a < 2 ^ bits) (hb : b < 2 ^ bits)
    (hc : c < 2 ^ bits) :
    groupWord bits a b c d = Nat.ofDigits (2 ^ bits) [a, b, c, d] := by
  have h2 : a + b * 2 ^ bits < 2 ^ (2 * bits) := by
    calc a + b * 2 ^ bits < (b + 1) * 2 ^ bits := by linarith
      _ ≤ 2 ^ bits * 2 ^ bits := Nat.mul_le_mul_right _ hb
      _ = 2 ^ (2 * bits) := by rw [two_mul, pow_add]
  have h3 : a + b * 2 ^ bits + c * 2 ^ (2 * bits) < 2 ^ (3 * bits) := by
    calc a + b * 2 ^ bits + c * 2 ^ (2 * bits) < (c + 1) * 2 ^ (2 * bits) := by linarith
      _ ≤ 2 ^ bits * 2 ^ (2 * bits) := Nat.mul_le_mul_right _ hc
      _ = 2 ^ (3 * bits) := by rw [← pow_add]; congr 1; ring
  rw [groupWord, or_shiftLeft_eq_add ha, or_shiftLeft_eq_add h2, or_shiftLeft_eq_add h3]
  simp only [Nat.ofDigits_cons, Nat.ofDigits_nil]
  rw [show 3 * bits = bits + bits + bits by ring, two_mul, pow_add, pow_add]
  ring

theorem exists_four {vs : List ℕ} {groups : ℕ} (h : vs.length = 4 * (groups + 1)) :
    ∃ a b c d vs', vs = a :: b :: c :: d :: vs' ∧ vs'.length = 4 * groups := by
  match vs, h with
  | [], h => simp at h
  | [_], h => simp at h; omega
  | [_, _], h => simp at h; omega
  | [_, _, _], h => simp at h; omega
  | a :: b :: c :: d :: vs, h =>
    simp only [List.length_cons] at h
    exact ⟨a, b, c, d, vs, rfl, by omega⟩

theorem length_packGroups {bits bytes groups : ℕ} {vs : List ℕ} (hlen : vs.length = 4 * groups) :
    (packGroups bits bytes vs).length = bytes * groups := by
  induction groups generalizing vs with
  | zero =>
    obtain rfl : vs = [] := List.length_eq_zero_iff.mp hlen
    rfl
  | succ groups ih =>
    obtain ⟨a, b, c, d, vs, rfl, hvs'⟩ := exists_four hlen
    rw [packGroups, List.length_append, length_leBytes, ih hvs', Nat.mul_succ, Nat.add_comm]

/-- The four numbers of a group are the digits of its word. -/
theorem unpackGroups_succ (bits bytes groups : ℕ) (input : List UInt8) :
    unpackGroups bits bytes (groups + 1) input =
      digitsOf (2 ^ bits) 4 (leVal (input.take bytes)) ++
        unpackGroups bits bytes groups (input.drop bytes) := by
  have hpow2 : (2 : ℕ) ^ (2 * bits) = 2 ^ bits * 2 ^ bits := by rw [two_mul, pow_add]
  have hpow3 : (2 : ℕ) ^ (3 * bits) = 2 ^ bits * 2 ^ bits * 2 ^ bits := by
    rw [← pow_add, ← pow_add]
    congr 1
    ring
  simp only [unpackGroups, digitsOf, Nat.shiftRight_eq_div_pow, Nat.shiftLeft_eq, one_mul,
    Nat.and_two_pow_sub_one_eq_mod, Nat.div_div_eq_div_mul, hpow2, hpow3, List.cons_append,
    List.nil_append]

/-- Unpacking gives the packed numbers back, whatever follows them. -/
theorem unpackGroups_packGroups {bits bytes groups : ℕ} {vs : List ℕ} (rest : List UInt8)
    (hlen : vs.length = 4 * groups) (hvs : ∀ v ∈ vs, v < 2 ^ bits) (hbits : 0 < bits)
    (hbytes : 4 * bits ≤ 8 * bytes) :
    unpackGroups bits bytes groups (packGroups bits bytes vs ++ rest) = vs := by
  induction groups generalizing vs with
  | zero =>
    obtain rfl : vs = [] := List.length_eq_zero_iff.mp hlen
    rfl
  | succ groups ih =>
    obtain ⟨a, b, c, d, vs, rfl, hvs'⟩ := exists_four hlen
    have hfour : ∀ v ∈ [a, b, c, d], v < 2 ^ bits := fun v hv => hvs v (by simp at hv ⊢; tauto)
    have hword : groupWord bits a b c d = Nat.ofDigits (2 ^ bits) [a, b, c, d] :=
      groupWord_eq (hfour a (by simp)) (hfour b (by simp)) (hfour c (by simp))
    have hlt : groupWord bits a b c d < 256 ^ bytes := by
      calc groupWord bits a b c d < (2 ^ bits) ^ 4 := by
            rw [hword]
            exact Nat.ofDigits_lt_base_pow_length (Nat.one_lt_two_pow hbits.ne') hfour
        _ = 2 ^ (4 * bits) := by rw [← pow_mul, mul_comm]
        _ ≤ 2 ^ (8 * bytes) := Nat.pow_le_pow_right (by norm_num) hbytes
        _ = 256 ^ bytes := by rw [pow_mul]; norm_num
    have htake : (packGroups bits bytes (a :: b :: c :: d :: vs) ++ rest).take bytes =
        leBytes bytes (groupWord bits a b c d) := by
      rw [packGroups, List.append_assoc, List.take_left' (length_leBytes _ _)]
    have hdrop : (packGroups bits bytes (a :: b :: c :: d :: vs) ++ rest).drop bytes =
        packGroups bits bytes vs ++ rest := by
      rw [packGroups, List.append_assoc, List.drop_left' (length_leBytes _ _)]
    have hdigits := digitsOf_ofDigits 0 hfour
    rw [mul_zero, add_zero] at hdigits
    rw [unpackGroups_succ, htake, hdrop, leVal_leBytes, Nat.mod_eq_of_lt hlt, hword,
      ih hvs' fun v hv => hvs v (by simp [hv])]
    exact congrArg (· ++ vs) hdigits

/-! ## Single bits -/

/-- A bit of a byte of a string is a bit of its value. -/
theorem getD_shiftRight_and_one (l : List UInt8) (j : ℕ) :
    (l.getD (j / 8) 0).toNat >>> (j % 8) &&& 1 = leVal l / 2 ^ j % 2 := by
  induction l generalizing j with
  | nil => simp
  | cons b l ih =>
    rw [leVal_cons]
    rcases Nat.lt_or_ge j 8 with hj | hj
    · have hpow : (256 : ℕ) = 2 ^ j * (2 * 2 ^ (7 - j)) := by
        rw [← pow_succ', ← pow_add, show j + (7 - j + 1) = 8 by omega]
        norm_num
      rw [Nat.div_eq_of_lt hj, Nat.mod_eq_of_lt hj, List.getD_cons_zero, hpow, mul_assoc,
        Nat.add_mul_div_left _ _ (Nat.two_pow_pos j), mul_assoc, Nat.add_mul_mod_self_left,
        Nat.shiftRight_eq_div_pow, Nat.and_one_is_mod]
    · obtain ⟨i, rfl⟩ : ∃ i, j = i + 8 := ⟨j - 8, by omega⟩
      have hb := b.toNat_lt
      rw [Nat.add_div_right _ (by norm_num), Nat.add_mod_right, List.getD_cons_succ, ih, pow_add,
        mul_comm (2 ^ i), ← Nat.div_div_eq_div_mul]
      congr 2
      omega

/-- A digit of a number that was put together from digits. -/
theorem ofDigits_div_pow_mod {b : ℕ} {l : List ℕ} (hl : ∀ d ∈ l, d < b) {i : ℕ} (hi : i < l.length) :
    Nat.ofDigits b l / b ^ i % b = l[i] := by
  induction l generalizing i with
  | nil => simp at hi
  | cons d l ih =>
    have hd : d < b := hl d List.mem_cons_self
    rw [Nat.ofDigits_cons]
    cases i with
    | zero => simp [Nat.mod_eq_of_lt hd]
    | succ i =>
      rw [pow_succ', ← Nat.div_div_eq_div_mul, Nat.add_mul_div_left _ _ (by omega),
        Nat.div_eq_of_lt hd, Nat.zero_add, ih (fun e he => hl e (List.mem_cons_of_mem _ he))]
      rfl

/-! ## Blocks of one length -/

section

variable {α : Type*} {f : ℕ → List α} {len k : ℕ}

theorem length_flatMap_range (hf : ∀ i < k, (f i).length = len) :
    ((List.range k).flatMap f).length = k * len := by
  rw [length_flatMap_of_length fun i hi => hf i (List.mem_range.mp hi), List.length_range]

/-- Block `i` and what follows it, behind `n` other entries. -/
theorem drop_blocks (hf : ∀ i < k, (f i).length = len) {i n : ℕ} (hi : i < k) {pre : List α}
    (hpre : pre.length = n) (post : List α) :
    ∃ rest, (pre ++ ((List.range k).flatMap f ++ post)).drop (n + i * len) = f i ++ rest := by
  have hrange : i < (List.range k).length := by rwa [List.length_range]
  obtain ⟨rest, hrest⟩ := drop_flatMap (fun j hj => hf j (List.mem_range.mp hj)) hrange post
  rw [List.getElem_range] at hrest
  exact ⟨rest, by rw [← List.drop_drop, List.drop_left' hpre, hrest]⟩

end

end Lib.BitStream
