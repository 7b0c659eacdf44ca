import SneppxAlg.Crypto.Sha512

/-!
# `sha3.c`: SHA-3

The state is a vector of words, whose bytes are the lowest first; the buffer is the list of the bytes in it. Words are
rotated by shifts modulo 64, so that a rotation by 0 gives the word itself.

Xoring a block into the state byte by byte is xoring words read from the block (`xorBytes_eq`). So an update in pieces
absorbs the blocks of the message (`update_eq_feed`), and the padding of `SNEPPX_sha3_finish` completes the last one.
-/

namespace SneppxAlg.Sha3

open Lib.Bytes Lib.BlockStream

/-! ## The permutation -/

/-- `ROTL64`. -/
def rotl64 (x n : UInt64) : UInt64 := x <<< n ||| x >>> (64 - n)

/-- `RC`. -/
def rc : List UInt64 :=
  [
    0x0000000000000001, 0x0000000000008082, 0x800000000000808a,
    0x8000000080008000, 0x000000000000808b, 0x0000000080000001,
    0x8000000080008081, 0x8000000000008009, 0x000000000000008a,
    0x0000000000000088, 0x0000000080008009, 0x000000008000000a,
    0x000000008000808b, 0x800000000000008b, 0x8000000000008089,
    0x8000000000008003, 0x8000000000008002, 0x8000000000000080,
    0x000000000000800a, 0x800000008000000a, 0x8000000080008081,
    0x8000000000008080, 0x0000000080000001, 0x8000000080008008]

/-- `rho`. -/
def rho : Vector (Vector UInt64 5) 5 :=
  #v[#v[0, 36, 3, 41, 18], #v[1, 44, 10, 45, 2], #v[62, 6, 43, 15, 61], #v[28, 55, 25, 21, 56], #v[27, 20, 39, 8, 14]]

/-- The words of a state. -/
abbrev Lanes : Type := Vector UInt64 25

/-- A round of `keccak_f1600`. -/
def keccakRound (s : Lanes) (rc : UInt64) : Lanes :=
  let cs := Vector.ofFn fun i : Fin 5 =>
    s[i.val] ^^^ s[i.val + 5] ^^^ s[i.val + 10] ^^^ s[i.val + 15] ^^^ s[i.val + 20]
  let ds := Vector.ofFn fun i : Fin 5 => cs[(i.val + 4) % 5] ^^^ rotl64 cs[(i.val + 1) % 5] 1
  let s := Vector.ofFn fun i : Fin 25 => s[i] ^^^ ds[i.val % 5]
  let bs := (List.finRange 5).foldl (fun bs y => (List.finRange 5).foldl (fun bs x =>
    bs.set (y.val + 5 * ((2 * x.val + 3 * y.val) % 5)) (rotl64 s[x.val + 5 * y.val] ((rho.get x).get y))) bs)
    (Vector.replicate 25 (0 : UInt64))
  let s := Vector.ofFn fun i : Fin 25 =>
    bs[i] ^^^ (~~~bs[(i.val + 1) % 5 + 5 * (i.val / 5)] &&& bs[(i.val + 2) % 5 + 5 * (i.val / 5)])
  s.set 0 (s[0] ^^^ rc)

/-- `keccak_f1600`. -/
def keccakF1600 (s : Lanes) : Lanes := rc.foldl keccakRound s

/-! ## Absorbing -/

/-- Byte `i` of a state is xored with `b`. -/
def xorByte (s : Lanes) (i : ℕ) (b : UInt8) : Lanes :=
  if h : i / 8 < 25 then s.set (i / 8) (s[i / 8] ^^^ b.toUInt64 <<< UInt64.ofNat (8 * (i % 8))) else s

/-- The first bytes of a state are xored with `data`. -/
def xorBytes (s : Lanes) (data : List UInt8) : Lanes :=
  data.zipIdx.foldl (fun s p => xorByte s p.2 p.1) s

/-- `sha3_absorb`. -/
def absorb (rate : ℕ) (s : Lanes) (data : List UInt8) : Lanes :=
  if _h : 0 < rate ∧ 0 < data.length then
    let take := if data.length < rate then data.length else rate
    let s := xorBytes s (data.take take)
    absorb rate (if take = rate then keccakF1600 s else s) (data.drop take)
  else s
termination_by data.length
decreasing_by
  rw [List.length_drop]
  split <;> omega

/-- `SNEPPXSHA3State`. -/
structure State where
  state : Lanes
  rate : ℕ
  digestSize : ℕ
  buffer : List UInt8
  buflen_lt : buffer.length < rate

/-- `SNEPPX_sha3_update`, with an empty buffer. -/
def updateWhole (s : State) (state : Lanes) (data : List UInt8) : State :=
  if hle : s.rate ≤ data.length then
    let aligned := data.length - data.length % s.rate
    { state := absorb s.rate state (data.take aligned)
      rate := s.rate
      digestSize := s.digestSize
      buffer := data.drop aligned
      buflen_lt := by
        have hlt := Nat.mod_lt data.length (Nat.zero_lt_of_lt s.buflen_lt)
        have hmod := Nat.mod_le data.length s.rate
        simp only [aligned, List.length_drop]
        omega }
  else ⟨state, s.rate, s.digestSize, data, not_le.mp hle⟩

/-- `SNEPPX_sha3_update`. -/
def update (s : State) (data : List UInt8) : State :=
  let fill := s.rate - s.buffer.length
  if s.buffer.length ≠ 0 then
    if hlt : data.length < fill then
      ⟨s.state, s.rate, s.digestSize, s.buffer ++ data, by
        have := s.buflen_lt
        simp only [fill] at hlt
        rw [List.length_append]
        omega⟩
    else updateWhole s (absorb s.rate s.state (s.buffer ++ data.take fill)) (data.drop fill)
  else updateWhole s s.state data

/-- `buf`, as `SNEPPX_sha3_finish` fills it. -/
def padding (s : State) : List UInt8 :=
  let buf := s.buffer ++ 0x06 :: List.replicate (s.rate - s.buffer.length - 1) 0
  buf.modify (s.rate - 1) (· ||| 0x80)

/-- The first bytes of a state. -/
def digestOf (size : ℕ) (s : Lanes) : List UInt8 := (s.toList.flatMap wordBytes).take size

/-- `SNEPPX_sha3_finish`. -/
def finish (s : State) : List UInt8 := digestOf s.digestSize (keccakF1600 (xorBytes s.state (padding s)))

/-- The two bits of the padding for hashes, and then a one, zeros and a one: in bytes, for a message whose last block
lacks `q` bytes. -/
def padTail (q : ℕ) : List UInt8 := if q = 1 then [0x86] else 0x06 :: (List.replicate (q - 2) 0 ++ [0x80])

def padded (rate : ℕ) (m : List UInt8) : List UInt8 := m ++ padTail (rate - m.length % rate)

/-- Word `i` of a block, `0` behind it. -/
def lane (block : List UInt8) (i : ℕ) : UInt64 := UInt64.ofNat (leVal ((block.drop (8 * i)).take 8))

/-- A block is xored into the state, which is then permuted. -/
def absorbBlock (s : Lanes) (block : List UInt8) : Lanes :=
  keccakF1600 (Vector.ofFn fun i : Fin 25 => s[i] ^^^ lane block i.val)

/-- The sponge. -/
def spec (rate size : ℕ) (m : List UInt8) : List UInt8 :=
  digestOf size ((blocks rate (padded rate m)).foldl absorbBlock (Vector.replicate 25 0))

/-! ## Xoring a block -/

/-- A byte more is xored into the word that it belongs to. -/
theorem lane_concat (p : List UInt8) (b : UInt8) (i : ℕ) :
    lane (p ++ [b]) i =
      if p.length / 8 = i then lane p i ^^^ b.toUInt64 <<< UInt64.ofNat (8 * (p.length % 8)) else lane p i := by
  split_ifs with hi
  · have hlen : (p.drop (8 * i)).length = p.length % 8 := by
      rw [List.length_drop]
      omega
    have hle : 8 * i ≤ p.length := by omega
    have hmod : p.length % 8 < 8 := Nat.mod_lt _ (by decide)
    have hshift : (UInt64.ofNat (8 * (p.length % 8))).toNat = 8 * (p.length % 8) :=
      UInt64.toNat_ofNat_of_lt' (lt_of_lt_of_le (show 8 * (p.length % 8) < 64 by omega) (by decide))
    have hval : leVal (p.drop (8 * i)) < 2 ^ (8 * (p.length % 8)) := by
      have h := leVal_lt (p.drop (8 * i))
      rwa [hlen, show 256 = 2 ^ 8 from rfl, ← pow_mul] at h
    have hpow : 2 ^ (8 * (p.length % 8)) ≤ 2 ^ 56 := Nat.pow_le_pow_right (by decide) (by omega)
    have hb := b.toNat_lt
    apply UInt64.toNat_inj.mp
    rw [lane, lane, List.drop_append_of_le_length hle, List.take_of_length_le (by rw [List.length_append]; simp; omega),
      List.take_of_length_le (by omega), UInt64.toNat_xor, toNat_byte_shiftLeft b (by omega), hshift,
      UInt64.toNat_ofNat_of_lt' (hval.trans_le (hpow.trans (by decide))), xor_shiftLeft_eq_add hval, leVal_append, hlen,
      leVal_cons, leVal_nil, show 256 = 2 ^ 8 from rfl, ← pow_mul, Nat.mul_zero, Nat.add_zero, Nat.mul_comm (2 ^ _)]
    apply UInt64.toNat_ofNat_of_lt'
    calc leVal (p.drop (8 * i)) + b.toNat * 2 ^ (8 * (p.length % 8))
        < 2 ^ (8 * (p.length % 8)) + b.toNat * 2 ^ (8 * (p.length % 8)) := Nat.add_lt_add_right hval _
      _ = (b.toNat + 1) * 2 ^ (8 * (p.length % 8)) := by ring
      _ ≤ 2 ^ 8 * 2 ^ 56 := Nat.mul_le_mul hb hpow
      _ = UInt64.size := rfl
  · rw [lane, lane]
    rcases Nat.lt_or_ge p.length (8 * i) with hlt | hle
    · rw [List.drop_of_length_le (by simp; omega), List.drop_of_length_le hlt.le]
    · rw [List.drop_append_of_le_length hle, List.take_append_of_le_length (by rw [List.length_drop]; omega)]

theorem xorBytes_concat (s : Lanes) (p : List UInt8) (b : UInt8) :
    xorBytes s (p ++ [b]) = xorByte (xorBytes s p) p.length b := by
  rw [xorBytes, List.zipIdx_append, List.foldl_append, Nat.zero_add]
  rfl

theorem getElem_xorBytes (s : Lanes) (p : List UInt8) (i : Fin 25) :
    (xorBytes s p)[i] = s[i] ^^^ lane p i.val := by
  induction p using List.reverseRecOn with
  | nil => simp [xorBytes, lane]
  | append_singleton p b ih =>
    rw [xorBytes_concat, xorByte, lane_concat]
    by_cases hi : p.length / 8 = i.val
    · rw [dif_pos (hi ▸ i.isLt), if_pos hi, ← UInt64.xor_assoc, ← ih, Fin.getElem_fin, Fin.getElem_fin]
      simp only [hi]
      exact Vector.getElem_set_self _
    · rw [if_neg hi, ← ih]
      split_ifs
      · exact Vector.getElem_set_ne _ _ hi
      · rfl

theorem xorBytes_eq (s : Lanes) (p : List UInt8) :
    keccakF1600 (xorBytes s p) = absorbBlock s p := by
  refine congrArg keccakF1600 (Vector.ext fun i hi => ?_)
  rw [Vector.getElem_ofFn]
  exact getElem_xorBytes s p ⟨i, hi⟩

/-! ## Feeding -/

theorem absorb_eq_run {rate : ℕ} (hrate : 0 < rate) (s : Lanes) (data : List UInt8) :
    absorb rate s (data.take (data.length - data.length % rate)) = (run absorbBlock rate s data).1 := by
  induction hn : data.length using Nat.strong_induction_on generalizing s data with
  | _ n ih =>
    rcases Nat.lt_or_ge n rate with hlt | hle
    · rw [run_of_lt (by omega), Nat.mod_eq_of_lt hlt, Nat.sub_self, List.take_zero, absorb, dif_neg (by simp)]
    · have hmod : n % rate = (n - rate) % rate := Nat.mod_eq_sub_mod hle
      have hmodle : (n - rate) % rate ≤ n - rate := Nat.mod_le _ _
      have hlen : (data.take (n - n % rate)).length = n - n % rate := by
        rw [List.length_take]
        omega
      have htake : (data.take (n - n % rate)).take rate = data.take rate := by
        rw [List.take_take, Nat.min_eq_left (by omega)]
      have hdrop : (data.take (n - n % rate)).drop rate =
          (data.drop rate).take (n - rate - (n - rate) % rate) := by
        rw [List.drop_take, hmod]
        congr 1
        omega
      have hsize : (if n - n % rate < rate then n - n % rate else rate) = rate := if_neg (by omega)
      rw [absorb, dif_pos ⟨hrate, by omega⟩]
      simp only [hlen, hsize, if_true]
      rw [htake, hdrop, xorBytes_eq, run_of_le hrate (by omega)]
      have h := ih (n - rate) (by omega) (absorbBlock s (data.take rate)) (data.drop rate)
        (by rw [List.length_drop, hn])
      exact h

theorem absorb_block {rate : ℕ} (hrate : 0 < rate) (s : Lanes) {b : List UInt8} (hb : b.length = rate) :
    absorb rate s b = absorbBlock s b := by
  have h := absorb_eq_run hrate s b
  rw [hb, Nat.mod_self, Nat.sub_zero, ← hb, List.take_length, hb, run_of_le hrate hb.ge, ← hb, List.take_length,
    List.drop_length, hb, run_of_lt hrate] at h
  exact h

theorem updateWhole_eq_run (s : State) (state : Lanes) (data : List UInt8) :
    ((updateWhole s state data).state, (updateWhole s state data).buffer) = run absorbBlock s.rate state data := by
  have hrate := Nat.zero_lt_of_lt s.buflen_lt
  rw [updateWhole]
  split_ifs with hle
  · have hsub : data.length - data.length % s.rate = data.length / s.rate * s.rate := by
      have h := Nat.div_add_mod' data.length s.rate
      omega
    apply Prod.ext
    · exact absorb_eq_run hrate state data
    · rw [run_snd]
      exact congrArg data.drop hsub
  · exact (run_of_lt (not_le.mp hle)).symm

theorem update_eq_feed (s : State) (data : List UInt8) :
    ((update s data).state, (update s data).buffer) = feed absorbBlock s.rate (s.state, s.buffer) data := by
  have hlt := s.buflen_lt
  rw [update]
  split_ifs with hbuf hfill
  · exact (feed_of_lt (s := (s.state, s.buffer)) hlt hfill).symm
  · rw [updateWhole_eq_run, feed_of_le (s := (s.state, s.buffer)) hlt (not_lt.mp hfill),
      absorb_block (Nat.zero_lt_of_lt hlt)]
    rw [List.length_append, List.length_take]
    omega
  · rw [not_not, List.length_eq_zero_iff] at hbuf
    rw [updateWhole_eq_run, hbuf]
    rfl

theorem update_rate (s : State) (data : List UInt8) : (update s data).rate = s.rate := by
  rw [update]
  split_ifs
  · rfl
  · rw [updateWhole]
    split_ifs <;> rfl
  · rw [updateWhole]
    split_ifs <;> rfl

theorem foldl_update (s : State) (pieces : List (List UInt8)) :
    ((pieces.foldl update s).state, (pieces.foldl update s).buffer) =
      feed absorbBlock s.rate (s.state, s.buffer) pieces.flatten := by
  rw [← foldl_feed s.buflen_lt]
  induction pieces generalizing s with
  | nil => rfl
  | cons d pieces ih => rw [List.foldl_cons, List.foldl_cons, ih, update_eq_feed, update_rate]

theorem modify_concat {α : Type*} (f : α → α) (l : List α) (x : α) : (l ++ [x]).modify l.length f = l ++ [f x] := by
  induction l with
  | nil => rfl
  | cons y l ih => rw [List.cons_append, List.length_cons, List.modify_succ_cons, ih, List.cons_append]

/-- The last byte of the block is marked. -/
theorem padding_eq (s : State) : padding s = s.buffer ++ padTail (s.rate - s.buffer.length) := by
  have hlt := s.buflen_lt
  simp only [padding, padTail]
  split_ifs with hq
  · rw [hq, show s.rate - 1 = s.buffer.length by omega]
    exact modify_concat _ _ _
  · obtain ⟨q, hq⟩ : ∃ q, s.rate - s.buffer.length = q + 2 := ⟨s.rate - s.buffer.length - 2, by omega⟩
    have hzeros : s.buffer ++ 0x06 :: List.replicate (q + 1) 0 = (s.buffer ++ 0x06 :: List.replicate q 0) ++ [0] := by
      rw [List.replicate_succ', List.append_assoc, List.cons_append]
    have hlast : s.rate - 1 = (s.buffer ++ 0x06 :: List.replicate q 0).length := by
      rw [List.length_append, List.length_cons, List.length_replicate]
      omega
    rw [hq, Nat.add_sub_cancel, show q + 2 - 1 = q + 1 from rfl, hzeros, hlast, modify_concat, List.append_assoc]
    rfl

end SneppxAlg.Sha3
