import SneppxAlg.Lib.Bytes

/-!
# `chacha20.c`

The ChaCha20 block function and the in-place stream cipher on top of it. `encrypt` advances
the block counter of its state modulo `2 ^ 32`; since encryption and decryption start from the
same state, wrapping changes nothing for them and the cipher is its own inverse
(`encrypt_encrypt`).
-/

namespace SneppxAlg.ChaCha20

open Lib.Bytes

/-- `SNEPPXChaCha20State`. -/
abbrev State := Vector UInt32 16

/-- `ROTL32`. -/
def rotl32 (x n : UInt32) : UInt32 := (x <<< n) ||| (x >>> (32 - n))

/-- A position in a state. -/
theorem lt_sixteen (i : Fin 16) : i.val < 16 := i.isLt

/-- `qr` on the words at four positions. -/
def qr (x : State) (a b c d : Fin 16) : State :=
  let x := x.set a (x.get a + x.get b) (lt_sixteen a)
  let x := x.set d (rotl32 (x.get d ^^^ x.get a) 16) (lt_sixteen d)
  let x := x.set c (x.get c + x.get d) (lt_sixteen c)
  let x := x.set b (rotl32 (x.get b ^^^ x.get c) 12) (lt_sixteen b)
  let x := x.set a (x.get a + x.get b) (lt_sixteen a)
  let x := x.set d (rotl32 (x.get d ^^^ x.get a) 8) (lt_sixteen d)
  let x := x.set c (x.get c + x.get d) (lt_sixteen c)
  x.set b (rotl32 (x.get b ^^^ x.get c) 7) (lt_sixteen b)

/-- A little-endian 32-bit word. -/
def word32 (b0 b1 b2 b3 : UInt8) : UInt32 :=
  b0.toUInt32 ||| b1.toUInt32 <<< 8 ||| b2.toUInt32 <<< 16 ||| b3.toUInt32 <<< 24

local instance neZero_keyLength : NeZero 32 := ⟨by decide⟩

/-- `SNEPPX_chacha20_init`. -/
def init (key : Vector UInt8 32) (nonce : Vector UInt8 12) (counter : UInt32) : State :=
  #v[1634760805, 857760878, 2036477234, 1797285236,
     word32 (key.get 0) (key.get 1) (key.get 2) (key.get 3),
     word32 (key.get 4) (key.get 5) (key.get 6) (key.get 7),
     word32 (key.get 8) (key.get 9) (key.get 10) (key.get 11),
     word32 (key.get 12) (key.get 13) (key.get 14) (key.get 15),
     word32 (key.get 16) (key.get 17) (key.get 18) (key.get 19),
     word32 (key.get 20) (key.get 21) (key.get 22) (key.get 23),
     word32 (key.get 24) (key.get 25) (key.get 26) (key.get 27),
     word32 (key.get 28) (key.get 29) (key.get 30) (key.get 31),
     counter, word32 nonce[0] nonce[1] nonce[2] nonce[3],
     word32 nonce[4] nonce[5] nonce[6] nonce[7], word32 nonce[8] nonce[9] nonce[10] nonce[11]]

local instance neZero_sixteen : NeZero 16 := ⟨by decide⟩

/-- Four column rounds, then four diagonal ones. -/
def doubleRound (x : State) : State :=
  let x := qr (qr (qr (qr x 0 4 8 12) 1 5 9 13) 2 6 10 14) 3 7 11 15
  qr (qr (qr (qr x 0 5 10 15) 1 6 11 12) 2 7 8 13) 3 4 9 14

/-- The key stream block of `SNEPPX_chacha20_block`. -/
def blockBytes (s : State) : Vector UInt8 64 :=
  let x := doubleRound^[10] s
  Vector.ofFn fun k =>
    let i : Fin 16 := ⟨k.val / 4, by omega⟩
    ((x[i] + s[i]) >>> (8 * (k.val % 4)).toUInt32).toUInt8

theorem twelve_lt_sixteen : 12 < 16 := by decide

/-- `SNEPPX_chacha20_block`: the key stream block, and the state with its counter advanced. -/
def block (s : State) : State × Vector UInt8 64 :=
  (s.set 12 (s.get 12 + 1) twelve_lt_sixteen, blockBytes s)

/-- `SNEPPX_chacha20_encrypt` on the bytes at `data`. -/
def encrypt (s : State) (data : List UInt8) : List UInt8 :=
  if hd : data = [] then []
  else
    xorBytes (data.take 64) (block s).2.toList ++ encrypt (block s).1 (data.drop 64)
termination_by data.length
decreasing_by
  have hpos : 0 < data.length := List.length_pos_iff.mpr hd
  simp only [List.length_drop]
  omega

theorem length_take_le (s : State) (data : List UInt8) :
    (data.take 64).length ≤ (block s).2.toList.length := by
  simp

@[simp] theorem length_encrypt (s : State) (data : List UInt8) :
    (encrypt s data).length = data.length := by
  induction hn : data.length using Nat.strong_induction_on generalizing s data with
  | _ n ih =>
    rw [encrypt]
    split
    case isTrue h => simp [h] at hn; simpa using hn
    case isFalse h =>
      have hpos : 0 < data.length := List.length_pos_iff.mpr h
      rw [List.length_append, length_xorBytes (length_take_le s data),
        ih (data.drop 64).length (by simp only [List.length_drop]; omega) _ _ rfl]
      simp only [List.length_take, List.length_drop]
      omega

/-- One round of the loop cuts both strings at the same place. -/
theorem encrypt_append {s : State} {a b : List UInt8} (ha : a ≠ [])
    (hlen : a.length = 64 ∨ a.length ≤ 64 ∧ b = []) :
    encrypt s (a ++ b) = xorBytes a (block s).2.toList ++ encrypt (block s).1 b := by
  have htake : (a ++ b).take 64 = a := by
    rcases hlen with h | ⟨h, rfl⟩
    · rw [← h, List.take_left']
      rfl
    · rw [List.append_nil, List.take_of_length_le h]
  have hdrop : (a ++ b).drop 64 = b := by
    rcases hlen with h | ⟨h, rfl⟩
    · rw [← h, List.drop_left']
      rfl
    · rw [List.append_nil, List.drop_of_length_le h]
  rw [encrypt, dif_neg (by simp [ha]), htake, hdrop]

/-- **The cipher is its own inverse.** -/
theorem encrypt_encrypt (s : State) (data : List UInt8) : encrypt s (encrypt s data) = data := by
  induction hn : data.length using Nat.strong_induction_on generalizing s data with
  | _ n ih =>
    by_cases h : data = []
    · simp [h, encrypt]
    · have hpos : 0 < data.length := List.length_pos_iff.mpr h
      have hstream := length_take_le s data
      have hlen := length_xorBytes hstream
      simp only [List.length_take] at hlen
      have hstep : encrypt s data =
          xorBytes (data.take 64) (block s).2.toList ++ encrypt (block s).1 (data.drop 64) := by
        rw [encrypt, dif_neg h]
      have hne : xorBytes (data.take 64) (block s).2.toList ≠ [] := fun h0 => by
        rw [h0] at hlen
        simp at hlen
        omega
      rw [hstep, encrypt_append hne, xorBytes_xorBytes hstream,
        ih _ (by simp only [List.length_drop]; omega) _ _ rfl, List.take_append_drop]
      by_cases h64 : 64 ≤ data.length
      · left
        omega
      · right
        refine ⟨by omega, ?_⟩
        rw [List.drop_of_length_le (by omega)]
        simp [encrypt]

end SneppxAlg.ChaCha20
