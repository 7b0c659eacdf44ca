import SneppxAlg.Crypto.Poly1305Limbs

/-!
# Poly1305 on streams

`update` fills the block buffer in pieces whose sizes depend on how the message was cut. Byte by
byte the effect is always the same, so `update` is a fold of `push` and the cuts do not matter
(`foldl_update`).

`Holds` is the invariant of that fold: after a message `m`, the accumulator is the polynomial
of `m`'s full blocks modulo `p` and the buffer holds the bytes after them. It also keeps a lower
bound: once a block went in under a nonzero key, the accumulator is at least 5, because carries
never take it back to the residues below 5.
-/

namespace SneppxAlg.Poly1305

open Lib.Bytes

/-! ## One byte at a time -/

/-- The effect of one byte on the stream. -/
def push (s : State) (b : UInt8) : State :=
  let buf := s.buf.set s.buflen.val b
  if hb : s.buflen.val + 1 = 16 then drain s buf
  else { s with buf := buf, buflen := ⟨s.buflen.val + 1, by omega⟩ }

theorem drain_congr (s : State) (b buf : Vector UInt8 16) (n : Fin 16) :
    drain { s with buf := b, buflen := n } buf = drain s buf := rfl

theorem blit_nil (buf : Vector UInt8 16) (off : Nat) : blit buf off [] = buf := by
  apply Vector.ext
  intro i hi
  simp [blit]

theorem blit_cons (buf : Vector UInt8 16) {off : Nat} (hoff : off < 16) (b : UInt8)
    (l : List UInt8) : blit buf off (b :: l) = blit (buf.set off b) (off + 1) l := by
  apply Vector.ext
  intro i hi
  simp only [blit, Vector.getElem_ofFn, Fin.getElem_fin, Vector.getElem_set]
  rcases Nat.lt_trichotomy i off with hlt | heq | hgt
  · simp [show ¬ off ≤ i by omega, show ¬ off + 1 ≤ i by omega, show off ≠ i by omega]
  · subst heq
    simp
  · obtain ⟨j, rfl⟩ : ∃ j, i = off + 1 + j := ⟨i - off - 1, by omega⟩
    simp [show off + 1 + j - off = j + 1 by omega, show off ≤ off + 1 + j by omega,
      show off ≠ off + 1 + j by omega]

/-- One round of `update`'s loop, pushed byte by byte. -/
theorem foldl_push (s : State) (l : List UInt8) (hl : l ≠ []) (hlen : s.buflen.val + l.length ≤ 16) :
    l.foldl push s =
      let buf := blit s.buf s.buflen.val l
      if hb : s.buflen.val + l.length = 16 then drain s buf
      else { s with buf := buf, buflen := ⟨s.buflen.val + l.length, by omega⟩ } := by
  induction l generalizing s with
  | nil => exact absurd rfl hl
  | cons b l ih =>
    have hoff := s.buflen.isLt
    rw [List.foldl_cons, blit_cons _ hoff]
    rcases l with _ | ⟨c, l⟩
    · simp [push, blit_nil]
    · simp only [List.length_cons] at hlen ⊢
      have hpush : push s b =
          { s with buf := s.buf.set s.buflen.val b, buflen := ⟨s.buflen.val + 1, by omega⟩ } := by
        simp [push, show ¬ s.buflen.val + 1 = 16 by omega]
      rw [hpush, ih _ (by simp) (by simp only [List.length_cons]; omega)]
      have hsum : s.buflen.val + 1 + (l.length + 1) = s.buflen.val + (l.length + 1 + 1) := by omega
      simp only [List.length_cons, drain_congr, hsum]

/-- **`update` is a fold over the bytes**, wherever the buffer stands. -/
theorem update_eq_foldl (s : State) (data : List UInt8) : update s data = data.foldl push s := by
  induction hn : data.length using Nat.strong_induction_on generalizing s data with
  | _ n ih =>
    rw [update]
    split
    case isTrue hd => simp [hd]
    case isFalse hd =>
      have hpos : 0 < data.length := List.length_pos_iff.mpr hd
      have hbuf := s.buflen.isLt
      set t := min (16 - s.buflen.val) data.length with ht
      have htake : (data.take t).length = t := by simp [ht]
      have hround := foldl_push s (data.take t)
        (fun h => by simp [h] at htake; omega) (by omega)
      conv_rhs => rw [← List.take_append_drop t data, List.foldl_append, hround]
      simp only [htake]
      split <;> exact ih _ (by simp only [List.length_drop]; omega) _ _ rfl

theorem foldl_update (s : State) (chunks : List (List UInt8)) :
    chunks.foldl update s = chunks.flatten.foldl push s := by
  induction chunks generalizing s with
  | nil => rfl
  | cons c chunks ih => rw [List.foldl_cons, ih, update_eq_foldl, List.flatten_cons,
      List.foldl_append]

/-! ## The polynomial of a message -/

/-- Block `i` of a message with its 1 byte appended, as a number. -/
def blockVal (m : List UInt8) (i : Nat) : Nat := leVal ((m.drop (16 * i)).take 16 ++ [1])

/-- The first `n` blocks as a polynomial in `r`. -/
def polyPrefix (r : Nat) (m : List UInt8) (n : Nat) : Nat :=
  ∑ i ∈ Finset.range n, blockVal m i * r ^ (n - i)

/-- The number of blocks, the last of which may be partial. -/
def blockCount (m : List UInt8) : Nat := (m.length + 15) / 16

theorem polyPrefix_succ (r : Nat) (m : List UInt8) (n : Nat) :
    polyPrefix r m (n + 1) = (polyPrefix r m n + blockVal m n) * r := by
  rw [polyPrefix, Finset.sum_range_succ, polyPrefix, add_mul, Finset.sum_mul]
  congr 1
  · refine Finset.sum_congr rfl fun i hi => ?_
    have hi := Finset.mem_range.mp hi
    rw [show n + 1 - i = (n - i) + 1 by omega, pow_succ, mul_assoc]
  · simp

theorem blockVal_append {m : List UInt8} {i : Nat} (hi : 16 * (i + 1) ≤ m.length) (l : List UInt8) :
    blockVal (m ++ l) i = blockVal m i := by
  rw [blockVal, blockVal, List.drop_append_of_le_length (by omega),
    List.take_append_of_le_length (by rw [List.length_drop]; omega)]

theorem polyPrefix_append {m : List UInt8} {n : Nat} (hn : 16 * n ≤ m.length) (r : Nat)
    (l : List UInt8) : polyPrefix r (m ++ l) n = polyPrefix r m n := by
  refine Finset.sum_congr rfl fun i hi => ?_
  have hi := Finset.mem_range.mp hi
  rw [blockVal_append (by omega)]

theorem blockVal_eq (m : List UInt8) (i : Nat) :
    blockVal m i = leVal ((m.drop (16 * i)).take 16) +
      256 ^ ((m.drop (16 * i)).take 16).length := by
  simp [blockVal, leVal_append]

/-! ## The invariant -/

/-- What the state is after `m` went in under `key`. -/
structure Holds (key : Vector UInt8 32) (s : State) (m : List UInt8) : Prop where
  r : s.r = (init key).r
  s0 : s.s0 = (init key).s0
  s1 : s.s1 = (init key).s1
  carried : s.h.Carried
  val : s.h.val % p = polyPrefix s.r.val m (m.length / 16) % p
  zero : m.length < 16 ∨ s.r.val = 0 → s.h.val = 0
  ge : 16 ≤ m.length → s.r.val ≠ 0 → 5 ≤ s.h.val
  buflen : s.buflen.val = m.length % 16
  buf : s.buf.toList.take s.buflen.val = m.drop (16 * (m.length / 16))

theorem Holds.r_below {key : Vector UInt8 32} {s : State} {m : List UInt8} (h : Holds key s m) :
    s.r.Below (2 ^ 26) := by
  rw [h.r]
  exact limbsOf_below _ _

theorem init_h_val (key : Vector UInt8 32) : (init key).h.val = 0 := by
  simp [init, Limbs.val]

theorem holds_init (key : Vector UInt8 32) : Holds key (init key) [] where
  r := rfl
  s0 := rfl
  s1 := rfl
  carried := by constructor <;> simp [init]
  val := by simp [init_h_val, polyPrefix]
  zero _ := init_h_val key
  ge h := by simp at h
  buflen := rfl
  buf := by simp [init]

theorem take_toList_set (buf : Vector UInt8 16) {k : Nat} (hk : k < 16) (b : UInt8) :
    (buf.set k b).toList.take (k + 1) = buf.toList.take k ++ [b] := by
  rw [Vector.toList_set, List.take_add_one, List.take_set_of_le (le_refl k)]
  simp [hk]

theorem hibit_toNat : hibit.toNat = 2 ^ 24 := by simp [hibit]

theorem drain_eq (s : State) (buf : Vector UInt8 16) :
    drain s buf = ⟨s.r, blockLimbs s.h s.r buf hibit, s.s0, s.s1, buf, 0⟩ := by
  obtain ⟨r, h, s0, s1, b, n⟩ := s
  rfl

/-- A full buffer is absorbed as the next block. -/
theorem Holds.drain {key : Vector UInt8 32} {s : State} {m : List UInt8} (h : Holds key s m)
    (b : UInt8) (hfull : s.buflen.val + 1 = 16) :
    Holds key (drain s (s.buf.set s.buflen.val b)) (m ++ [b]) := by
  have hlen : (m ++ [b]).length = 16 * (m.length / 16 + 1) := by
    have := h.buflen
    simp only [List.length_append, List.length_singleton]
    omega
  have hq : (m ++ [b]).length / 16 = m.length / 16 + 1 := by omega
  have hmlen : m.length < (m ++ [b]).length := by simp
  -- The buffer is now exactly the last block.
  have hblock : (s.buf.set s.buflen.val b).toList = (m ++ [b]).drop (16 * (m.length / 16)) := by
    have htake := take_toList_set s.buf s.buflen.isLt b
    rw [hfull, List.take_of_length_le (by simp), h.buf] at htake
    rw [htake, List.drop_append_of_le_length (by omega)]
  have hval : leVal (s.buf.set s.buflen.val b).toList + 2 ^ 104 * hibit.toNat =
      blockVal (m ++ [b]) (m.length / 16) := by
    rw [blockVal_eq, ← hblock, List.take_of_length_le (by simp), hibit_toNat]
    simp
  generalize s.buf.set s.buflen.val b = buf at hval ⊢
  have hhb : hibit.toNat ≤ 2 ^ 24 := hibit_toNat.le
  have hbig : 5 ≤ s.h.val + leVal buf.toList + 2 ^ 104 * hibit.toNat := by
    rw [hibit_toNat]
    omega
  rw [drain_eq]
  exact {
    r := h.r
    s0 := h.s0
    s1 := h.s1
    carried := blockLimbs_carried h.carried h.r_below hhb buf
    val := by
      rw [blockLimbs_val_mod h.carried h.r_below hhb buf, hq, polyPrefix_succ,
        polyPrefix_append (by omega), ← hval, Nat.add_assoc, Nat.mul_mod, Nat.add_mod, h.val,
        ← Nat.add_mod, ← Nat.mul_mod]
    zero := fun h0 =>
      blockLimbs_val_zero h.carried h.r_below hhb buf (h0.resolve_left (by omega))
    ge := fun _ hr0 => blockLimbs_val_ge h.carried h.r_below hhb buf hr0 hbig
    buflen := by
      simp only [Fin.val_zero]
      omega
    buf := by
      simp only [Fin.val_zero, List.take_zero]
      rw [hq, List.drop_of_length_le (by omega)] }

theorem Holds.push {key : Vector UInt8 32} {s : State} {m : List UInt8} (h : Holds key s m)
    (b : UInt8) : Holds key (push s b) (m ++ [b]) := by
  have hbuf := h.buflen
  by_cases hfull : s.buflen.val + 1 = 16
  · rw [Poly1305.push, dif_pos hfull]
    exact h.drain b hfull
  · have hlen : (m ++ [b]).length = m.length + 1 := by simp
    have hq : (m ++ [b]).length / 16 = m.length / 16 := by omega
    rw [Poly1305.push, dif_neg hfull]
    exact {
      r := h.r
      s0 := h.s0
      s1 := h.s1
      carried := h.carried
      val := by
        rw [hq, polyPrefix_append (by omega)]
        exact h.val
      zero := fun h0 => h.zero (h0.imp_left (by omega))
      ge := fun hge hr0 => h.ge (by omega) hr0
      buflen := by
        change s.buflen.val + 1 = _
        omega
      buf := by
        change (s.buf.set s.buflen.val b).toList.take (s.buflen.val + 1) = _
        rw [take_toList_set _ s.buflen.isLt, h.buf, hq, List.drop_append_of_le_length (by omega)] }

theorem Holds.foldl_push {key : Vector UInt8 32} {s : State} {m : List UInt8}
    (h : Holds key s m) (l : List UInt8) : Holds key (l.foldl Poly1305.push s) (m ++ l) := by
  induction l generalizing s m with
  | nil => simpa using h
  | cons b l ih => simpa using ih (h.push b)

/-- **The state after any sequence of updates** depends on the message only. -/
theorem holds_updates (key : Vector UInt8 32) (chunks : List (List UInt8)) :
    Holds key (chunks.foldl update (init key)) chunks.flatten := by
  rw [foldl_update]
  simpa using (holds_init key).foldl_push chunks.flatten

end SneppxAlg.Poly1305
