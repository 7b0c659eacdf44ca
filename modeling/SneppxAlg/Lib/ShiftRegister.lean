import Mathlib

/-!
# Linear shift registers

A step of the register moves all bits down by one and, if the bit that falls out is set, adds a
polynomial. Addition is exclusive or, and a step is linear in it (`shift_xor`).

If the top bit of the polynomial is set, a step loses nothing (`shift_injective`): the top bit of the result
tells what has fallen out. If moreover the number of bits in the polynomial is even, no state but zero stays
as it is (`eq_zero_of_shift_eq`). Twice the same linear map has no other fixed points than the map itself,
so neither has any number of steps that is a power of two (`eq_zero_of_iterate_eq`).
-/

namespace Lib.ShiftRegister

variable {w : ℕ} (poly : BitVec w)

/-- One step. -/
def shift (s : BitVec w) : BitVec w := (s >>> 1) ^^^ (if s.getLsbD 0 then poly else 0)

theorem shift_of_even {s : BitVec w} (h : s.getLsbD 0 = false) : shift poly s = s >>> 1 := by
  simp [shift, h]

theorem shift_xor (s t : BitVec w) : shift poly (s ^^^ t) = shift poly s ^^^ shift poly t := by
  have hcancel : ∀ a b : BitVec w, a ^^^ b = a ^^^ poly ^^^ (b ^^^ poly) := by
    intro a b
    rw [BitVec.xor_assoc, BitVec.xor_comm b, ← BitVec.xor_assoc poly, BitVec.xor_self, BitVec.zero_xor]
  unfold shift
  rw [BitVec.getLsbD_xor, BitVec.ushiftRight_xor_distrib]
  cases s.getLsbD 0 <;> cases t.getLsbD 0
  · simp
  · simp [BitVec.xor_assoc]
  · simp only [Bool.true_bne, Bool.not_false, if_true, Bool.false_eq_true, if_false]
    rw [BitVec.xor_assoc, BitVec.xor_comm (t >>> 1), ← BitVec.xor_assoc]
    simp
  · simpa using hcancel _ _

theorem iterate_xor (n : ℕ) (s t : BitVec w) :
    (shift poly)^[n] (s ^^^ t) = (shift poly)^[n] s ^^^ (shift poly)^[n] t :=
  Function.Semiconj₂.iterate (shift_xor poly) n s t

/-- The bits below fall out one by one. -/
theorem iterate_of_low_zero {n : ℕ} {s : BitVec w} (h : ∀ i < n, s.getLsbD i = false) :
    (shift poly)^[n] s = s >>> n := by
  induction n with
  | zero => simp
  | succ n ih =>
    have hlow : (s >>> n).getLsbD 0 = false := by simpa using h n (Nat.lt_succ_self n)
    rw [Function.iterate_succ_apply', ih fun i hi => h i (Nat.lt_succ_of_lt hi), shift_of_even poly hlow,
      BitVec.shiftRight_add]

/-! ## Nothing is lost -/

variable {poly}

theorem eq_of_xor_eq_zero {s t : BitVec w} (h : s ^^^ t = 0) : s = t := BitVec.xor_eq_zero_iff.mp h

theorem shift_injective (hpoly : poly.msb = true) : Function.Injective (shift poly) := by
  have hzero : ∀ s, shift poly s = 0 → s = 0 := by
    intro s hs
    have hmsb := congrArg BitVec.msb hs
    cases hlow : s.getLsbD 0 with
    | false =>
      rw [shift_of_even poly hlow] at hs
      refine BitVec.eq_of_getLsbD_eq fun i _ => ?_
      cases i with
      | zero => simpa using hlow
      | succ i =>
        have hbit := congrArg (BitVec.getLsbD · i) hs
        simpa [Nat.add_comm] using hbit
    | true =>
      -- The top bit of the result is that of the polynomial.
      have htop : (s >>> 1).msb = false := by simp [BitVec.msb_ushiftRight]
      rw [shift, if_pos hlow, BitVec.msb_xor, htop, hpoly] at hmsb
      simp at hmsb
  intro s t hst
  have hxor : shift poly (s ^^^ t) = 0 := by rw [shift_xor, hst, BitVec.xor_self]; rfl
  exact eq_of_xor_eq_zero (hzero _ hxor)

/-! ## Fixed points -/

/-- The number of bits, modulo two. -/
def parity (s : BitVec w) : ZMod 2 := ∑ i ∈ Finset.range w, if s.getLsbD i then 1 else 0

theorem parity_xor (s t : BitVec w) : parity (s ^^^ t) = parity s + parity t := by
  rw [parity, parity, parity, ← Finset.sum_add_distrib]
  refine Finset.sum_congr rfl fun i _ => ?_
  rw [BitVec.getLsbD_xor]
  cases s.getLsbD i <;> cases t.getLsbD i <;> decide

/-- The bit that falls out. -/
theorem parity_shiftRight (s : BitVec w) : parity s = parity (s >>> 1) + if s.getLsbD 0 then 1 else 0 := by
  have hsucc := Finset.sum_range_succ' (fun i => if s.getLsbD i then (1 : ZMod 2) else 0) w
  rw [Finset.sum_range_succ, BitVec.getLsbD_of_ge s w le_rfl] at hsucc
  simpa [parity, Nat.add_comm] using hsucc

theorem eq_zero_of_shift_eq (hpoly : parity poly = 0) {s : BitVec w} (h : shift poly s = s) : s = 0 := by
  have hlow : s.getLsbD 0 = false := by
    by_contra hset
    rw [Bool.not_eq_false] at hset
    have hparity := congrArg parity h
    rw [shift, if_pos hset, parity_xor, hpoly, parity_shiftRight s, if_pos hset] at hparity
    exact absurd (add_left_cancel hparity) (by decide)
  rw [shift_of_even poly hlow] at h
  have hbits : ∀ i, s.getLsbD i = false := by
    intro i
    induction i with
    | zero => exact hlow
    | succ i ih =>
      have hbit := congrArg (BitVec.getLsbD · i) h
      rw [← ih, ← hbit, BitVec.getLsbD_ushiftRight, Nat.add_comm]
  exact BitVec.eq_of_getLsbD_eq fun i _ => by simpa using hbits i

theorem eq_zero_of_iterate_eq (hpoly : parity poly = 0) (k : ℕ) {s : BitVec w}
    (h : (shift poly)^[2 ^ k] s = s) : s = 0 := by
  induction k generalizing s with
  | zero => exact eq_zero_of_shift_eq hpoly (by simpa using h)
  | succ k ih =>
    have hfix : (shift poly)^[2 ^ k] ((shift poly)^[2 ^ k] s ^^^ s) = (shift poly)^[2 ^ k] s ^^^ s := by
      rw [iterate_xor, ← Function.iterate_add_apply, ← Nat.two_mul, Nat.mul_comm, ← pow_succ, h, BitVec.xor_comm]
    exact ih (eq_of_xor_eq_zero (ih hfix))

end Lib.ShiftRegister
