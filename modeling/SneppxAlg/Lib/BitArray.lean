import Mathlib.Data.UInt
import Mathlib.Data.Nat.Bitwise
import Mathlib.Tactic.IntervalCases
import SneppxAlg.Lib.AddingLoops

/-!
# The bits of an array of bytes

Bit `p` of an array of bytes is bit `p % 8` of byte `p / 8`. A step on such an array that can fail is described by
the bits that it *sets* (`Sets`): it succeeds, and afterwards a bit is set if it was set before, or if the step sets
it. A loop sets what its rounds set (`Sets.forLoop`), so that a loop which packs numbers of a few bits is read off
from the inside to the outside.
-/

namespace Lib.BitArray

open Lib.AddingLoops

variable {cells n p q : ℕ} {f g : (ℕ → UInt8) → Option (ℕ → UInt8)} {P Q : ℕ → Prop}

/-- Bit `p` of an array of bytes. -/
def bit (a : ℕ → UInt8) (p : ℕ) : Bool := a (p / 8) &&& 1 <<< UInt8.ofNat (p % 8) != 0

/-- `a[p / 8] |= 1 << (p % 8)` for an array of `cells` bytes. -/
def setBit (cells p : ℕ) (a : ℕ → UInt8) : Option (ℕ → UInt8) :=
  if p / 8 < cells then
    some (Function.update a (p / 8) (a (p / 8) ||| 1 <<< UInt8.ofNat (p % 8)))
  else none

/-- `a[p / 8] & (1 << (p % 8))` for an array of `cells` bytes. -/
def testBit (cells p : ℕ) (a : ℕ → UInt8) : Option Bool := if p / 8 < cells then some (bit a p) else none

theorem toNat_one_shiftLeft {k : ℕ} (hk : k < 8) : (1 <<< UInt8.ofNat k : UInt8).toNat = 2 ^ k := by
  interval_cases k <;> rfl

theorem and_one_shiftLeft_ne_zero (x : UInt8) {k : ℕ} (hk : k < 8) :
    (x &&& 1 <<< UInt8.ofNat k != 0) = x.toNat.testBit k := by
  have hand : (x &&& 1 <<< UInt8.ofNat k).toNat = (x.toNat.testBit k).toNat * 2 ^ k := by
    rw [UInt8.toNat_and, toNat_one_shiftLeft hk, Nat.and_two_pow]
  have hzero : x &&& 1 <<< UInt8.ofNat k = 0 ↔ (x.toNat.testBit k).toNat * 2 ^ k = 0 := by
    rw [← hand, ← UInt8.toNat_inj]
    rfl
  rw [Bool.eq_iff_iff, bne_iff_ne, ne_eq, hzero]
  cases x.toNat.testBit k <;> simp

theorem bit_eq_testBit (a : ℕ → UInt8) (p : ℕ) : bit a p = (a (p / 8)).toNat.testBit (p % 8) :=
  and_one_shiftLeft_ne_zero _ (Nat.mod_lt p (by decide))

theorem bit_zero (p : ℕ) : bit 0 p = false := by
  rw [bit_eq_testBit]
  exact Nat.zero_testBit _

theorem testBit_eq_some (hp : p / 8 < cells) (a : ℕ → UInt8) : testBit cells p a = some (bit a p) := if_pos hp

theorem exists_setBit (hp : p / 8 < cells) (a : ℕ → UInt8) :
    ∃ b, setBit cells p a = some b ∧ ∀ q, bit b q = true ↔ bit a q = true ∨ q = p := by
  refine ⟨_, if_pos hp, fun q => ?_⟩
  rw [bit_eq_testBit, bit_eq_testBit]
  by_cases hbyte : q / 8 = p / 8
  · have hpos : q = p ↔ p % 8 = q % 8 := by omega
    rw [hbyte, Function.update_self, UInt8.toNat_or, toNat_one_shiftLeft (Nat.mod_lt p (by decide)),
      Nat.testBit_or, Bool.or_eq_true, Nat.testBit_two_pow, decide_eq_true_eq, hpos]
  · rw [Function.update_of_ne hbyte]
    exact ⟨Or.inl, fun h => h.resolve_right fun heq => hbyte (heq ▸ rfl)⟩

/-! ## Steps that set bits -/

/-- The step succeeds, and sets the bits of `P`. -/
def Sets (f : (ℕ → UInt8) → Option (ℕ → UInt8)) (P : ℕ → Prop) : Prop :=
  ∀ a, ∃ b, f a = some b ∧ ∀ q, bit b q = true ↔ bit a q = true ∨ P q

theorem sets_some : Sets some fun _ => False := fun a => ⟨a, rfl, fun _ => (or_false _).to_iff.symm⟩

theorem sets_setBit (hp : p / 8 < cells) : Sets (setBit cells p) (· = p) := exists_setBit hp

theorem Sets.congr (h : Sets f P) (hPQ : ∀ q, P q ↔ Q q) : Sets f Q := by
  obtain rfl : P = Q := funext fun q => propext (hPQ q)
  exact h

theorem Sets.bind (hf : Sets f P) (hg : Sets g Q) : Sets (fun a => (f a).bind g) fun q => P q ∨ Q q := by
  intro a
  obtain ⟨b, hb, hP⟩ := hf a
  obtain ⟨c, hc, hQ⟩ := hg b
  refine ⟨c, (congrArg (Option.bind · g) hb).trans hc, fun q => ?_⟩
  rw [hQ, hP, or_assoc]

theorem Sets.forLoop {f : ℕ → (ℕ → UInt8) → Option (ℕ → UInt8)} {P : ℕ → ℕ → Prop}
    (h : ∀ i < n, Sets (f i) (P i)) : Sets (forLoop n f) fun q => ∃ i < n, P i q := by
  induction n with
  | zero => exact sets_some.congr fun q => by simp
  | succ n ih =>
    have hstep := (ih fun i hi => h i (by omega)).bind (h n (by omega))
    rw [show Lib.AddingLoops.forLoop (n + 1) f = fun a => (Lib.AddingLoops.forLoop n f a).bind (f n) from
      funext (forLoop_succ f)]
    exact hstep.congr fun q => by rw [Nat.exists_lt_succ_right]

/-- `if (c) a[p / 8] |= 1 << (p % 8)`. -/
def setBitIf (cells : ℕ) (c : Bool) (p : ℕ) (a : ℕ → UInt8) : Option (ℕ → UInt8) :=
  if c then setBit cells p a else some a

theorem sets_setBitIf {c : Bool} (hp : p / 8 < cells) : Sets (setBitIf cells c p) fun q => c = true ∧ q = p := by
  cases c with
  | true => exact (sets_setBit hp).congr fun q => by simp
  | false => exact sets_some.congr fun q => by simp

end Lib.BitArray
