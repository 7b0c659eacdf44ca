import Mathlib.Algebra.BigOperators.Group.Finset.Sigma
import Mathlib.Algebra.BigOperators.Pi

/-!
# Loops that add

A step on a state that can fail. It *adds* `c` if it succeeds on every state, with the state increased by `c`. A
loop of steps that add adds the sum (`Adds.forLoop`); so nested loops that accumulate into an array, or into a
variable, are read off from the inside to the outside. A loop with a step that fails fails
(`forLoop_eq_none`).
-/

namespace Lib.AddingLoops

open Finset

variable {A : Type*} {n i : ℕ}

/-- `for (i = 0; i < n; i++)`. -/
def forLoop (n : ℕ) (f : ℕ → A → Option A) (a : A) : Option A := (List.range n).foldlM (fun a i => f i a) a

theorem forLoop_succ (f : ℕ → A → Option A) (a : A) : forLoop (n + 1) f a = (forLoop n f a).bind (f n) := by
  rw [forLoop, List.range_succ, List.foldlM_append]
  exact congrArg _ (funext fun a => bind_pure (f n a))

theorem forLoop_congr {f g : ℕ → A → Option A} (h : ∀ i < n, f i = g i) (a : A) : forLoop n f a = forLoop n g a := by
  induction n with
  | zero => rfl
  | succ n ih => rw [forLoop_succ, forLoop_succ, ih fun i hi => h i (by omega), h n (by omega)]

theorem forLoop_eq_none {f : ℕ → A → Option A} (hi : i < n) (h : ∀ a, f i a = none) (a : A) :
    forLoop n f a = none := by
  induction n with
  | zero => omega
  | succ n ih =>
    rw [forLoop_succ]
    rcases Nat.lt_succ_iff_lt_or_eq.mp hi with hlt | rfl
    · rw [ih hlt, Option.bind_none]
    · cases forLoop i f a with
      | none => rfl
      | some a => exact h a

/-- An invariant that lets every round succeed. -/
theorem exists_forLoop_eq_some {f : ℕ → A → Option A} {a : A} (P : ℕ → A → Prop) (h0 : P 0 a)
    (hstep : ∀ i < n, ∀ a, P i a → ∃ b, f i a = some b ∧ P (i + 1) b) : ∃ b, forLoop n f a = some b ∧ P n b := by
  induction n with
  | zero => exact ⟨a, rfl, h0⟩
  | succ n ih =>
    obtain ⟨b, hb, hPb⟩ := ih fun i hi => hstep i (by omega)
    obtain ⟨c, hc, hPc⟩ := hstep n (by omega) b hPb
    exact ⟨c, by rw [forLoop_succ, hb, Option.bind_some, hc], hPc⟩

section Adds

variable [AddCommMonoid A] {f : A → Option A} {c : A}

/-- The step increases every state by `c`. -/
def Adds (f : A → Option A) (c : A) : Prop := ∀ a, f a = some (a + c)

theorem adds_some : Adds (some : A → Option A) 0 := fun a => by rw [add_zero]

theorem Adds.from_zero (h : Adds f c) : f 0 = some c := by rw [h, zero_add]

theorem Adds.congr {c' : A} (h : Adds f c) (hc : c = c') : Adds f c' := hc ▸ h

theorem Adds.forLoop {f : ℕ → A → Option A} {c : ℕ → A} (h : ∀ i < n, Adds (f i) (c i)) :
    Adds (forLoop n f) (∑ i ∈ range n, c i) := by
  induction n with
  | zero => exact adds_some
  | succ n ih =>
    intro a
    rw [forLoop_succ, ih (fun i hi => h i (by omega)) a, Option.bind_some, h n (by omega), sum_range_succ,
      add_assoc]

/-- Two loops inside each other. -/
theorem Adds.forLoop_prod {m : ℕ} {f : ℕ → ℕ → A → Option A} {c : ℕ × ℕ → A}
    (h : ∀ i < m, ∀ j < n, Adds (f i j) (c (i, j))) :
    Adds (Lib.AddingLoops.forLoop m fun i => Lib.AddingLoops.forLoop n (f i)) (∑ a ∈ range m ×ˢ range n, c a) := by
  rw [sum_product]
  exact Adds.forLoop fun i hi => Adds.forLoop fun j hj => h i hi j hj

end Adds

/-! ## Arrays -/

section Arrays

variable {R : Type*} [AddCommMonoid R] {v : R}

/-- `a[i] += v` for an array of `cells` elements. -/
def addAt (cells i : ℕ) (v : R) (a : ℕ → R) : Option (ℕ → R) :=
  if i < cells then some (Function.update a i (a i + v)) else none

theorem adds_addAt {cells : ℕ} (hi : i < cells) : Adds (addAt cells i v) (Pi.single i v) := by
  intro a
  rw [addAt, if_pos hi]
  congr 1
  funext j
  by_cases hj : j = i
  · subst hj
    rw [Function.update_self, Pi.add_apply, Pi.single_eq_same]
  · rw [Function.update_of_ne hj, Pi.add_apply, Pi.single_eq_of_ne hj, add_zero]

end Arrays

end Lib.AddingLoops
