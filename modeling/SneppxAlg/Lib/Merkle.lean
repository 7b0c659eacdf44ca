import Mathlib

/-!
# Merkle trees and hash chains

The nodes of a complete binary tree over leaves `f 0, f 1, …`, the in-place reduction that
computes them level by level, and the climb from a leaf along its authentication path. The two
meet in `climb_eq_node`: a path made of the tree's own siblings leads to the tree's own node.
-/

namespace Lib.Merkle

variable {D : Type*}

/-! ## Nodes -/

/-- Node `j` of height `h` over the leaves `f`, with `c` combining two children. -/
def node (c : D → D → D) (f : ℕ → D) : ℕ → ℕ → D
  | 0, j => f j
  | h + 1, j => c (node c f h (2 * j)) (node c f h (2 * j + 1))

/-- A tree over leaves taken from `o * 2 ^ h` on is the subtree of height `h` at `o`. -/
theorem node_shift (c : D → D → D) (f : ℕ → D) (h o j : ℕ) :
    node c (fun i => f (o * 2 ^ h + i)) h j = node c f h (o + j) := by
  induction h generalizing o j with
  | zero => simp [node]
  | succ h ih =>
    have hleaves : (fun i => f (o * 2 ^ (h + 1) + i)) = fun i => f (2 * o * 2 ^ h + i) := by
      funext i
      rw [pow_succ, Nat.mul_comm 2 o, Nat.mul_assoc, Nat.mul_comm 2]
    simp only [node, hleaves, ih]
    rw [show 2 * o + 2 * j = 2 * (o + j) by omega, show 2 * o + (2 * j + 1) = 2 * (o + j) + 1 by omega]

/-! ## In-place reduction -/

/-- One level: entry `j < pairs` becomes the combination of entries `2 j` and `2 j + 1`, in the
array itself and in increasing order of `j`. -/
def levelUp (c : D → D → D) (pairs : ℕ) (t : ℕ → D) : ℕ → D :=
  (List.range pairs).foldl (fun t j => Function.update t j (c (t (2 * j)) (t (2 * j + 1)))) t

/-- The entries read at step `j` are not yet overwritten, except by their own step. -/
theorem levelUp_apply (c : D → D → D) (pairs : ℕ) (t : ℕ → D) (j : ℕ) :
    levelUp c pairs t j = if j < pairs then c (t (2 * j)) (t (2 * j + 1)) else t j := by
  induction pairs generalizing j with
  | zero => simp [levelUp]
  | succ n ih =>
    have hstep : levelUp c (n + 1) t = Function.update (levelUp c n t) n
        (c (levelUp c n t (2 * n)) (levelUp c n t (2 * n + 1))) := by
      simp [levelUp, List.range_succ]
    rw [hstep]
    by_cases hj : j = n
    · subst hj
      have h₁ : ¬ 2 * j + 1 < j := by omega
      have h₀ : levelUp c j t (2 * j) = t (2 * j) := by
        rw [ih]
        by_cases h : 2 * j < j
        · omega
        · rw [if_neg h]
      rw [Function.update_self, h₀, ih (2 * j + 1), if_neg h₁, if_pos (Nat.lt_succ_self j)]
    · rw [Function.update_of_ne hj, ih]
      by_cases h : j < n
      · rw [if_pos h, if_pos (by omega)]
      · rw [if_neg h, if_neg (by omega)]

/-- The first `k` levels of the reduction of `n` leaves. -/
def levels (c : D → D → D) (n k : ℕ) (t : ℕ → D) : ℕ → D :=
  (List.range k).foldl (fun t h => levelUp c (n >>> (h + 1)) t) t

theorem levels_succ (c : D → D → D) (n k : ℕ) (t : ℕ → D) :
    levels c n (k + 1) t = levelUp c (n >>> (k + 1)) (levels c n k t) := by
  simp [levels, List.range_succ]

theorem levels_apply (c : D → D → D) (f : ℕ → D) {L k j : ℕ} (hk : k ≤ L) (hj : j < 2 ^ (L - k)) :
    levels c (2 ^ L) k f j = node c f k j := by
  induction k generalizing j with
  | zero => simp [levels, node]
  | succ k ih =>
    have hpairs : 2 ^ L >>> (k + 1) = 2 ^ (L - (k + 1)) := by
      rw [Nat.shiftRight_eq_div_pow, Nat.pow_div hk (by norm_num)]
    have hdouble : 2 ^ (L - k) = 2 * 2 ^ (L - (k + 1)) := by
      rw [show L - k = L - (k + 1) + 1 by omega, pow_succ, Nat.mul_comm]
    rw [levels_succ, levelUp_apply, hpairs, if_pos hj]
    rw [ih (by omega) (by omega), ih (by omega) (by omega), node]

/-! ## Authentication paths -/

/-- The sibling of the node at height `h` above leaf `pos`. -/
def sibling (c : D → D → D) (f : ℕ → D) (pos h : ℕ) : D := node c f h ((pos >>> h) ^^^ 1)

/-- `n` steps up from `x`; bit `h` of `pos` says on which side the partner of height `h` goes. -/
def climb (c : D → D → D) (auth : ℕ → D) (pos : ℕ) (n : ℕ) (x : D) : D :=
  (List.range n).foldl (fun x h => if pos.testBit h then c (auth h) x else c x (auth h)) x

theorem climb_succ (c : D → D → D) (auth : ℕ → D) (pos n : ℕ) (x : D) :
    climb c auth pos (n + 1) x =
      if pos.testBit n then c (auth n) (climb c auth pos n x)
      else c (climb c auth pos n x) (auth n) := by
  simp [climb, List.range_succ]

theorem climb_eq_node (c : D → D → D) (f : ℕ → D) (pos n : ℕ) {auth : ℕ → D}
    (hauth : ∀ h < n, auth h = sibling c f pos h) :
    climb c auth pos n (f pos) = node c f n (pos >>> n) := by
  induction n with
  | zero => simp [climb, node]
  | succ n ih =>
    have hbit : pos.testBit n = decide ((pos >>> n) % 2 = 1) := by
      rw [Nat.testBit_eq_decide_div_mod_eq, Nat.shiftRight_eq_div_pow]
    have hnext : pos >>> (n + 1) = (pos >>> n) / 2 := by
      rw [Nat.shiftRight_add, Nat.shiftRight_eq_div_pow _ 1, pow_one]
    rw [climb_succ, ih fun h hh => hauth h (by omega), hauth n (by omega), hbit, hnext, node,
      sibling]
    generalize pos >>> n = p
    rcases Nat.mod_two_eq_zero_or_one p with hp | hp
    · have hx : p ^^^ 1 = p + 1 := by
        rw [Nat.xor_one_of_even (Nat.even_iff.mpr hp)]
      rw [hx, show 2 * (p / 2) = p by omega]
      simp [hp]
    · have hx : p ^^^ 1 = p - 1 := by
        rw [Nat.xor_one_of_odd (Nat.odd_iff.mpr hp)]
      rw [hx, show 2 * (p / 2) = p - 1 by omega, show p - 1 + 1 = p by omega]
      simp [hp]

/-! ## Chains -/

/-- `n` steps of the chain function from position `start` on. -/
def chain (g : ℕ → D → D) (start : ℕ) : ℕ → D → D
  | 0, x => x
  | n + 1, x => chain g (start + 1) n (g start x)

theorem chain_add (g : ℕ → D → D) (start m n : ℕ) (x : D) :
    chain g start (m + n) x = chain g (start + m) n (chain g start m x) := by
  induction m generalizing start x with
  | zero => simp [chain]
  | succ m ih =>
    rw [Nat.add_right_comm, chain, ih, chain, show start + 1 + m = start + (m + 1) by omega]

end Lib.Merkle
