import Mathlib.Data.List.GetD
import SneppxAlg.Lib.AddingLoops

/-!
# Loops that store

A step on an array that can fail is described by what it *stores*: a relation between the places and the values that
it may leave there. The step succeeds, and afterwards each place has a value stored there, or the one it had before if
none was (`Stores`). Steps after each other store what one of them does, so that a loop stores what its rounds
store (`Stores.forLoop`).

Where no place is stored to twice, there is one value to be found at each.

Items of several cells are stored with `storeBytes`; an array is seen as its items of one length (`item`).
-/

namespace Lib.AddingLoops

variable {R : Type*} {n : ℕ} {f g : (ℕ → R) → Option (ℕ → R)} {W W' : ℕ → R → Prop}

/-- The step succeeds; `W p r` says that it may leave `r` at place `p`. -/
def Stores (f : (ℕ → R) → Option (ℕ → R)) (W : ℕ → R → Prop) : Prop :=
  ∀ a, ∃ a', f a = some a' ∧ ∀ p, W p (a' p) ∨ (∀ r, ¬W p r) ∧ a' p = a p

theorem stores_some : Stores (some : (ℕ → R) → Option (ℕ → R)) fun _ _ => False :=
  fun a => ⟨a, rfl, fun _ => Or.inr ⟨fun _ => id, rfl⟩⟩

theorem Stores.congr (h : Stores f W) (hW : ∀ p r, W p r ↔ W' p r) : Stores f W' := by
  obtain rfl : W = W' := funext fun p => funext fun r => propext (hW p r)
  exact h

theorem Stores.bind (hf : Stores f W) (hg : Stores g W') :
    Stores (fun a => (f a).bind g) fun p r => W p r ∨ W' p r := by
  intro a
  obtain ⟨b, hb, hWb⟩ := hf a
  obtain ⟨c, hc, hWc⟩ := hg b
  refine ⟨c, (congrArg (Option.bind · g) hb).trans hc, fun p => ?_⟩
  rcases hWc p with hW' | ⟨hnone', hkeep'⟩
  · exact Or.inl (Or.inr hW')
  · rcases hWb p with hW | ⟨hnone, hkeep⟩
    · exact Or.inl (Or.inl (by rwa [hkeep']))
    · exact Or.inr ⟨fun r h => h.elim (hnone r) (hnone' r), hkeep'.trans hkeep⟩

theorem Stores.forLoop {f : ℕ → (ℕ → R) → Option (ℕ → R)} {W : ℕ → ℕ → R → Prop}
    (h : ∀ i < n, Stores (f i) (W i)) : Stores (forLoop n f) fun p r => ∃ i < n, W i p r := by
  induction n with
  | zero => exact stores_some.congr fun p r => by simp
  | succ n ih =>
    have hstep := (ih fun i hi => h i (by omega)).bind (h n (by omega))
    rw [show Lib.AddingLoops.forLoop (n + 1) f = fun a => (Lib.AddingLoops.forLoop n f a).bind (f n) from
      funext (forLoop_succ f)]
    exact hstep.congr fun p r => by rw [Nat.exists_lt_succ_right]

/-- `a[i] = v` for an array of `cells` elements. -/
def storeAt (cells i : ℕ) (v : R) (a : ℕ → R) : Option (ℕ → R) :=
  if i < cells then some (Function.update a i v) else none

theorem stores_storeAt {cells i : ℕ} {v : R} (hi : i < cells) :
    Stores (storeAt cells i v) fun p r => p = i ∧ r = v := by
  refine fun a => ⟨_, if_pos hi, fun p => ?_⟩
  by_cases hp : p = i
  · exact Or.inl ⟨hp, by rw [hp, Function.update_self]⟩
  · exact Or.inr ⟨fun r h => hp h.1, Function.update_of_ne hp _ _⟩

theorem digit_lt {u k d : ℕ} (hu : u < n) (hk : k < d) : u * d + k < n * d :=
  calc u * d + k < (u + 1) * d := by rw [Nat.succ_mul]; omega
    _ ≤ n * d := Nat.mul_le_mul_right d hu

theorem digit_inj {d u u' k k' : ℕ} (hk : k < d) (hk' : k' < d) (h : u * d + k = u' * d + k') : u = u' ∧ k = k' := by
  have hmod := congrArg (· % d) h
  simp only [Nat.mul_add_mod', Nat.mod_eq_of_lt hk, Nat.mod_eq_of_lt hk'] at hmod
  subst hmod
  exact ⟨Nat.eq_of_mul_eq_mul_right (Nat.lt_of_le_of_lt (Nat.zero_le k) hk) (Nat.add_right_cancel h), rfl⟩

/-- The loops that fill an array with the rows of a matrix. -/
theorem exists_forLoop_rows {cells m : ℕ} (hcells : n * m ≤ cells) (v : ℕ → ℕ → R) (a : ℕ → R) :
    ∃ b, forLoop n (fun i => forLoop m fun j => storeAt cells (i * m + j) (v i j)) a = some b ∧
      ∀ i < n, ∀ j < m, b (i * m + j) = v i j := by
  have hstores := Stores.forLoop (n := n) fun i hi => Stores.forLoop (n := m) fun j hj =>
    stores_storeAt (v := v i j) ((digit_lt hi hj).trans_le hcells)
  obtain ⟨b, hb, hW⟩ := hstores a
  refine ⟨b, hb, fun i hi j hj => ?_⟩
  rcases hW (i * m + j) with ⟨i', hi', j', hj', hp, hr⟩ | ⟨hnone, -⟩
  · obtain ⟨rfl, rfl⟩ := digit_inj hj hj' hp
    exact hr
  · exact absurd ⟨i, hi, j, hj, rfl, rfl⟩ (hnone (v i j))

/-! ## Items of several cells -/

section Items

variable {cells m start : ℕ} {bytes : List R}

/-- The cells of item number `q`, for items of `m` cells. -/
def item (m : ℕ) (a : ℕ → R) (q : ℕ) : List R := (List.range m).map fun b => a (q * m + b)

theorem length_item (a : ℕ → R) (q : ℕ) : (item m a q).length = m := by simp [item]

/-- `memcpy` into an array of `cells` cells, from `start` on. -/
def storeBytes (cells start : ℕ) (bytes : List R) (a : ℕ → R) : Option (ℕ → R) :=
  if start + bytes.length ≤ cells then
    some fun p => if start ≤ p then bytes.getD (p - start) (a p) else a p
  else none

theorem storeBytes_eq_none (h : cells < start + bytes.length) (a : ℕ → R) : storeBytes cells start bytes a = none :=
  if_neg (not_le.mpr h)

theorem exists_storeBytes {q : ℕ} (hlen : bytes.length = m) (hcells : q * m + m ≤ cells) (a : ℕ → R) :
    ∃ b, storeBytes cells (q * m) bytes a = some b ∧ item m b q = bytes ∧
      ∀ q' ≠ q, item m b q' = item m a q' := by
  refine ⟨_, if_pos (hlen ▸ hcells), List.ext_getElem (by rw [length_item, hlen]) fun b hb hb' => ?_, fun q' hq => ?_⟩
  · simp only [item, List.getElem_map, List.getElem_range]
    rw [if_pos (Nat.le_add_right _ _), Nat.add_sub_cancel_left, List.getD_eq_getElem _ _ hb']
  · refine List.map_congr_left fun b hb => ?_
    have hb := List.mem_range.mp hb
    rcases Nat.lt_or_gt_of_ne hq with hlt | hgt
    · have hle : (q' + 1) * m ≤ q * m := Nat.mul_le_mul_right m hlt
      rw [Nat.succ_mul] at hle
      exact if_neg (by omega)
    · have hle : (q + 1) * m ≤ q' * m := Nat.mul_le_mul_right m hgt
      rw [Nat.succ_mul] at hle
      exact (if_pos (by omega)).trans (List.getD_eq_default _ _ (by omega))

theorem exists_forLoop_storeBytes {place : ℕ → ℕ} {w : ℕ → List R} (hlen : ∀ i < n, (w i).length = m)
    (hplace : ∀ i < n, place i * m + m ≤ cells) (hinj : ∀ i < n, ∀ j < i, place j ≠ place i) (a : ℕ → R) :
    ∃ b, forLoop n (fun i => storeBytes cells (place i * m) (w i)) a = some b ∧
      (∀ i < n, item m b (place i) = w i) ∧ ∀ q, (∀ i < n, place i ≠ q) → item m b q = item m a q := by
  refine exists_forLoop_eq_some (fun k b => (∀ i < k, item m b (place i) = w i) ∧
    ∀ q, (∀ i < k, place i ≠ q) → item m b q = item m a q) ⟨fun i hi => absurd hi (Nat.not_lt_zero i), fun q _ => rfl⟩ ?_
  rintro k hk b ⟨hdone, hrest⟩
  obtain ⟨b', hb', hnow, hother⟩ := exists_storeBytes (hlen k hk) (hplace k hk) b
  refine ⟨b', hb', fun i hi => ?_, fun q hq => ?_⟩
  · rcases Nat.lt_succ_iff_lt_or_eq.mp hi with hlt | rfl
    · rw [hother _ (hinj k hk i hlt), hdone i hlt]
    · exact hnow
  · rw [hother q (Ne.symm (hq k (Nat.lt_succ_self k))), hrest q fun i hi => hq i (Nat.lt_succ_of_lt hi)]

/-- A loop whose last item does not fit. -/
theorem forLoop_storeBytes_eq_none {place : ℕ → ℕ} {w : ℕ → List R} (hn : 0 < n)
    (hlast : cells < place (n - 1) + (w (n - 1)).length) (a : ℕ → R) :
    forLoop n (fun i => storeBytes cells (place i) (w i)) a = none :=
  forLoop_eq_none (Nat.sub_lt hn Nat.one_pos) (fun a => storeBytes_eq_none hlast a) a

/-- An item of `k * m` cells consists of items of `m` cells. -/
theorem take_drop_item {k j : ℕ} (hj : j < k) (a : ℕ → R) (q : ℕ) :
    ((item (k * m) a q).drop (j * m)).take m = item m a (q * k + j) := by
  have hle : (j + 1) * m ≤ k * m := Nat.mul_le_mul_right m hj
  rw [Nat.succ_mul] at hle
  refine List.ext_getElem (by simp only [List.length_take, List.length_drop, length_item]; omega) fun b hb hb' => ?_
  simp only [item, List.getElem_take, List.getElem_drop, List.getElem_map, List.getElem_range]
  rw [Nat.add_mul, Nat.mul_assoc, Nat.add_assoc]

end Items

end Lib.AddingLoops
