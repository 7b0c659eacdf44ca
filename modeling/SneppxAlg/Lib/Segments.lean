import Mathlib

/-!
# Lists that are put together from pieces

The pieces may have one length, and then their indices say where they are (`drop_flatMap`), or different
lengths, and then each starts where those in front of it end (`getElem?_flatten`). A piece of a list may be
replaced by another of its length (`getElem?_splice`).
-/

namespace Lib.Segments

variable {α : Type*}

section Blocks

variable {β : Type*} {f : β → List α} {k i : ℕ} {l : List β}

theorem length_flatMap_of_length (hk : ∀ b ∈ l, (f b).length = k) : (l.flatMap f).length = l.length * k := by
  induction l with
  | nil => simp
  | cons b l ih =>
    obtain ⟨hb, hk⟩ := List.forall_mem_cons.mp hk
    rw [List.flatMap_cons, List.length_append, hb, ih hk, List.length_cons, Nat.succ_mul, Nat.add_comm]

/-- Piece `i` of a list put together from pieces of one length, and what follows it. -/
theorem drop_flatMap (hk : ∀ b ∈ l, (f b).length = k) (hi : i < l.length) (post : List α) :
    ∃ rest, (l.flatMap f ++ post).drop (i * k) = f l[i] ++ rest := by
  induction l generalizing i with
  | nil => exact absurd hi (Nat.not_lt_zero _)
  | cons b l ih =>
    obtain ⟨hb, hk⟩ := List.forall_mem_cons.mp hk
    rw [List.flatMap_cons, List.append_assoc]
    cases i with
    | zero => exact ⟨_, by rw [Nat.zero_mul, List.drop_zero, List.getElem_cons_zero]⟩
    | succ i =>
      obtain ⟨rest, hrest⟩ := ih hk (Nat.lt_of_succ_lt_succ hi)
      refine ⟨rest, ?_⟩
      rw [Nat.succ_mul, Nat.add_comm, ← List.drop_drop, List.drop_left' hb, hrest, List.getElem_cons_succ]

theorem take_drop_flatMap (hk : ∀ b ∈ l, (f b).length = k) (hi : i < l.length) :
    ((l.flatMap f).drop (i * k)).take k = f l[i] := by
  obtain ⟨rest, hrest⟩ := drop_flatMap hk hi []
  rw [List.append_nil] at hrest
  rw [hrest, List.take_left' (hk _ (List.getElem_mem hi))]

theorem getElem?_flatMap {a : β} {b : α} {j : ℕ} (hk : ∀ b ∈ l, (f b).length = k) (ha : l[i]? = some a)
    (hb : (f a)[j]? = some b) : (l.flatMap f)[i * k + j]? = some b := by
  obtain ⟨hi, rfl⟩ := List.getElem?_eq_some_iff.mp ha
  have hj : j < k := hk _ (List.getElem_mem hi) ▸ (List.getElem?_eq_some_iff.mp hb).1
  rw [← take_drop_flatMap hk hi, List.getElem?_take_of_lt hj, List.getElem?_drop] at hb
  exact hb

end Blocks

/-- Where piece `i` starts. -/
def startOf (pieces : List (List α)) (i : ℕ) : ℕ := ((pieces.take i).map List.length).sum

theorem startOf_succ {pieces : List (List α)} {i : ℕ} {piece : List α} (h : pieces[i]? = some piece) :
    startOf pieces (i + 1) = startOf pieces i + piece.length := by
  rw [startOf, startOf, List.take_add_one, h]
  simp

theorem startOf_mono (pieces : List (List α)) {i j : ℕ} (h : i ≤ j) : startOf pieces i ≤ startOf pieces j := by
  rw [startOf, startOf, ← Nat.add_sub_cancel' h, List.take_add, List.map_append, List.sum_append]
  exact Nat.le_add_right _ _

theorem startOf_length (pieces : List (List α)) : startOf pieces pieces.length = pieces.flatten.length := by
  rw [startOf, List.take_length, List.length_flatten]

theorem startOf_take (pieces : List (List α)) {i n : ℕ} (h : i ≤ n) :
    startOf (pieces.take n) i = startOf pieces i := by
  rw [startOf, startOf, List.take_take, Nat.min_eq_left h]

theorem startOf_of_length {pieces : List (List α)} {i k : ℕ} (hk : ∀ p ∈ pieces, p.length = k)
    (hi : i ≤ pieces.length) : startOf pieces i = i * k := by
  induction i with
  | zero => simp [startOf]
  | succ i ih =>
    rw [startOf_succ (List.getElem?_eq_getElem hi), ih (Nat.le_of_succ_le hi), hk _ (List.getElem_mem hi),
      Nat.succ_mul]

/-- The elements of piece `i`. -/
theorem getElem?_flatten {pieces : List (List α)} {i j : ℕ} {piece : List α} (hi : pieces[i]? = some piece)
    (hj : j < piece.length) : pieces.flatten[startOf pieces i + j]? = piece[j]? := by
  induction pieces generalizing i with
  | nil => simp at hi
  | cons p pieces ih =>
    cases i with
    | zero =>
      obtain rfl : p = piece := by simpa using hi
      rw [startOf, List.take_zero, List.map_nil, List.sum_nil, Nat.zero_add, List.flatten_cons,
        List.getElem?_append_left hj]
    | succ i =>
      have hstart : startOf (p :: pieces) (i + 1) = p.length + startOf pieces i := by
        rw [startOf, startOf, List.take_succ_cons, List.map_cons, List.sum_cons]
      rw [hstart, List.flatten_cons, List.getElem?_append_right (by omega), Nat.add_assoc, Nat.add_sub_cancel_left]
      exact ih (by simpa using hi)

theorem getElem?_splice (l d : List α) {a : ℕ} (h : a + d.length ≤ l.length) (j : ℕ) :
    (l.take a ++ d ++ l.drop (a + d.length))[j]? =
      if a ≤ j ∧ j < a + d.length then d[j - a]? else l[j]? := by
  have hta : (l.take a).length = a := by rw [List.length_take]; omega
  rw [List.append_assoc]
  by_cases h1 : j < a
  · rw [List.getElem?_append_left (by omega), List.getElem?_take, if_pos h1, if_neg (by omega)]
  rw [List.getElem?_append_right (by omega), hta]
  by_cases h2 : j < a + d.length
  · rw [List.getElem?_append_left (by omega), if_pos (by omega)]
  · rw [List.getElem?_append_right (by omega), List.getElem?_drop, if_neg (by omega)]
    congr 1
    omega

end Lib.Segments
