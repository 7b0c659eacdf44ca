import Mathlib.Data.Finset.Card
import Mathlib.Data.List.Basic

/-!
# Lists with a capacity

Elements are put at the end of a list one after the other, unless they are in it or it is full. The
list then holds the first `cap` distinct ones (`length_foldl_add`). An element gets in unless as many
others as there is room for have come before it (`notMem_foldl_add_iff`).
-/

namespace Lib.Capped

variable {β : Type*} [DecidableEq β] {cap : ℕ} {l xs ys : List β} {x : β}

def add (cap : ℕ) (l : List β) (x : β) : List β :=
  if x ∉ l ∧ l.length < cap then l ++ [x] else l

theorem nodup_add (hl : l.Nodup) : (add cap l x).Nodup := by
  unfold add
  split_ifs with h
  · refine List.Nodup.append hl (List.nodup_singleton x) ?_
    rw [List.disjoint_singleton]
    exact h.1
  · exact hl

theorem nodup_foldl_add (hl : l.Nodup) : (xs.foldl (add cap) l).Nodup := by
  induction xs generalizing l with
  | nil => exact hl
  | cons x xs ih => exact ih (nodup_add hl)

theorem foldl_add_of_full (hl : cap ≤ l.length) : xs.foldl (add cap) l = l := by
  induction xs with
  | nil => rfl
  | cons x xs ih => rw [List.foldl_cons, add, if_neg (by omega), ih]

theorem mem_foldl_add_of_mem (hx : x ∈ l) : x ∈ xs.foldl (add cap) l := by
  induction xs generalizing l with
  | nil => exact hx
  | cons y xs ih =>
    refine ih ?_
    unfold add
    split_ifs
    · exact List.mem_append_left _ hx
    · exact hx

theorem mem_of_mem_foldl_add (hx : x ∈ xs.foldl (add cap) l) : x ∈ l ∨ x ∈ xs := by
  induction xs generalizing l with
  | nil => exact Or.inl hx
  | cons y xs ih =>
    rcases ih hx with h | h
    · unfold add at h
      split_ifs at h
      · rcases List.mem_append.mp h with h | h
        · exact Or.inl h
        · exact Or.inr (List.mem_cons.mpr (Or.inl (List.mem_singleton.mp h)))
      · exact Or.inl h
    · exact Or.inr (List.mem_cons_of_mem _ h)

theorem length_foldl_add (hl : l.Nodup) (hcap : l.length ≤ cap) :
    (xs.foldl (add cap) l).length = min cap (l.toFinset ∪ xs.toFinset).card := by
  induction xs generalizing l with
  | nil =>
    rw [List.foldl_nil, List.toFinset_nil, Finset.union_empty, List.toFinset_card_of_nodup hl]
    omega
  | cons x xs ih =>
    by_cases hfull : cap ≤ l.length
    · have hle : l.length ≤ (l.toFinset ∪ (x :: xs).toFinset).card := by
        rw [← List.toFinset_card_of_nodup hl]
        exact Finset.card_le_card Finset.subset_union_left
      rw [foldl_add_of_full hfull]
      omega
    have hadd : (add cap l x).length ≤ cap := by
      unfold add
      split_ifs
      · rw [List.length_append, List.length_singleton]
        omega
      · exact hcap
    have hset : (add cap l x).toFinset ∪ xs.toFinset = l.toFinset ∪ (x :: xs).toFinset := by
      ext y
      unfold add
      split_ifs with h
      · simp
      · have hx : x ∈ l := by
          by_contra hx
          exact h ⟨hx, by omega⟩
        simp only [Finset.mem_union, List.mem_toFinset, List.mem_cons]
        constructor
        · rintro (hy | hy)
          · exact Or.inl hy
          · exact Or.inr (Or.inr hy)
        · rintro (hy | rfl | hy)
          · exact Or.inl hy
          · exact Or.inl hx
          · exact Or.inr hy
    rw [List.foldl_cons, ih (nodup_add hl) hadd, hset]

theorem takeWhile_ne_append_cons (hx : x ∉ xs) : (xs ++ x :: ys).takeWhile (· ≠ x) = xs := by
  rw [List.takeWhile_append_of_pos, List.takeWhile_cons_of_neg (by simp), List.append_nil]
  intro y hy
  simpa using ne_of_mem_of_not_mem hy hx

/-- An element that comes gets in unless the list is full before. -/
theorem notMem_foldl_add_iff (hx : x ∈ xs) :
    x ∉ xs.foldl (add cap) [] ↔ cap ≤ (xs.takeWhile (· ≠ x)).toFinset.card := by
  obtain ⟨before, after, rfl, hbefore⟩ := List.eq_append_cons_of_mem hx
  have hlen : (before.foldl (add cap) []).length = min cap before.toFinset.card := by
    rw [length_foldl_add List.nodup_nil (Nat.zero_le _), List.toFinset_nil, Finset.empty_union]
  have hnot : x ∉ before.foldl (add cap) [] := by
    intro hmem
    rcases mem_of_mem_foldl_add hmem with h | h
    · cases h
    · exact hbefore h
  rw [takeWhile_ne_append_cons hbefore, List.foldl_append, List.foldl_cons]
  constructor
  · intro hout
    by_contra hroom
    refine hout (mem_foldl_add_of_mem ?_)
    rw [add, if_pos ⟨hnot, by omega⟩]
    exact List.mem_append_right _ (List.mem_singleton_self x)
  · intro hfull
    rwa [add, if_neg (by omega), foldl_add_of_full (by omega)]

/-- If an element that comes does not get in, the list is full. -/
theorem length_of_notMem (hx : x ∈ xs) (hout : x ∉ xs.foldl (add cap) []) :
    (xs.foldl (add cap) []).length = cap := by
  have hfull := (notMem_foldl_add_iff hx).mp hout
  have hsub : (xs.takeWhile (· ≠ x)).toFinset ⊆ xs.toFinset := by
    intro y hy
    rw [List.mem_toFinset] at hy ⊢
    exact (List.takeWhile_sublist _).subset hy
  have hcard := Finset.card_le_card hsub
  rw [length_foldl_add List.nodup_nil (Nat.zero_le _), List.toFinset_nil, Finset.empty_union]
  omega

end Lib.Capped
