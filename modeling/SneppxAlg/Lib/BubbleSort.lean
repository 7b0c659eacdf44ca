import Mathlib

/-!
# Bubble sort

A pass goes along a list and swaps two neighbours where a test asks for it; each pass is one shorter than the
one before. The result is a rearrangement whatever the test is (`sort_perm`). If the test says which of two
keys is smaller, the keys fall (`pairwise_sort`): a pass takes the smallest key it meets to its end, and what
earlier passes have put there is below all others.
-/

namespace Lib.BubbleSort

variable {α K : Type*} (lt : α → α → Bool)

/-- The first `n` comparisons of a pass. -/
def pass : (n : ℕ) → List α → List α
  | n + 1, x :: y :: l => if lt x y then y :: pass n (x :: l) else x :: pass n (y :: l)
  | _, l => l

def sort (l : List α) : List α :=
  (List.range (l.length - 1)).foldl (fun l i => pass lt (l.length - 1 - i) l) l

variable {lt} {key : α → K} {n : ℕ} {l : List α}

theorem pass_perm (lt : α → α → Bool) (n : ℕ) (l : List α) : (pass lt n l).Perm l := by
  fun_induction pass lt n l with
  | case1 n x y l h ih => exact (ih.cons y).trans (.swap x y l)
  | case2 n x y l h ih => exact ih.cons x
  | case3 => exact .refl _

theorem sort_perm (lt : α → α → Bool) (l : List α) : (sort lt l).Perm l := by
  have hfold : ∀ (is : List ℕ) (m : List α), m.Perm l →
      (is.foldl (fun l i => pass lt (l.length - 1 - i) l) m).Perm l := by
    intro is
    induction is with
    | nil => exact fun m hm => hm
    | cons i is ih => exact fun m hm => ih _ ((pass_perm lt _ m).trans hm)
  exact hfold _ l (.refl l)

variable [LinearOrder K]

theorem le_of_perm_cons {m z : α} {l' : List α} (hperm : (m :: l').Perm l) (hle : ∀ x ∈ l', key m ≤ key x)
    (hz : z ∈ l) : key m ≤ key z := by
  rcases List.mem_cons.mp (hperm.symm.subset hz) with rfl | hmem
  · exact le_rfl
  · exact hle z hmem

/-- A pass over all but the end of a list takes the smallest key to its last place. -/
theorem pass_append {front : List α} (hfront : front ≠ []) (back : List α)
    (hlt : ∀ x ∈ front, ∀ y ∈ front, lt x y = true ↔ key x < key y) :
    ∃ front' m, pass lt (front.length - 1) (front ++ back) = front' ++ m :: back ∧
      (m :: front').Perm front ∧ ∀ x ∈ front', key m ≤ key x := by
  induction hn : front.length - 1 generalizing front with
  | zero =>
    obtain ⟨x, rfl⟩ : ∃ x, front = [x] := by
      rw [← List.length_eq_one_iff]
      have := List.length_pos_iff.mpr hfront
      omega
    exact ⟨[], x, rfl, .refl _, nofun⟩
  | succ n ih =>
    obtain ⟨x, y, l, rfl⟩ : ∃ x y l, front = x :: y :: l := by
      match front with
      | [] => simp at hn
      | [x] => simp at hn
      | x :: y :: l => exact ⟨x, y, l, rfl⟩
    have hx : x ∈ x :: y :: l := List.mem_cons_self
    have hy : y ∈ x :: y :: l := List.mem_cons_of_mem _ List.mem_cons_self
    rw [List.cons_append, List.cons_append, pass]
    split_ifs with hxy
    · have hsub : ∀ z ∈ x :: l, z ∈ x :: y :: l := fun z hz => by
        rcases List.mem_cons.mp hz with rfl | hz
        · exact hx
        · exact List.mem_cons_of_mem _ (List.mem_cons_of_mem _ hz)
      obtain ⟨front', m, hpass, hperm, hle⟩ := ih (List.cons_ne_nil x l)
        (fun a ha b hb => hlt a (hsub a ha) b (hsub b hb)) (by simpa using hn)
      refine ⟨y :: front', m, by rw [← List.cons_append, hpass, List.cons_append], ?_, ?_⟩
      · exact (List.Perm.swap y m front').trans ((hperm.cons y).trans (.swap x y l))
      · rw [List.forall_mem_cons]
        refine ⟨?_, hle⟩
        have hmx : key m ≤ key x := le_of_perm_cons hperm hle List.mem_cons_self
        exact hmx.trans ((hlt x hx y hy).mp hxy).le
    · obtain ⟨front', m, hpass, hperm, hle⟩ := ih (List.cons_ne_nil y l)
        (fun a ha b hb => hlt a (List.mem_cons_of_mem _ ha) b (List.mem_cons_of_mem _ hb)) (by simpa using hn)
      refine ⟨x :: front', m, by rw [← List.cons_append, hpass, List.cons_append], ?_, ?_⟩
      · exact (List.Perm.swap x m front').trans (hperm.cons x)
      · rw [List.forall_mem_cons]
        refine ⟨?_, hle⟩
        have hmy : key m ≤ key y := le_of_perm_cons hperm hle List.mem_cons_self
        exact hmy.trans (not_lt.mp (mt (hlt x hx y hy).mpr hxy))

/-- After `i` passes the last `i` elements are in their places. -/
structure Settled (key : α → K) (l : List α) (i : ℕ) (l' : List α) : Prop where
  perm : l'.Perm l
  split : ∃ front back, l' = front ++ back ∧ back.length = i ∧ (back.Pairwise fun a b => key b ≤ key a) ∧
    ∀ x ∈ front, ∀ y ∈ back, key y ≤ key x

theorem Settled.pass {l' : List α} {i : ℕ} (h : Settled key l i l') (hi : i < l.length)
    (hlt : ∀ x ∈ l, ∀ y ∈ l, lt x y = true ↔ key x < key y) :
    Settled key l (i + 1) (pass lt (l'.length - 1 - i) l') := by
  obtain ⟨front, back, rfl, rfl, hsorted, hbelow⟩ := h.split
  have hlength := h.perm.length_eq
  rw [List.length_append] at hlength
  have hfront : front ≠ [] := List.length_pos_iff.mp (by omega)
  obtain ⟨front', m, hpass, hperm, hle⟩ := @pass_append _ _ lt key _ _ hfront back fun x hx y hy =>
    hlt x (h.perm.subset (List.mem_append_left _ hx)) y (h.perm.subset (List.mem_append_left _ hy))
  have hm : m ∈ front := hperm.subset List.mem_cons_self
  have hrest : ∀ x ∈ front', x ∈ front := fun x hx => hperm.subset (List.mem_cons_of_mem _ hx)
  rw [List.length_append, show front.length + back.length - 1 - back.length = front.length - 1 by omega, hpass]
  refine ⟨?_, front', m :: back, rfl, rfl, List.pairwise_cons.mpr ⟨hbelow m hm, hsorted⟩, ?_⟩
  · exact (List.perm_middle.trans (hperm.append_right back)).trans h.perm
  · intro x hx y hy
    rcases List.mem_cons.mp hy with rfl | hy
    · exact hle x hx
    · exact hbelow x (hrest x hx) y hy

theorem pairwise_sort (hlt : ∀ x ∈ l, ∀ y ∈ l, lt x y = true ↔ key x < key y) :
    (sort lt l).Pairwise fun a b => key b ≤ key a := by
  have hrounds : ∀ n ≤ l.length, Settled key l n
      ((List.range n).foldl (fun l i => BubbleSort.pass lt (l.length - 1 - i) l) l) := by
    intro n hn
    induction n with
    | zero => exact ⟨.refl l, l, [], (List.append_nil l).symm, rfl, .nil, by simp⟩
    | succ n ih =>
      rw [List.range_succ, List.foldl_append]
      exact (ih (by omega)).pass hn hlt
  obtain ⟨front, back, heq, hback, hsorted, hbelow⟩ := (hrounds (l.length - 1) (Nat.sub_le _ _)).split
  have hlength := (hrounds (l.length - 1) (Nat.sub_le _ _)).perm.length_eq
  rw [heq, List.length_append] at hlength
  rw [sort, heq]
  refine List.pairwise_append.mpr ⟨?_, hsorted, hbelow⟩
  -- one element is left in front
  have hfront : front.length ≤ 1 := by omega
  match front with
  | [] => exact .nil
  | [x] => exact List.pairwise_singleton _ x
  | x :: y :: front => simp at hfront

end Lib.BubbleSort
