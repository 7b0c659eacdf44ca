import Mathlib.Algebra.Order.Group.Nat
import Mathlib.Data.List.Basic
import Mathlib.Data.List.Count
import Mathlib.Data.List.Perm.Basic

/-!
# Exchange sort

Each place of a list in turn is compared with all later ones, and exchanged with those that have a larger key.
So the first of the largest keys goes to the front (`head?_sort_range`), and the keys of the result fall
(`pairwise_sort`). In a list whose keys fall, a key is among the `k` largest exactly if it is not below that in
place `k - 1` (`countP_lt_iff`).
-/

namespace Lib.ExchangeSort

variable {α K : Type*} [LinearOrder K] (key : α → K)

/-- The comparisons of one place with all later ones. -/
def sift (x : α) : List α → α × List α
  | [] => (x, [])
  | y :: l => if key x < key y then ((sift y l).1, x :: (sift y l).2) else ((sift x l).1, y :: (sift x l).2)

/-- The places in turn, as many as `fuel` says. -/
def rounds : (fuel : ℕ) → List α → List α
  | fuel + 1, x :: l => (sift key x l).1 :: rounds fuel (sift key x l).2
  | _, l => l

def sort (l : List α) : List α := rounds key l.length l

variable {key} {x : α} {l : List α}

theorem sift_perm (key : α → K) (x : α) (l : List α) : ((sift key x l).1 :: (sift key x l).2).Perm (x :: l) := by
  induction l generalizing x with
  | nil => exact .refl _
  | cons y l ih =>
    rw [sift]
    split_ifs
    · exact (List.Perm.swap _ _ _).trans (((ih y).cons x))
    · exact (List.Perm.swap _ _ _).trans (((ih x).cons y).trans (.swap _ _ _))

theorem le_sift (key : α → K) (x : α) (l : List α) : ∀ y ∈ x :: l, key y ≤ key (sift key x l).1 := by
  induction l generalizing x with
  | nil => simp [sift]
  | cons y l ih =>
    rw [sift]
    split_ifs with hlt
    · obtain ⟨hy, hl⟩ := List.forall_mem_cons.mp (ih y)
      exact List.forall_mem_cons.mpr ⟨hlt.le.trans hy, List.forall_mem_cons.mpr ⟨hy, hl⟩⟩
    · obtain ⟨hx, hl⟩ := List.forall_mem_cons.mp (ih x)
      exact List.forall_mem_cons.mpr ⟨hx, List.forall_mem_cons.mpr ⟨(not_lt.mp hlt).trans hx, hl⟩⟩

/-- What comes to the place is what a search for the largest key finds. -/
theorem sift_fst (key : α → K) (x : α) (l : List α) :
    (sift key x l).1 = l.foldl (fun best y => if key best < key y then y else best) x := by
  induction l generalizing x with
  | nil => rfl
  | cons y l ih =>
    rw [sift, List.foldl_cons]
    split_ifs
    · exact ih y
    · exact ih x

theorem rounds_perm (key : α → K) (fuel : ℕ) (l : List α) : (rounds key fuel l).Perm l := by
  induction fuel generalizing l with
  | zero => exact .refl _
  | succ fuel ih =>
    cases l with
    | nil => exact .refl _
    | cons x l => exact ((ih _).cons _).trans (sift_perm key x l)

theorem sort_perm (key : α → K) (l : List α) : (sort key l).Perm l := rounds_perm key _ l

theorem pairwise_sort (key : α → K) (l : List α) : (sort key l).Pairwise fun a b => key b ≤ key a := by
  have hrounds : ∀ fuel l, l.length ≤ fuel → (rounds key fuel l).Pairwise fun a b => key b ≤ key a := by
    intro fuel
    induction fuel with
    | zero =>
      intro l hl
      obtain rfl := List.length_eq_zero_iff.mp (Nat.le_zero.mp hl)
      exact .nil
    | succ fuel ih =>
      intro l hl
      cases l with
      | nil => exact .nil
      | cons x l =>
        have hperm := sift_perm key x l
        have hlength := hperm.length_eq
        simp only [List.length_cons] at hl hlength
        refine List.pairwise_cons.mpr ⟨fun y hy => ?_, ih _ (by omega)⟩
        refine le_sift key x l y (hperm.subset (List.mem_cons_of_mem _ ?_))
        exact (rounds_perm key fuel _).subset hy
  exact hrounds _ l le_rfl

/-! ## The first of the largest keys -/

section First

variable {key : ℕ → K} {n m m' : ℕ}

/-- The search for the largest key below `n`. -/
def leader (key : ℕ → K) (n : ℕ) : ℕ :=
  (List.range' 1 (n - 1)).foldl (fun best i => if key best < key i then i else best) 0

structure IsFirstMax (key : ℕ → K) (n m : ℕ) : Prop where
  lt : m < n
  before : ∀ j < m, key j < key m
  le : ∀ j < n, key j ≤ key m

theorem IsFirstMax.unique (h : IsFirstMax key n m) (h' : IsFirstMax key n m') : m = m' := by
  rcases lt_trichotomy m m' with hlt | heq | hgt
  · exact absurd (h'.before m hlt) (h.le m' h'.lt).not_gt
  · exact heq
  · exact absurd (h.before m' hgt) (h'.le m h.lt).not_gt

theorem IsFirstMax.congr {key' : ℕ → K} (h : IsFirstMax key n m) (hkey : ∀ i j, key i < key j ↔ key' i < key' j) :
    IsFirstMax key' n m where
  lt := h.lt
  before j hj := (hkey j m).mp (h.before j hj)
  le j hj := not_lt.mp fun hlt => (h.le j hj).not_gt ((hkey m j).mpr hlt)

theorem leader_isFirstMax (key : ℕ → K) (hn : 0 < n) : IsFirstMax key n (leader key n) := by
  induction n with
  | zero => exact absurd hn (Nat.lt_irrefl 0)
  | succ n ih =>
    rcases Nat.eq_zero_or_pos n with rfl | hpos
    · refine ⟨Nat.zero_lt_one, fun j hj => absurd hj (Nat.not_lt_zero j), fun j hj => ?_⟩
      obtain rfl := Nat.lt_one_iff.mp hj
      exact le_rfl
    obtain ⟨hlt, hbefore, hle⟩ := ih hpos
    have hstep : leader key (n + 1) = if key (leader key n) < key n then n else leader key n := by
      rw [leader, leader, show n + 1 - 1 = n - 1 + 1 by omega, List.range'_concat, List.foldl_append,
        show 1 + 1 * (n - 1) = n by omega]
      rfl
    rw [hstep]
    split_ifs with hmore
    · refine ⟨Nat.lt_succ_self n, fun j hj => (hle j hj).trans_lt hmore, fun j hj => ?_⟩
      rcases Nat.lt_succ_iff_lt_or_eq.mp hj with hj | rfl
      · exact ((hle j hj).trans_lt hmore).le
      · exact le_rfl
    · refine ⟨hlt.trans (Nat.lt_succ_self n), hbefore, fun j hj => ?_⟩
      rcases Nat.lt_succ_iff_lt_or_eq.mp hj with hj | rfl
      · exact hle j hj
      · exact not_lt.mp hmore

theorem head?_sort_range (key : ℕ → K) (hn : 0 < n) : (sort key (List.range n)).head? = some (leader key n) := by
  obtain ⟨k, rfl⟩ := Nat.exists_eq_succ_of_ne_zero hn.ne'
  rw [sort, List.length_range, List.range_eq_range', List.range'_succ, rounds, List.head?_cons, sift_fst]
  rfl

end First

/-! ## The largest keys -/

theorem countP_lt_iff {k : ℕ} {y : α} (hsorted : l.Pairwise fun a b => key b ≤ key a) (hk : 0 < k)
    (hy : l[k - 1]? = some y) : (l.countP fun z => key x < key z) < k ↔ key y ≤ key x := by
  obtain ⟨hlt, rfl⟩ := List.getElem?_eq_some_iff.mp hy
  have hsplit : l = l.take (k - 1) ++ l[k - 1] :: l.drop k := by
    conv_lhs => rw [← List.take_append_drop (k - 1) l, List.drop_eq_getElem_cons hlt, Nat.sub_add_cancel hk]
  have hpair := hsorted
  rw [hsplit, List.pairwise_append, List.pairwise_cons] at hpair
  obtain ⟨-, ⟨hafter, -⟩, hcross⟩ := hpair
  constructor
  · intro hcount
    by_contra hbelow
    have hfront : (l.take (k - 1)).countP (fun z => key x < key z) = k - 1 := by
      rw [List.countP_eq_length.mpr, List.length_take]
      · omega
      · exact fun z hz => decide_eq_true ((not_le.mp hbelow).trans_le (hcross z hz _ List.mem_cons_self))
    rw [hsplit, List.countP_append, hfront, 
        List.countP_cons_of_pos (p := fun z => decide (key x < key z)) (decide_eq_true (not_le.mp hbelow))] at hcount
    omega
  · intro hle
    have hback : (l[k - 1] :: l.drop k).countP (fun z => key x < key z) = 0 := by
      refine List.countP_eq_zero.mpr (List.forall_mem_cons.mpr ⟨?_, fun z hz => ?_⟩)
      · exact fun h => (of_decide_eq_true h).not_ge hle
      · exact fun h => (of_decide_eq_true h).not_ge ((hafter z hz).trans hle)
    have hfront := List.countP_le_length (p := fun z => decide (key x < key z)) (l := l.take (k - 1))
    rw [List.length_take] at hfront
    rw [hsplit, List.countP_append, hback]
    omega

end Lib.ExchangeSort
