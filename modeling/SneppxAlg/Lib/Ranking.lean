import Mathlib

/-!
# Numbers in the order of their keys

The numbers below `n`, those with the largest keys first. The sort is stable. A front part holds the largest
keys (`le_of_mem_take`), and consists of the first numbers exactly if they have them (`take_perm_range_iff`).
-/

namespace Lib.Ranking

variable {M : Type*} [LinearOrder M] {key : ℕ → M} {n k i j : ℕ}

/-- What the sort compares with. -/
def before (key : ℕ → M) (a b : ℕ) : Bool := decide (key b ≤ key a)

def ranking (key : ℕ → M) (n : ℕ) : List ℕ := (List.range n).mergeSort (before key)

theorem before_trans (a b c : ℕ) (hab : before key a b) (hbc : before key b c) : before key a c :=
  decide_eq_true (le_trans (of_decide_eq_true hbc) (of_decide_eq_true hab))

theorem before_total (a b : ℕ) : before key a b || before key b a := by
  simpa [before] using le_total (key b) (key a)

theorem ranking_perm (key : ℕ → M) (n : ℕ) : (ranking key n).Perm (List.range n) :=
  List.mergeSort_perm _ _

theorem nodup_ranking (key : ℕ → M) (n : ℕ) : (ranking key n).Nodup :=
  (ranking_perm key n).nodup_iff.mpr List.nodup_range

theorem length_ranking (key : ℕ → M) (n : ℕ) : (ranking key n).length = n := by
  rw [(ranking_perm key n).length_eq, List.length_range]

theorem mem_ranking : i ∈ ranking key n ↔ i < n := by
  rw [(ranking_perm key n).mem_iff, List.mem_range]

theorem pairwise_ranking (key : ℕ → M) (n : ℕ) : (ranking key n).Pairwise fun a b => key b ≤ key a := by
  have hsorted : (ranking key n).Pairwise fun a b => before key a b = true :=
    List.pairwise_mergeSort before_trans before_total (List.range n)
  exact hsorted.imp of_decide_eq_true

theorem le_of_mem_take (hi : i ∈ (ranking key n).take k) (hj : j ∈ (ranking key n).drop k) : key j ≤ key i := by
  have h := pairwise_ranking key n
  rw [← List.take_append_drop k (ranking key n), List.pairwise_append] at h
  exact h.2.2 i hi j hj

/-- A number is in one part only. -/
theorem not_mem_drop (hi : i ∈ (ranking key n).take k) : i ∉ (ranking key n).drop k := by
  have h := nodup_ranking key n
  rw [← List.take_append_drop k (ranking key n), List.nodup_append] at h
  exact fun hd => h.2.2 i hi i hd rfl

theorem mem_take_or_mem_drop (k : ℕ) (hi : i < n) :
    i ∈ (ranking key n).take k ∨ i ∈ (ranking key n).drop k := by
  rw [← List.mem_append, List.take_append_drop]
  exact mem_ranking.mpr hi

/-- The smaller number comes first if the key of the larger is not above its own. -/
theorem pair_sublist_ranking (hij : i < j) (hj : j < n) (hkey : key j ≤ key i) :
    [i, j].Sublist (ranking key n) := by
  have hleft : [i].Sublist ((List.range n).take j) := by
    rw [List.singleton_sublist, List.take_range, List.mem_range]
    omega
  have hright : [j].Sublist ((List.range n).drop j) := by
    rw [List.singleton_sublist, List.mem_drop_iff_getElem]
    exact ⟨0, by simpa using hj, by simp⟩
  have hsub := hleft.append hright
  rw [List.take_append_drop] at hsub
  exact List.pair_sublist_mergeSort before_trans before_total (decide_eq_true hkey) hsub

/-- The first numbers of one length, in another order. -/
theorem perm_range_of_subset {l : List ℕ} (hnd : l.Nodup) (hlen : l.length = k) (hsub : ∀ i ∈ l, i < k) :
    l.Perm (List.range k) := by
  have hsubperm : l.Subperm (List.range k) := hnd.subperm fun i hi => List.mem_range.mpr (hsub i hi)
  exact hsubperm.perm_of_length_le (by simp [hlen])

theorem take_perm_range_iff (hk : k ≤ n) :
    ((ranking key n).take k).Perm (List.range k) ↔ ∀ i < k, ∀ j < n, k ≤ j → key j ≤ key i := by
  have hnd : ((ranking key n).take k).Nodup := (nodup_ranking key n).sublist (List.take_sublist _ _)
  have hlen : ((ranking key n).take k).length = k := by rw [List.length_take, length_ranking, Nat.min_eq_left hk]
  constructor
  · intro hperm i hi j hj hkj
    refine le_of_mem_take (hperm.mem_iff.mpr (List.mem_range.mpr hi)) ?_
    refine (mem_take_or_mem_drop k hj).resolve_left fun h => ?_
    have := List.mem_range.mp (hperm.mem_iff.mp h)
    omega
  · intro hdom
    refine perm_range_of_subset hnd hlen fun x hx => ?_
    by_contra hge
    have hxn : x < n := mem_ranking.mp (List.mem_of_mem_take hx)
    -- a number below `k` is missing in the front part, because `x` takes its place
    obtain ⟨i, hik, hi⟩ : ∃ i < k, i ∉ (ranking key n).take k := by
      by_contra hall
      push Not at hall
      have hsubperm : (List.range k).Subperm ((ranking key n).take k) :=
        List.nodup_range.subperm fun i hi => hall i (List.mem_range.mp hi)
      have hperm := hsubperm.perm_of_length_le (by simp [hlen])
      exact hge (List.mem_range.mp (hperm.mem_iff.mpr hx))
    have hsub := pair_sublist_ranking (by omega : i < x) hxn (hdom i hik x hxn (by omega))
    rw [← List.take_append_drop k (ranking key n), List.sublist_append_iff] at hsub
    obtain ⟨l₁, l₂, heq, h₁, h₂⟩ := hsub
    cases l₁ with
    | nil =>
      rw [List.nil_append] at heq
      exact not_mem_drop hx (h₂.subset (by simp [← heq]))
    | cons a l₁ =>
      obtain ⟨rfl, -⟩ := List.cons.inj heq
      exact hi (h₁.subset List.mem_cons_self)

end Lib.Ranking
