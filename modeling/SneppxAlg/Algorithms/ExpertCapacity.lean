import Mathlib
import SneppxAlg.Lib.BubbleSort

/-!
# The capacity of experts

`SNEPPX_ser_expert_capacity_balance` of `algorithms/ser/core/route.c`. The slots of an expert that has more
than its capacity are collected, sorted by their weights and given up from the capacity on. What is given up
for one expert does not touch the slots of another, so at the end exactly the `victims` of the assignment
at the start are gone (`balance_eq`).

An expert keeps all its slots if there is no memory for its sort, and all experts do if there is none for the
counts. A weight is a number or NaN, with which the sort does not find the smallest weights.
-/

namespace SneppxAlg.ExpertCapacity

open Lib.BubbleSort

variable {R : Type} [LinearOrder R] [Zero R]

/-! ## The function -/

/-- `gate_weights` and `expert_indices`; a weight that is NaN is `none`. -/
structure Routing (R : Type) where
  gates : ℕ → Option R
  indices : ℕ → ℤ

/-- A comparison with NaN is false. -/
def less : Option R → Option R → Bool
  | some x, some y => x < y
  | _, _ => false

variable (numTokens numActive capacity : ℕ)

/-- `t * num_active + k`, in the order of the two loops. -/
def slots : List ℕ :=
  (List.range numTokens).flatMap fun t => (List.range numActive).map fun k => t * numActive + k

def intMax : ℤ := 2 ^ 31 - 1

/-- The first loop, `none` if `expert_indices[i] + 1` overflows. -/
def numExperts (r : Routing R) (n : ℕ) : Option ℤ :=
  (List.range n).foldlM (fun nExp i =>
    if r.indices i = intMax then none
    else if nExp < r.indices i + 1 then some (r.indices i + 1)
    else some nExp) 0

def counts (r : Routing R) (nExp : ℤ) : ℤ → ℕ :=
  (slots numTokens numActive).foldl (fun counts i =>
    if 0 ≤ r.indices i ∧ r.indices i < nExp then
      Function.update counts (r.indices i) (counts (r.indices i) + 1)
    else counts) fun _ => 0

/-- The `pairs` of an expert. -/
def gather (r : Routing R) (e : ℤ) : List (Option R × ℕ) :=
  ((slots numTokens numActive).filter fun i => r.indices i = e).map fun i => (r.gates i, i)

def Routing.drop (r : Routing R) (i : ℕ) : Routing R where
  gates := Function.update r.gates i (some 0)
  indices := Function.update r.indices i (-1)

/-- What the sort compares. -/
def lessWeight (x y : Option R × ℕ) : Bool := less x.1 y.1

/-- The slots that are given up, in the order of the last loop. -/
def dropped (pairs : List (Option R × ℕ)) : List ℕ :=
  ((sort lessWeight pairs).drop capacity).map Prod.snd

/-- The round for an expert, `none` if there is no room in `pairs`; `alloc` says whether `malloc` succeeds. -/
def balanceExpert (alloc : ℤ → Bool) (counts : ℤ → ℕ) (r : Routing R) (e : ℤ) : Option (Routing R) :=
  if counts e ≤ capacity then some r
  else if !alloc e then some r
  else if counts e < (gather numTokens numActive r e).length then none
  else some ((dropped capacity (gather numTokens numActive r e)).foldl Routing.drop r)

/-- `SNEPPX_ser_expert_capacity_balance`; `countsAlloc` says whether `calloc` succeeds. -/
def balance (countsAlloc : Bool) (alloc : ℤ → Bool) (r : Routing R) : Option (Routing R) :=
  if capacity = 0 then some r
  else do
    let nExp ← numExperts r (numTokens * numActive)
    if nExp = 0 then some r
    else if !countsAlloc then some r
    else
      ((List.range nExp.toNat).map (↑)).foldlM
        (balanceExpert numTokens numActive capacity alloc (counts numTokens numActive r nExp)) r

/-! ## What it is for -/

/-- The slots that are assigned to an expert. -/
def slotsOf (r : Routing R) (e : ℤ) : List ℕ := (slots numTokens numActive).filter fun i => r.indices i = e

/-- The slots of the experts that are served are cut to the capacity, the largest weights are kept, and nothing
else is changed. -/
structure Balanced (served : ℤ → Prop) (r r' : Routing R) : Prop where
  atMost : ∀ e, 0 ≤ e → served e → (slotsOf numTokens numActive r' e).length ≤ capacity
  kept : ∀ e, 0 ≤ e → (slotsOf numTokens numActive r e).length ≤ capacity ∨ ¬served e →
    slotsOf numTokens numActive r' e = slotsOf numTokens numActive r e
  exactly : ∀ e, 0 ≤ e → served e → capacity < (slotsOf numTokens numActive r e).length →
    (slotsOf numTokens numActive r' e).length = capacity
  largest : ∀ e, 0 ≤ e → (∀ i ∈ slotsOf numTokens numActive r e, r.gates i ≠ none) →
    ∀ i ∈ slotsOf numTokens numActive r e, ∀ j ∈ slotsOf numTokens numActive r e,
      r'.indices i = e → r'.indices j ≠ e → ∃ x y, r.gates i = some x ∧ r.gates j = some y ∧ y ≤ x
  isDropped : ∀ i, r'.indices i ≠ r.indices i → r'.indices i = -1 ∧ r'.gates i = some 0
  unchanged : ∀ i, r'.indices i = r.indices i → r'.gates i = r.gates i

/-! ## Slots and counts -/

variable {numTokens numActive capacity} {r : Routing R} {e nExp : ℤ} {i j : ℕ}

theorem slots_eq_range (numTokens numActive : ℕ) : slots numTokens numActive = List.range (numTokens * numActive) := by
  induction numTokens with
  | zero => rw [Nat.zero_mul]; rfl
  | succ n ih =>
    rw [Nat.succ_mul, List.range_add, ← ih, slots, List.range_succ, List.flatMap_append, List.flatMap_singleton]
    rfl

omit [LinearOrder R] [Zero R] in
theorem mem_slotsOf : i ∈ slotsOf numTokens numActive r e ↔ i < numTokens * numActive ∧ r.indices i = e := by
  rw [slotsOf, List.mem_filter, slots_eq_range, List.mem_range, decide_eq_true_eq]

omit [LinearOrder R] [Zero R] in
theorem nodup_slotsOf (r : Routing R) (e : ℤ) : (slotsOf numTokens numActive r e).Nodup := by
  rw [slotsOf, slots_eq_range]
  exact List.nodup_range.filter _

omit [LinearOrder R] [Zero R] in
/-- There are as many experts as it takes. -/
theorem exists_numExperts {n : ℕ} (h : ∀ i < n, r.indices i < intMax) :
    ∃ nExp, numExperts r n = some nExp ∧ 0 ≤ nExp ∧ ∀ i < n, r.indices i < nExp := by
  induction n with
  | zero => exact ⟨0, rfl, le_rfl, by omega⟩
  | succ n ih =>
    obtain ⟨nExp, hn, h0, hlt⟩ := ih fun i hi => h i (by omega)
    rw [numExperts] at hn
    rw [numExperts, List.range_succ, List.foldlM_append, hn, Option.bind_eq_bind, Option.bind_some, List.foldlM_cons,
      if_neg (h n (by omega)).ne]
    by_cases hmore : nExp < r.indices n + 1
    · rw [if_pos hmore]
      refine ⟨_, rfl, by omega, fun i hi => ?_⟩
      rcases Nat.lt_succ_iff_lt_or_eq.mp hi with hi | rfl
      · have := hlt i hi
        omega
      · omega
    · rw [if_neg hmore]
      refine ⟨_, rfl, h0, fun i hi => ?_⟩
      rcases Nat.lt_succ_iff_lt_or_eq.mp hi with hi | rfl
      · exact hlt i hi
      · omega

omit [LinearOrder R] [Zero R] in
theorem counts_eq (h0 : 0 ≤ e) (he : e < nExp) :
    counts numTokens numActive r nExp e = (slotsOf numTokens numActive r e).length := by
  rw [counts, slotsOf]
  have hfold : ∀ (l : List ℕ) (c : ℤ → ℕ), l.foldl (fun counts i =>
      if 0 ≤ r.indices i ∧ r.indices i < nExp then
        Function.update counts (r.indices i) (counts (r.indices i) + 1) else counts) c e =
      c e + (l.filter fun i => r.indices i = e).length := by
    intro l
    induction l with
    | nil => exact fun c => rfl
    | cons i l ih =>
      intro c
      rw [List.foldl_cons, ih]
      by_cases hi : r.indices i = e
      · rw [if_pos (by rw [hi]; exact ⟨h0, he⟩), hi, Function.update_self,
          List.filter_cons_of_pos (by rw [decide_eq_true_eq]; exact hi), List.length_cons]
        omega
      · rw [List.filter_cons_of_neg (by rw [decide_eq_true_eq]; exact hi)]
        congr 1
        split_ifs
        · exact Function.update_of_ne (Ne.symm hi) _ _
        · rfl
  rw [hfold, Nat.zero_add]

/-! ## Giving up slots -/

omit [LinearOrder R] in
theorem foldl_drop (D : List ℕ) (r : Routing R) (i : ℕ) :
    (D.foldl Routing.drop r).indices i = (if i ∈ D then -1 else r.indices i) ∧
      (D.foldl Routing.drop r).gates i = if i ∈ D then some 0 else r.gates i := by
  induction D generalizing r with
  | nil => exact ⟨rfl, rfl⟩
  | cons d D ih =>
    obtain ⟨hindices, hgates⟩ := ih (r.drop d)
    rw [List.foldl_cons, hindices, hgates]
    by_cases hi : i ∈ D
    · rw [if_pos hi, if_pos hi, if_pos (List.mem_cons_of_mem d hi), if_pos (List.mem_cons_of_mem d hi)]
      exact ⟨rfl, rfl⟩
    rw [if_neg hi, if_neg hi, Routing.drop]
    dsimp only
    rcases eq_or_ne i d with rfl | hne
    · rw [Function.update_self, Function.update_self, if_pos List.mem_cons_self, if_pos List.mem_cons_self]
      exact ⟨rfl, rfl⟩
    · rw [Function.update_of_ne hne, Function.update_of_ne hne, if_neg (by simp [hne, hi]), if_neg (by simp [hne, hi])]
      exact ⟨rfl, rfl⟩

omit [Zero R] in
theorem sort_gather_perm (r : Routing R) (e : ℤ) :
    ((sort lessWeight (gather numTokens numActive r e)).map Prod.snd).Perm
      (slotsOf numTokens numActive r e) := by
  refine ((sort_perm _ _).map Prod.snd).trans (.of_eq ?_)
  rw [gather, List.map_map]
  exact List.map_id _

/-- The slots that an expert loses. -/
def victims (numTokens numActive capacity : ℕ) (alloc : ℤ → Bool) (r : Routing R) (e : ℤ) : List ℕ :=
  if (slotsOf numTokens numActive r e).length ≤ capacity then []
  else if !alloc e then []
  else dropped capacity (gather numTokens numActive r e)

variable {alloc : ℤ → Bool}

omit [Zero R] in
theorem mem_slotsOf_of_mem_victims (h : i ∈ victims numTokens numActive capacity alloc r e) :
    i ∈ slotsOf numTokens numActive r e := by
  rw [victims] at h
  split_ifs at h
  · cases h
  · cases h
  · rw [dropped, List.map_drop] at h
    exact (sort_gather_perm r e).subset (List.mem_of_mem_drop h)

/-- The counts are those of the start, and there is room for the slots of the expert. -/
theorem balanceExpert_eq {counts : ℤ → ℕ} (hcount : counts e = (slotsOf numTokens numActive r e).length) :
    balanceExpert numTokens numActive capacity alloc counts r e =
      some ((victims numTokens numActive capacity alloc r e).foldl Routing.drop r) := by
  have hlength : (gather numTokens numActive r e).length = (slotsOf numTokens numActive r e).length :=
    List.length_map _
  rw [balanceExpert, victims, hcount, hlength]
  split_ifs
  · rfl
  · rfl
  · omega
  · rfl

omit [LinearOrder R] in
/-- Slots of other experts may be given up before. -/
theorem slotsOf_foldl_drop {D : List ℕ} (he : 0 ≤ e) (hD : ∀ i ∈ D, r.indices i ≠ e) :
    slotsOf numTokens numActive (D.foldl Routing.drop r) e = slotsOf numTokens numActive r e := by
  refine List.filter_congr fun i _ => ?_
  rw [(foldl_drop D r i).1, decide_eq_decide]
  split_ifs with hi
  · exact iff_of_false (by omega) (hD i hi)
  · rfl

theorem victims_foldl_drop {D : List ℕ} (he : 0 ≤ e) (hD : ∀ i ∈ D, r.indices i ≠ e) :
    victims numTokens numActive capacity alloc (D.foldl Routing.drop r) e =
      victims numTokens numActive capacity alloc r e := by
  have hslots := @slotsOf_foldl_drop _ _ numTokens numActive _ _ _ he hD
  have hgather : gather numTokens numActive (D.foldl Routing.drop r) e = gather numTokens numActive r e := by
    change (slotsOf numTokens numActive (D.foldl Routing.drop r) e).map _ = (slotsOf numTokens numActive r e).map _
    rw [hslots]
    refine List.map_congr_left fun i hi => ?_
    rw [(foldl_drop D r i).2, if_neg fun hmem => hD i hmem (mem_slotsOf.mp hi).2]
  rw [victims, victims, hslots, hgather]

/-- The victims of all experts below `nExp`. -/
def allVictims (numTokens numActive capacity : ℕ) (alloc : ℤ → Bool) (r : Routing R) (nExp : ℕ) : List ℕ :=
  (List.range nExp).flatMap fun e : ℕ => victims numTokens numActive capacity alloc r e

/-- The rounds for the first experts. -/
theorem foldlM_balanceExpert {counts : ℤ → ℕ} {n : ℕ}
    (hcounts : ∀ e : ℕ, e < n → counts e = (slotsOf numTokens numActive r e).length) :
    ((List.range n).map (fun e : ℕ => (e : ℤ))).foldlM (balanceExpert numTokens numActive capacity alloc counts) r =
      some ((allVictims numTokens numActive capacity alloc r n).foldl Routing.drop r) := by
  induction n with
  | zero => rfl
  | succ n ih =>
    have hother : ∀ i ∈ allVictims numTokens numActive capacity alloc r n, r.indices i ≠ n := by
      intro i hi
      obtain ⟨e, he, hi⟩ := List.mem_flatMap.mp hi
      rw [(mem_slotsOf.mp (mem_slotsOf_of_mem_victims hi)).2]
      have := List.mem_range.mp he
      omega
    have hcount : counts (n : ℤ) = (slotsOf numTokens numActive
        ((allVictims numTokens numActive capacity alloc r n).foldl Routing.drop r) n).length := by
      rw [slotsOf_foldl_drop (by omega) hother]
      exact hcounts n (by omega)
    rw [List.range_succ, List.map_append, List.foldlM_append, ih fun e he => hcounts e (by omega),
      Option.bind_eq_bind, Option.bind_some, List.map_singleton, List.foldlM_cons, balanceExpert_eq hcount,
      Option.bind_eq_bind, Option.bind_some, victims_foldl_drop (by omega) hother, List.foldlM_nil, ← List.foldl_append,
      allVictims, allVictims, List.range_succ, List.flatMap_append, List.flatMap_singleton]
    rfl

/-- The slots of an expert are balanced if there is memory. -/
def Served (countsAlloc : Bool) (alloc : ℤ → Bool) (e : ℤ) : Prop := countsAlloc = true ∧ alloc e = true

/-- Exactly the victims are given up. -/
theorem balance_eq {countsAlloc : Bool} (hcap : 1 ≤ capacity)
    (hindices : ∀ i < numTokens * numActive, r.indices i < intMax) : ∃ D : List ℕ,
      balance numTokens numActive capacity countsAlloc alloc r = some (D.foldl Routing.drop r) ∧
      ∀ i, i ∈ D ↔ 0 ≤ r.indices i ∧ countsAlloc = true ∧
        i ∈ victims numTokens numActive capacity alloc r (r.indices i) := by
  obtain ⟨nExp, hnExp, h0, hlt⟩ := exists_numExperts hindices
  rw [balance, if_neg (by omega), hnExp, Option.bind_eq_bind, Option.bind_some]
  have hnone : ∀ i, i ∈ victims numTokens numActive capacity alloc r (r.indices i) → r.indices i < nExp :=
    fun i hi => hlt i (mem_slotsOf.mp (mem_slotsOf_of_mem_victims hi)).1
  split_ifs with hzero halloc
  · refine ⟨[], rfl, fun i => iff_of_false List.not_mem_nil ?_⟩
    rintro ⟨hi, -, hmem⟩
    have := hnone i hmem
    omega
  · refine ⟨[], rfl, fun i => iff_of_false List.not_mem_nil ?_⟩
    rintro ⟨-, htrue, -⟩
    rw [htrue] at halloc
    exact absurd halloc (by decide)
  · refine ⟨allVictims numTokens numActive capacity alloc r nExp.toNat, ?_, fun i => ?_⟩
    · exact foldlM_balanceExpert fun e he => counts_eq (by omega) (by omega)
    · rw [allVictims, List.mem_flatMap]
      constructor
      · rintro ⟨e, he, hmem⟩
        have heq := (mem_slotsOf.mp (mem_slotsOf_of_mem_victims hmem)).2
        exact ⟨by omega, by simpa using halloc, heq.symm ▸ hmem⟩
      · rintro ⟨hi, -, hmem⟩
        have := hnone i hmem
        exact ⟨(r.indices i).toNat, List.mem_range.mpr (by omega), by rw [Int.toNat_of_nonneg hi]; exact hmem⟩

/-! ## The largest weights are kept -/

/-- Where the weights are numbers, what is kept is at least as large as what is given up. -/
theorem le_of_mem_dropped (hnumbers : ∀ i ∈ slotsOf numTokens numActive r e, r.gates i ≠ none)
    (hi : i ∈ slotsOf numTokens numActive r e) (hkept : i ∉ dropped capacity (gather numTokens numActive r e))
    (hj : j ∈ dropped capacity (gather numTokens numActive r e)) :
    ∃ x y, r.gates i = some x ∧ r.gates j = some y ∧ y ≤ x := by
  have hpair : ∀ p ∈ gather numTokens numActive r e, p.1 = r.gates p.2 ∧ ∃ x, p.1 = some x := by
    intro p hp
    obtain ⟨k, hk, rfl⟩ := List.mem_map.mp hp
    exact ⟨rfl, Option.ne_none_iff_exists'.mp (hnumbers k hk)⟩
  have hless : ∀ p ∈ gather numTokens numActive r e, ∀ q ∈ gather numTokens numActive r e,
      lessWeight p q = true ↔ p.1.getD 0 < q.1.getD 0 := by
    intro p hp q hq
    obtain ⟨-, x, hx⟩ := hpair p hp
    obtain ⟨-, y, hy⟩ := hpair q hq
    rw [lessWeight, hx, hy, less, decide_eq_true_eq, Option.getD_some, Option.getD_some]
  have hsorted := @pairwise_sort _ _ _ (fun p : Option R × ℕ => p.1.getD 0) _ _ hless
  have hperm := sort_perm lessWeight (gather numTokens numActive r e)
  rw [← List.take_append_drop capacity (sort lessWeight _), List.pairwise_append] at hsorted
  obtain ⟨q, hq, rfl⟩ := List.mem_map.mp hj
  have hp : (r.gates i, i) ∈ (sort lessWeight (gather numTokens numActive r e)).take capacity := by
    have hmem : (r.gates i, i) ∈ sort lessWeight (gather numTokens numActive r e) :=
      hperm.symm.subset (List.mem_map_of_mem hi)
    rw [← List.take_append_drop capacity (sort lessWeight _), List.mem_append] at hmem
    exact hmem.resolve_right fun hdrop => hkept (List.mem_map_of_mem (f := Prod.snd) hdrop)
  have hle := hsorted.2.2 _ hp q hq
  obtain ⟨hq2, y, hy⟩ := hpair q (hperm.subset (List.mem_of_mem_drop hq))
  obtain ⟨x, hx⟩ := Option.ne_none_iff_exists'.mp (hnumbers i hi)
  rw [hx, hy, Option.getD_some, Option.getD_some] at hle
  exact ⟨x, y, hx, hq2 ▸ hy, hle⟩

omit [LinearOrder R] in
theorem slotsOf_drop_eq_filter {D : List ℕ} (he : 0 ≤ e) :
    slotsOf numTokens numActive (D.foldl Routing.drop r) e =
      (slotsOf numTokens numActive r e).filter fun i => i ∉ D := by
  rw [slotsOf, slotsOf, List.filter_filter]
  refine List.filter_congr fun i _ => ?_
  rw [(foldl_drop D r i).1, ← Bool.decide_and, decide_eq_decide]
  split_ifs with hi
  · exact iff_of_false (by omega) (not_and_of_not_left _ (not_not.mpr hi))
  · exact (and_iff_right hi).symm

theorem filter_notMem_append {a b : List ℕ} (h : (a ++ b).Nodup) : ((a ++ b).filter fun i => i ∉ b) = a := by
  obtain ⟨-, -, hdisjoint⟩ := List.nodup_append.mp h
  have hfront : (a.filter fun i => i ∉ b) = a :=
    List.filter_eq_self.mpr fun i hi => decide_eq_true fun hb => hdisjoint i hi i hb rfl
  have hback : (b.filter fun i => i ∉ b) = [] :=
    List.filter_eq_nil_iff.mpr fun i hi h => of_decide_eq_true h hi
  rw [List.filter_append, hfront, hback, List.append_nil]

omit [Zero R] in
/-- As many slots as the capacity says are left. -/
theorem length_kept (h : capacity ≤ (slotsOf numTokens numActive r e).length) :
    ((slotsOf numTokens numActive r e).filter fun i =>
      i ∉ dropped capacity (gather numTokens numActive r e)).length = capacity := by
  have hperm := @sort_gather_perm _ _ numTokens numActive r e
  have hnodup := hperm.nodup_iff.mpr (nodup_slotsOf r e)
  have hlength := hperm.length_eq
  rw [← (hperm.filter _).length_eq, dropped, List.map_drop]
  generalize (sort lessWeight (gather numTokens numActive r e)).map Prod.snd = l at hnodup hlength ⊢
  rw [← List.take_append_drop capacity l] at hnodup
  have hkept := filter_notMem_append hnodup
  rw [List.take_append_drop] at hkept
  rw [hkept, List.length_take]
  omega

/-- Whatever allocations fail. -/
theorem balance_balanced {countsAlloc : Bool} (hcap : 1 ≤ capacity)
    (hindices : ∀ i < numTokens * numActive, r.indices i < intMax) :
    ∃ r', balance numTokens numActive capacity countsAlloc alloc r = some r' ∧
      Balanced numTokens numActive capacity (Served countsAlloc alloc) r r' := by
  obtain ⟨D, heq, hD⟩ := @balance_eq _ _ _ _ _ _ _ alloc countsAlloc hcap hindices
  refine ⟨_, heq, ?_⟩
  have hmem : ∀ e, 0 ≤ e → ∀ i ∈ slotsOf numTokens numActive r e,
      (i ∈ D ↔ countsAlloc = true ∧ i ∈ victims numTokens numActive capacity alloc r e) := by
    intro e he i hi
    rw [hD, (mem_slotsOf.mp hi).2]
    exact and_iff_right he
  have hkept : ∀ e, 0 ≤ e → (slotsOf numTokens numActive r e).length ≤ capacity ∨ ¬Served countsAlloc alloc e →
      slotsOf numTokens numActive (D.foldl Routing.drop r) e = slotsOf numTokens numActive r e := by
    intro e he hnot
    rw [slotsOf_drop_eq_filter he]
    refine List.filter_eq_self.mpr fun i hi => decide_eq_true fun hiD => ?_
    obtain ⟨hcounts, hvictim⟩ := (hmem e he i hi).mp hiD
    rw [victims] at hvictim
    split_ifs at hvictim with hle halloc
    · cases hvictim
    · cases hvictim
    · exact hnot.elim hle fun hns => hns ⟨hcounts, by simpa using halloc⟩
  have hcut : ∀ e, 0 ≤ e → Served countsAlloc alloc e → capacity < (slotsOf numTokens numActive r e).length →
      (slotsOf numTokens numActive (D.foldl Routing.drop r) e).length = capacity := by
    intro e he hserved hover
    rw [slotsOf_drop_eq_filter he, ← @length_kept _ _ _ numActive _ _ _ hover.le]
    congr 1
    refine List.filter_congr fun i hi => ?_
    rw [decide_eq_decide, hmem e he i hi, victims, if_neg (by omega), if_neg (by rw [hserved.2]; decide)]
    exact not_congr (and_iff_right hserved.1)
  refine ⟨fun e he hserved => ?_, hkept, hcut, fun e he hnumbers i hi j hj hri hrj => ?_, fun i hi => ?_, fun i hi => ?_⟩
  · rcases Nat.lt_or_ge capacity (slotsOf numTokens numActive r e).length with hover | hle
    · exact (hcut e he hserved hover).le
    · rw [hkept e he (.inl hle)]
      exact hle
  · have hiD : i ∉ D := fun hiD => by
      rw [(foldl_drop D r i).1, if_pos hiD] at hri
      omega
    have hjD : j ∈ D := by
      by_contra hjD
      rw [(foldl_drop D r j).1, if_neg hjD] at hrj
      exact hrj (mem_slotsOf.mp hj).2
    obtain ⟨hcounts, hvictim⟩ := (hmem e he j hj).mp hjD
    have hnot : i ∉ victims numTokens numActive capacity alloc r e := fun hv => hiD ((hmem e he i hi).mpr ⟨hcounts, hv⟩)
    rw [victims] at hvictim hnot
    split_ifs at hvictim hnot
    · cases hvictim
    · cases hvictim
    · exact le_of_mem_dropped hnumbers hi hnot hvictim
  · rw [(foldl_drop D r i).1] at hi ⊢
    rw [(foldl_drop D r i).2]
    split_ifs at hi ⊢ with hiD
    · exact ⟨rfl, rfl⟩
    · exact absurd rfl hi
  · have hiD : i ∉ D := fun hiD => by
      have := ((hD i).mp hiD).1
      rw [(foldl_drop D r i).1, if_pos hiD] at hi
      omega
    rw [(foldl_drop D r i).2, if_neg hiD]

/-- Two tokens, each with one slot, for the same expert. -/
def twoTokens (x y : Option ℤ) (e : ℤ) : Routing ℤ where
  gates i := if i = 0 then x else y
  indices _ := e

theorem balance_balanced_twoTokens :
    ∃ r', balance 2 1 1 true (fun _ => true) (twoTokens (some 1) (some 2) 0) = some r' ∧
      Balanced 2 1 1 (Served true fun _ => true) (twoTokens (some 1) (some 2) 0) r' :=
  balance_balanced le_rfl fun _ _ => show (0 : ℤ) < intMax by decide

/-- No memory for the counts, an index that cannot be increased, and a weight that is NaN. -/
theorem not_balanced_twoTokens :
    (∃ r', balance 2 1 1 false (fun _ => true) (twoTokens (some 1) (some 2) 0) = some r' ∧
      (slotsOf 2 1 r' 0).length = 2) ∧
    balance 2 1 1 true (fun _ => true) (twoTokens (some 1) (some 2) intMax) = none ∧
    ∃ r', balance 2 1 1 true (fun _ => true) (twoTokens none (some 2) 0) = some r' ∧
      r'.indices 0 = 0 ∧ r'.indices 1 = -1 :=
  ⟨⟨_, rfl, rfl⟩, rfl, _, rfl, rfl, rfl⟩

end SneppxAlg.ExpertCapacity
