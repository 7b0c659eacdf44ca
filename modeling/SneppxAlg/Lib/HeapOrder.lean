import Mathlib.Data.Multiset.Range
import Mathlib.Order.Basic

/-!
# Heaps stored in arrays

The binary tree whose nodes are numbered from the root, row by row, with a key at each node. In an
ordered heap no key is smaller than that of the node above it, so the root has a smallest key.

While an element moves through the tree, the order fails only around the node `j` where it is: at
the edge above `j` (`Rising`) when the element moves up, at the edges below `j` (`Sinking`) when it
moves down. In both cases the nodes below `j` are not smaller than the node above it, so that the
exchange that moves the element leaves no other edge out of order.
-/

namespace Lib.HeapOrder

variable {β α : Type*}

/-- The node above `i`. -/
def parent (i : ℕ) : ℕ := (i - 1) / 2

theorem parent_lt {i : ℕ} (hi : 0 < i) : parent i < i := by
  unfold parent
  omega

theorem eq_child_of_parent {i j : ℕ} (hi : 0 < i) (h : parent i = j) :
    i = 2 * j + 1 ∨ i = 2 * j + 2 := by
  unfold parent at h
  omega

@[simp] theorem parent_left (j : ℕ) : parent (2 * j + 1) = j := by
  unfold parent
  omega

@[simp] theorem parent_right (j : ℕ) : parent (2 * j + 2) = j := by
  unfold parent
  omega

/-! ## Exchanging two elements -/

/-- The array with the elements at `i` and `j` exchanged. -/
def exchange (h : ℕ → β) (i j : ℕ) : ℕ → β := Function.update (Function.update h i (h j)) j (h i)

variable {h : ℕ → β} {i j n : ℕ}

@[simp] theorem exchange_right : exchange h i j j = h i := Function.update_self ..

@[simp] theorem exchange_left : exchange h i j i = h j := by
  unfold exchange
  by_cases hij : i = j
  · subst hij
    simp
  · rw [Function.update_of_ne hij, Function.update_self]

theorem exchange_of_ne {k : ℕ} (hi : k ≠ i) (hj : k ≠ j) : exchange h i j k = h k := by
  rw [exchange, Function.update_of_ne hj, Function.update_of_ne hi]

theorem exchange_eq_comp_swap : exchange h i j = h ∘ Equiv.swap i j := by
  funext k
  by_cases hi : k = i
  · subst hi
    simp
  · by_cases hj : k = j
    · subst hj
      simp
    · simp [exchange_of_ne hi hj, Equiv.swap_apply_of_ne_of_ne hi hj]

/-- The elements at the first `n` places. -/
def items (h : ℕ → β) (n : ℕ) : Multiset β := (Multiset.range n).map h

@[simp] theorem items_zero : items h 0 = 0 := rfl

theorem items_succ : items h (n + 1) = h n ::ₘ items h n := by
  rw [items, Multiset.range_succ, Multiset.map_cons]
  rfl

@[simp] theorem card_items : (items h n).card = n := by
  rw [items, Multiset.card_map, Multiset.card_range]

theorem mem_items {x : β} : x ∈ items h n ↔ ∃ i < n, h i = x := by
  simp [items]

theorem items_congr {h' : ℕ → β} (hh : ∀ i < n, h i = h' i) : items h n = items h' n :=
  Multiset.map_congr rfl fun i hi => hh i (Multiset.mem_range.mp hi)

theorem range_map_swap (hi : i < n) (hj : j < n) :
    (Multiset.range n).map (Equiv.swap i j) = Multiset.range n := by
  have hmem : ∀ k < n, Equiv.swap i j k < n := by
    intro k hk
    rw [Equiv.swap_apply_def]
    split_ifs <;> assumption
  refine (Multiset.Nodup.ext ((Multiset.nodup_range n).map (Equiv.injective _))
    (Multiset.nodup_range n)).mpr fun k => ?_
  rw [Multiset.mem_map, Multiset.mem_range]
  constructor
  · rintro ⟨l, hl, rfl⟩
    exact hmem l (Multiset.mem_range.mp hl)
  · intro hk
    exact ⟨Equiv.swap i j k, Multiset.mem_range.mpr (hmem k hk), Equiv.swap_apply_self ..⟩

theorem items_exchange (hi : i < n) (hj : j < n) : items (exchange h i j) n = items h n := by
  rw [items, exchange_eq_comp_swap, ← Multiset.map_map, range_map_swap hi hj, items]

/-! ## Order -/

variable [LinearOrder α] {key : β → α}

def Ordered (key : β → α) (h : ℕ → β) (n : ℕ) : Prop :=
  ∀ i, 0 < i → i < n → key (h (parent i)) ≤ key (h i)

/-- Only the edge above `j` may be out of order. -/
structure Rising (key : β → α) (h : ℕ → β) (n j : ℕ) : Prop where
  edge : ∀ i, 0 < i → i < n → i ≠ j → key (h (parent i)) ≤ key (h i)
  bridge : 0 < j → ∀ i, 0 < i → i < n → parent i = j → key (h (parent j)) ≤ key (h i)

/-- Only the edges below `j` may be out of order. -/
structure Sinking (key : β → α) (h : ℕ → β) (n j : ℕ) : Prop where
  edge : ∀ i, 0 < i → i < n → parent i ≠ j → key (h (parent i)) ≤ key (h i)
  bridge : 0 < j → ∀ i, 0 < i → i < n → parent i = j → key (h (parent j)) ≤ key (h i)

theorem Ordered.root_le (ho : Ordered key h n) : ∀ i < n, key (h 0) ≤ key (h i) := by
  intro i
  induction i using Nat.strong_induction_on with
  | _ i ih =>
    intro hi
    rcases Nat.eq_zero_or_pos i with rfl | hpos
    · exact le_rfl
    · have hp : parent i < i := parent_lt hpos
      exact (ih (parent i) hp (hp.trans hi)).trans (ho i hpos hi)

theorem Rising.ordered (hr : Rising key h n j) (hj : 0 < j → key (h (parent j)) ≤ key (h j)) :
    Ordered key h n := by
  intro i hpos hi
  by_cases hij : i = j
  · subst hij
    exact hj hpos
  · exact hr.edge i hpos hi hij

theorem Sinking.ordered (hs : Sinking key h n j)
    (hj : ∀ i, 0 < i → i < n → parent i = j → key (h j) ≤ key (h i)) : Ordered key h n := by
  intro i hpos hi
  by_cases hij : parent i = j
  · rw [hij]
    exact hj i hpos hi hij
  · exact hs.edge i hpos hi hij

theorem Rising.exchange (hr : Rising key h n j) (hpos : 0 < j) (hjn : j < n)
    (hlt : key (h j) < key (h (parent j))) :
    Rising key (exchange h (parent j) j) n (parent j) := by
  have hp : parent j < j := parent_lt hpos
  -- the nodes below `parent j` other than `j` are not smaller than it was
  have hsib : ∀ i, 0 < i → i < n → i ≠ j → parent i = parent j → key (h (parent j)) ≤ key (h i) := by
    intro i hi0 hi hij hpi
    rw [← hpi]
    exact hr.edge i hi0 hi hij
  constructor
  · intro i hi0 hi hip
    by_cases hij : i = j
    · subst hij
      simpa using hlt.le
    · rw [exchange_of_ne hip hij]
      by_cases hpj : parent i = j
      · rw [hpj, exchange_right]
        exact hr.bridge hpos i hi0 hi hpj
      · by_cases hpp : parent i = parent j
        · rw [hpp, exchange_left]
          exact hlt.le.trans (hsib i hi0 hi hij hpp)
        · rw [exchange_of_ne hpp hpj]
          exact hr.edge i hi0 hi hij
  · intro hpp0 i hi0 hi hpi
    have hup : parent (parent j) < parent j := parent_lt hpp0
    have hedge : key (h (parent (parent j))) ≤ key (h (parent j)) :=
      hr.edge (parent j) hpp0 (hp.trans hjn) hp.ne
    rw [exchange_of_ne hup.ne (hup.trans hp).ne]
    by_cases hij : i = j
    · subst hij
      simpa using hedge
    · have hip : i ≠ parent j := by
        intro hip
        rw [hip] at hpi
        exact hup.ne hpi
      rw [exchange_of_ne hip hij]
      exact hedge.trans (hsib i hi0 hi hij hpi)

theorem Sinking.exchange {c : ℕ} (hs : Sinking key h n j) (hcn : c < n) (hcj : parent c = j)
    (hc0 : 0 < c) (hlt : key (h c) < key (h j))
    (hmin : ∀ i, 0 < i → i < n → parent i = j → key (h c) ≤ key (h i)) :
    Sinking key (exchange h j c) n c := by
  have hjc : j < c := hcj ▸ parent_lt hc0
  constructor
  · intro i hi0 hi hpc
    by_cases hic : i = c
    · subst hic
      rw [hcj]
      simpa using hlt.le
    · by_cases hij : i = j
      · subst hij
        have hup : parent i < i := parent_lt hi0
        rw [exchange_left, exchange_of_ne hup.ne (hup.trans hjc).ne]
        exact hs.bridge hi0 c hc0 hcn hcj
      · rw [exchange_of_ne hij hic]
        by_cases hpj : parent i = j
        · rw [hpj, exchange_left]
          exact hmin i hi0 hi hpj
        · rw [exchange_of_ne hpj hpc]
          exact hs.edge i hi0 hi hpj
  · intro _ i hi0 hi hpi
    have hci : c < i := hpi ▸ parent_lt hi0
    rw [hcj, exchange_left, exchange_of_ne (hjc.trans hci).ne' hci.ne']
    have hedge : key (h (parent i)) ≤ key (h i) := hs.edge i hi0 hi (by rw [hpi]; exact hjc.ne')
    rwa [hpi] at hedge

end Lib.HeapOrder
