import Mathlib.Data.List.Nodup
import Mathlib.Logic.Function.Basic

/-!
# Slots in the order of their last use

Each live slot carries the time of its last use. `InOrder` relates the slots and their times to the
list of the live slots with the least recently used one first: a use moves a slot to the end of the
list, and the head is the slot with the least time.
-/

namespace Lib.Recency

variable {ι : Type*} {live live' : ι → Prop} {stamp stamp' : ι → ℕ} {order : List ι}
  {i : ι}

/-- `order` lists the live slots, the least recently used first. -/
structure InOrder (live : ι → Prop) (stamp : ι → ℕ) (order : List ι) : Prop where
  mem : ∀ i, i ∈ order ↔ live i
  sorted : order.Pairwise fun i j => stamp i < stamp j

theorem InOrder.nodup (h : InOrder live stamp order) : order.Nodup :=
  h.sorted.imp fun hlt heq => absurd hlt (by rw [heq]; exact Nat.lt_irrefl _)

theorem InOrder.nil (h : ∀ i, ¬ live i) : InOrder live stamp [] :=
  ⟨fun i => iff_of_false List.not_mem_nil (h i), .nil⟩

/-- The head is the least recently used slot. -/
theorem InOrder.head_lt {rest : List ι} (h : InOrder live stamp (i :: rest)) :
    live i ∧ ∀ j, live j → j ≠ i → stamp i < stamp j := by
  refine ⟨(h.mem i).mp List.mem_cons_self, fun j hj hne => ?_⟩
  have hmem := (h.mem j).mpr hj
  rw [List.mem_cons] at hmem
  exact (List.pairwise_cons.mp h.sorted).1 j (hmem.resolve_left hne)

variable [DecidableEq ι]

/-- A slot that is used goes to the end. -/
theorem InOrder.touch (h : InOrder live stamp order) (hlive : ∀ j, live' j ↔ j = i ∨ live j)
    (hstamp : ∀ j ≠ i, stamp' j = stamp j) (hlast : ∀ j, live j → j ≠ i → stamp j < stamp' i) :
    InOrder live' stamp' (order.erase i ++ [i]) where
  mem := by
    intro j
    rw [List.mem_append, List.mem_singleton, h.nodup.mem_erase_iff, h.mem, hlive]
    by_cases hj : j = i <;> simp [hj]
  sorted := by
    have hmem : ∀ j ∈ order.erase i, j ≠ i ∧ live j := fun j hj =>
      have hj' := h.nodup.mem_erase_iff.mp hj
      ⟨hj'.1, (h.mem j).mp hj'.2⟩
    rw [List.pairwise_append]
    refine ⟨?_, List.pairwise_singleton _ _, ?_⟩
    · apply (h.sorted.sublist (List.erase_sublist)).imp_of_mem
      intro j k hj hk hlt
      rwa [hstamp j (hmem j hj).1, hstamp k (hmem k hk).1]
    · intro j hj k hk
      obtain rfl := List.mem_singleton.mp hk
      rw [hstamp j (hmem j hj).1]
      exact hlast j (hmem j hj).2 (hmem j hj).1

theorem InOrder.remove (h : InOrder live stamp order) (hlive : ∀ j, live' j ↔ j ≠ i ∧ live j)
    (hstamp : ∀ j ≠ i, stamp' j = stamp j) : InOrder live' stamp' (order.erase i) where
  mem := by
    intro j
    rw [h.nodup.mem_erase_iff, h.mem, hlive]
  sorted := by
    apply (h.sorted.sublist (List.erase_sublist)).imp_of_mem
    intro j k hj hk hlt
    rwa [hstamp j (h.nodup.mem_erase_iff.mp hj).1, hstamp k (h.nodup.mem_erase_iff.mp hk).1]

end Lib.Recency
