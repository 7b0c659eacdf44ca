import Mathlib.Order.WithBot

/-!
# Registers where the last writer wins

A write carries a stamp and takes effect if the register has no stamp or a smaller one. After a
sequence of writes the register holds the one with the greatest stamp, in whatever order they came,
unless its stamp was not smaller to begin with.
-/

namespace Lib.LastWriter

variable {β v : Type*} [LinearOrder β]

@[ext]
structure Register (β v : Type*) where
  stamp : WithBot β
  value : v

def Register.write (s : Register β v) (m : β × v) : Register β v :=
  if s.stamp < m.1 then { stamp := m.1, value := m.2 } else s

variable {s : Register β v} {m g : β × v} {l : List (β × v)}

theorem write_of_lt (h : s.stamp < m.1) : s.write m = { stamp := m.1, value := m.2 } := if_pos h

theorem write_of_le (h : m.1 ≤ s.stamp) : s.write m = s := if_neg h.not_gt

/-- After a write the stamp is at least that of the write. -/
theorem le_stamp_write : m.1 ≤ (s.write m).stamp := by
  rcases lt_or_ge s.stamp m.1 with h | h
  · rw [write_of_lt h]
  · rw [write_of_le h]
    exact h

theorem foldl_write_of_le (h : ∀ m ∈ l, m.1 ≤ s.stamp) : l.foldl Register.write s = s := by
  induction l with
  | nil => rfl
  | cons m l ih =>
    rw [List.foldl_cons, write_of_le (h m List.mem_cons_self)]
    exact ih fun m' hm' => h m' (List.mem_cons_of_mem _ hm')

/-- Only the write with the greatest stamp matters. -/
theorem foldl_write (hg : g ∈ l) (hmax : ∀ m ∈ l, m.1 ≤ g.1) (huniq : ∀ m ∈ l, m.1 = g.1 → m = g) :
    l.foldl Register.write s = s.write g := by
  induction l generalizing s with
  | nil => cases hg
  | cons m l ih =>
    have hmax' : ∀ m ∈ l, m.1 ≤ g.1 := fun m' hm' => hmax m' (List.mem_cons_of_mem _ hm')
    have huniq' : ∀ m ∈ l, m.1 = g.1 → m = g := fun m' hm' => huniq m' (List.mem_cons_of_mem _ hm')
    rw [List.foldl_cons]
    by_cases heq : m = g
    · subst heq
      exact foldl_write_of_le fun m' hm' =>
        le_trans (WithBot.coe_le_coe.mpr (hmax' m' hm')) le_stamp_write
    · have hgl : g ∈ l := (List.mem_cons.mp hg).resolve_left (Ne.symm heq)
      have hlt : m.1 < g.1 := lt_of_le_of_ne (hmax m List.mem_cons_self)
        fun h => heq (huniq m List.mem_cons_self h)
      rw [ih hgl hmax' huniq']
      rcases lt_or_ge s.stamp m.1 with h | h
      · -- what `m` has written is overwritten
        have hsg : s.stamp < g.1 := h.trans (WithBot.coe_lt_coe.mpr hlt)
        rw [write_of_lt h, write_of_lt hsg, write_of_lt (WithBot.coe_lt_coe.mpr hlt)]
      · rw [write_of_le h]

end Lib.LastWriter
