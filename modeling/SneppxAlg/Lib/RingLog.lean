import Mathlib.Data.List.Rotate
import Mathlib.Data.List.ReduceOption

/-!
# The end of a log, kept in a ring

Entry `n` of a log is put into place `n % ring.length` of a ring. The ring then has the last entries of the log
and nothing else (`Holds.push`), and read from the place of the next entry on it has them in order
(`Holds.rotate`).
-/

namespace Lib.RingLog

variable {α : Type*} {log : List α} {ring : List (Option α)}

/-- The last entries of the log are in their places, and no other place is in use. -/
structure Holds (log : List α) (ring : List (Option α)) : Prop where
  entry : ∀ i (hi : i < log.length), log.length ≤ i + ring.length → ring[i % ring.length]? = some (some log[i])
  unused : ∀ j < ring.length, log.length ≤ j → ring[j]? = some none

/-- The next place is not in use, or has the oldest entry. -/
theorem Holds.next (h : Holds log ring) (hpos : 0 < ring.length) :
    (log.length < ring.length ∧ ring[log.length % ring.length]? = some none) ∨
      (ring.length ≤ log.length ∧ ∃ x ∈ log, ring[log.length % ring.length]? = some (some x)) := by
  rcases Nat.lt_or_ge log.length ring.length with hlt | hge
  · exact .inl ⟨hlt, by rw [Nat.mod_eq_of_lt hlt]; exact h.unused _ hlt le_rfl⟩
  · have hentry := h.entry (log.length - ring.length) (by omega) (by omega)
    rw [← Nat.add_mod_right, Nat.sub_add_cancel hge] at hentry
    exact .inr ⟨hge, _, List.getElem_mem _, hentry⟩

/-- Writing the next entry. -/
theorem Holds.push (h : Holds log ring) (hpos : 0 < ring.length) (x : α) :
    Holds (log ++ [x]) (ring.set (log.length % ring.length) (some x)) := by
  have hplace : log.length % ring.length < ring.length := Nat.mod_lt _ hpos
  constructor
  · intro i hi hlast
    rw [List.length_append, List.length_singleton] at hi hlast
    rw [List.length_set] at hlast ⊢
    rcases Nat.lt_or_ge i log.length with hlt | hge
    · -- another one of the last entries has another place
      have hne : log.length % ring.length ≠ i % ring.length := by
        intro heq
        have hdvd : ring.length ∣ log.length - i := 
          Nat.dvd_of_mod_eq_zero (Nat.sub_mod_eq_zero_of_mod_eq heq)
        have := Nat.le_of_dvd (by omega) hdvd
        omega
      rw [List.getElem?_set_ne hne, h.entry i hlt (by omega), List.getElem_append_left hlt]
    · obtain rfl : i = log.length := by omega
      rw [List.getElem?_set_self hplace, List.getElem_concat_length rfl]
  · intro j hj hunused
    rw [List.length_set] at hj
    rw [List.length_append, List.length_singleton] at hunused
    have hne : log.length % ring.length ≠ j := by
      rw [Nat.mod_eq_of_lt (by omega)]
      omega
    rw [List.getElem?_set_ne hne, h.unused j hj (by omega)]

/-- From the next place on: the places that are not in use, and then the last entries in their order. -/
theorem Holds.rotate (h : Holds log ring) : ring.rotate log.length =
    List.replicate (ring.length - log.length) none ++ (log.drop (log.length - ring.length)).map some := by
  refine List.ext_getElem? fun j => ?_
  rcases Nat.lt_or_ge j ring.length with hj | hj
  · rw [List.getElem?_rotate hj]
    rcases Nat.lt_or_ge (j + log.length) ring.length with hlt | hge
    · rw [Nat.mod_eq_of_lt hlt, h.unused _ hlt (by omega),
        List.getElem?_append_left (by rw [List.length_replicate]; omega),
        List.getElem?_replicate_of_lt (by omega)]
    · have hentry := h.entry (j + log.length - ring.length) (by omega) (by omega)
      rw [← Nat.add_mod_right, Nat.sub_add_cancel hge] at hentry
      rw [hentry, List.getElem?_append_right (by rw [List.length_replicate]; omega), List.length_replicate,
        List.getElem?_map, List.getElem?_drop,
        show log.length - ring.length + (j - (ring.length - log.length)) = j + log.length - ring.length by omega,
        List.getElem?_eq_getElem (by omega), Option.map_some]
  · rw [List.getElem?_eq_none (by rw [List.length_rotate]; exact hj), List.getElem?_eq_none]
    rw [List.length_append, List.length_replicate, List.length_map, List.length_drop]
    omega

theorem reduceOption_map_some (l : List α) : (l.map some).reduceOption = l := by
  induction l with
  | nil => rfl
  | cons x l ih => rw [List.map_cons, List.reduceOption_cons_of_some, ih]

theorem Holds.reduceOption_rotate (h : Holds log ring) :
    (ring.rotate log.length).reduceOption = log.drop (log.length - ring.length) := by
  rw [h.rotate, List.reduceOption_append, List.reduceOption_replicate_none, List.nil_append,
    reduceOption_map_some]

end Lib.RingLog
