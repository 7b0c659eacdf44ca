import Mathlib

/-!
# Singly linked lists in a heap

The nodes that are reached from a pointer by following `next` up to the null pointer form a list
(`IsList`). A list stays when nodes outside of it change, and a search along it is a search in the
list of its nodes.
-/

namespace Lib.LinkedList

variable {ν : Type*} {next : ν → Option ℕ} {h h' : ℕ → Option ν} {p : Option ℕ} {l : List ℕ}

/-- The nodes reached from `p` are `l`, in this order. -/
def IsList (next : ν → Option ℕ) (h : ℕ → Option ν) : Option ℕ → List ℕ → Prop
  | p, [] => p = none
  | p, a :: l => p = some a ∧ ∃ s, h a = some s ∧ IsList next h (next s) l

theorem isList_none : IsList next h none l ↔ l = [] := by
  cases l with
  | nil => simp [IsList]
  | cons a l => simp [IsList]

theorem isList_some {a : ℕ} : IsList next h (some a) l ↔
    ∃ s l', l = a :: l' ∧ h a = some s ∧ IsList next h (next s) l' := by
  cases l with
  | nil => simp [IsList]
  | cons b l =>
    constructor
    · rintro ⟨hab, s, hs, hl⟩
      obtain rfl := Option.some.inj hab
      exact ⟨s, l, rfl, hs, hl⟩
    · rintro ⟨s, l', heq, hs, hl⟩
      obtain ⟨rfl, rfl⟩ := List.cons.inj heq
      exact ⟨rfl, s, hs, hl⟩

/-- Only the links of the nodes of a list matter. -/
theorem IsList.congr (hl : IsList next h p l) (heq : ∀ a ∈ l, (h' a).map next = (h a).map next) :
    IsList next h' p l := by
  induction l generalizing p with
  | nil => exact hl
  | cons a l ih =>
    obtain ⟨hp, s, hs, hl⟩ := hl
    rw [List.forall_mem_cons] at heq
    have ha := heq.1
    rw [hs, Option.map_some] at ha
    obtain ⟨s', hs', hnext⟩ := Option.map_eq_some_iff.mp ha
    exact ⟨hp, s', hs', hnext ▸ ih hl heq.2⟩

theorem IsList.update (hl : IsList next h p l) {a : ℕ} (ha : a ∉ l) (s : Option ν) :
    IsList next (Function.update h a s) p l := by
  refine hl.congr fun b hb => ?_
  rw [Function.update_of_ne (ne_of_mem_of_not_mem hb ha)]

theorem IsList.isSome (hl : IsList next h p l) {a : ℕ} (ha : a ∈ l) : ∃ s, h a = some s := by
  induction l generalizing p with
  | nil => simp at ha
  | cons b l ih =>
    obtain ⟨-, s, hs, hl⟩ := hl
    rcases List.mem_cons.mp ha with rfl | ha
    · exact ⟨s, hs⟩
    · exact ih hl ha

/-- A new first node. -/
theorem IsList.cons (hl : IsList next h p l) {a : ℕ} (ha : a ∉ l) {s : ν} (hs : next s = p) :
    IsList next (Function.update h a (some s)) (some a) (a :: l) :=
  ⟨rfl, s, Function.update_self a (some s) h, hs ▸ hl.update ha (some s)⟩

/-- The first node along a list that satisfies a predicate, if it is reached in `n` steps. -/
def find (next : ν → Option ℕ) (h : ℕ → Option ν) (P : ν → Bool) : ℕ → Option ℕ → Option (Option ℕ)
  | 0, _ => none
  | _ + 1, none => some none
  | n + 1, some a => (h a).bind fun s => if P s then some (some a) else find next h P n (next s)

theorem find_eq (hl : IsList next h p l) {n : ℕ} (hn : l.length < n) (P : ν → Bool) :
    find next h P n p = some (l.find? fun a => (h a).any P) := by
  induction l generalizing p n with
  | nil =>
    obtain ⟨n, rfl⟩ : ∃ k, n = k + 1 := ⟨n - 1, by simp at hn; omega⟩
    obtain rfl : p = none := hl
    rfl
  | cons a l ih =>
    obtain ⟨n, rfl⟩ : ∃ k, n = k + 1 := ⟨n - 1, by simp at hn; omega⟩
    obtain ⟨rfl, s, hs, hl⟩ := hl
    rw [find, hs, Option.bind_some, List.find?_cons, hs]
    cases hP : P s with
    | true => simp [hP]
    | false => simpa [hP] using ih hl (by simpa using hn)

end Lib.LinkedList
