import Mathlib

/-!
# Binary trees with a place in them

A place in a binary tree is the subtree there and the path to it: for each ancestor, on which side of it the place is,
its label and its other subtree. Programs with parent pointers go up and down along such paths. The labels of the tree,
from left to right, are those before the place, those of the subtree, and those behind it (`toList_plug`).

The loop that takes a tree apart with a stack of its own visits the labels from left to right, and fits on its stack
exactly if the tree is not deeper to the left than the stack is high (`unstack_eq`).
-/

namespace Lib.TreeZipper

/-- A binary tree. -/
inductive BinTree (α : Type*) where
  | nil
  | node (l : BinTree α) (a : α) (r : BinTree α)

/-- A side of a node. -/
inductive Side where
  | left
  | right
deriving DecidableEq

/-- An ancestor of a place, which is on the side `side` of it. -/
structure Frame (α : Type*) where
  side : Side
  label : α
  other : BinTree α

variable {α K : Type*}

namespace BinTree

/-- The labels from left to right. -/
def toList : BinTree α → List α
  | nil => []
  | node l a r => l.toList ++ a :: r.toList

/-- The number of nodes. -/
def size : BinTree α → ℕ
  | nil => 0
  | node l _ r => l.size + r.size + 1

/-- The number of nodes on the longest path. -/
def height : BinTree α → ℕ
  | nil => 0
  | node l _ r => max l.height r.height + 1

def leftmost : BinTree α → Option α
  | nil => none
  | node nil a _ => some a
  | node l _ _ => l.leftmost

def rightmost : BinTree α → Option α
  | nil => none
  | node _ a nil => some a
  | node _ _ r => r.rightmost

theorem length_toList (t : BinTree α) : t.toList.length = t.size := by
  induction t with
  | nil => rfl
  | node l a r ihl ihr =>
    rw [toList, size, List.length_append, List.length_cons, ihl, ihr]
    omega

theorem toList_eq_nil_iff {t : BinTree α} : t.toList = [] ↔ t = nil := by
  cases t with
  | nil => simp [toList]
  | node l a r => simp [toList]

theorem leftmost_eq (t : BinTree α) : t.leftmost = t.toList.head? := by
  induction t with
  | nil => rfl
  | node l a r ihl ihr =>
    cases l with
    | nil => rfl
    | node ll la lr =>
      have hne : (node ll la lr).toList ≠ [] := fun h => nomatch toList_eq_nil_iff.mp h
      rw [toList, List.head?_append_of_ne_nil _ hne]
      exact ihl

theorem rightmost_eq (t : BinTree α) : t.rightmost = t.toList.getLast? := by
  induction t with
  | nil => rfl
  | node l a r ihl ihr =>
    cases r with
    | nil => simp [rightmost, toList]
    | node rl ra rr =>
      have hne : (node rl ra rr).toList ≠ [] := fun h => nomatch toList_eq_nil_iff.mp h
      rw [toList, List.append_cons, List.getLast?_append_of_ne_nil _ hne]
      exact ihr

end BinTree

open BinTree

/-- The tree below an ancestor. -/
def Frame.fill (f : Frame α) (t : BinTree α) : BinTree α :=
  match f.side with
  | .left => .node t f.label f.other
  | .right => .node f.other f.label t

/-- The tree around a place, whose nearest ancestor stands first. -/
def plug : List (Frame α) → BinTree α → BinTree α
  | [], t => t
  | f :: p, t => plug p (f.fill t)

/-- The labels before a place. -/
def before : List (Frame α) → List α
  | [] => []
  | f :: p => before p ++ match f.side with
    | .left => []
    | .right => f.other.toList ++ [f.label]

/-- The labels behind a place. -/
def after : List (Frame α) → List α
  | [] => []
  | f :: p => (match f.side with
    | .left => f.label :: f.other.toList
    | .right => []) ++ after p

theorem toList_plug (p : List (Frame α)) (t : BinTree α) : (plug p t).toList = before p ++ t.toList ++ after p := by
  induction p generalizing t with
  | nil => simp [plug, before, after]
  | cons f p ih =>
    obtain ⟨side, a, o⟩ := f
    rw [plug, ih]
    cases side with
    | left => simp [Frame.fill, before, after, toList]
    | right => simp [Frame.fill, before, after, toList]

theorem plug_append (q p : List (Frame α)) (t : BinTree α) : plug (q ++ p) t = plug p (plug q t) := by
  induction q generalizing t with
  | nil => rfl
  | cons f q ih => exact ih _

theorem before_append (q p : List (Frame α)) : before (q ++ p) = before p ++ before q := by
  induction q with
  | nil => simp [before]
  | cons f q ih => simp [before, ih]

theorem after_append (q p : List (Frame α)) : after (q ++ p) = after q ++ after p := by
  induction q with
  | nil => rfl
  | cons f q ih => simp [after, ih]

/-! ## Going up -/

/-- The nearest ancestor that the place is on the side `s` of. -/
def climb (s : Side) : List (Frame α) → Option α
  | [] => none
  | f :: p => if f.side = s then some f.label else climb s p

theorem climb_left (p : List (Frame α)) : climb .left p = (after p).head? := by
  induction p with
  | nil => rfl
  | cons f p ih =>
    obtain ⟨side, a, o⟩ := f
    cases side with
    | left => simp [climb, after]
    | right => simp [climb, after, ih]

theorem climb_right (p : List (Frame α)) : climb .right p = (before p).getLast? := by
  induction p with
  | nil => rfl
  | cons f p ih =>
    obtain ⟨side, a, o⟩ := f
    cases side with
    | left => simp [climb, before, ih]
    | right => simp [climb, before, ← List.append_assoc]

/-! ## Going down -/

section Order

variable [LinearOrder K] (key : α → K)

/-- Going down to a key, to its node or to the place where it is missing. -/
def descend (k : K) : BinTree α → List (Frame α) → BinTree α × List (Frame α)
  | .nil, p => (.nil, p)
  | .node l a r, p =>
    if k = key a then (.node l a r, p)
    else if k < key a then descend k l (⟨.left, a, r⟩ :: p)
    else descend k r (⟨.right, a, l⟩ :: p)

/-- The keys stand in order, each of them once. -/
def Ordered (l : List α) : Prop := l.Pairwise fun a b => key a < key b

/-- What going down to `k` passes. -/
structure Found (k : K) (t : BinTree α) (p : List (Frame α)) (s : BinTree α) (q : List (Frame α)) : Prop where
  plug_eq : plug q s = plug p t
  split : ∃ x y, before q = before p ++ x ∧ after q = y ++ after p ∧ (∀ a ∈ x, key a < k) ∧ ∀ a ∈ y, k < key a
  node : s = .nil ∨ ∃ l a r, s = .node l a r ∧ key a = k

variable {key}

theorem descend_found {t : BinTree α} (h : Ordered key t.toList) (k : K) (p : List (Frame α)) :
    Found key k t p (descend key k t p).1 (descend key k t p).2 := by
  induction t generalizing p with
  | nil => exact ⟨rfl, ⟨[], [], (List.append_nil _).symm, rfl, by simp, by simp⟩, .inl rfl⟩
  | node l a r ihl ihr =>
    rw [Ordered, toList, List.pairwise_append, List.pairwise_cons] at h
    obtain ⟨hl, ⟨har, hr⟩, hla⟩ := h
    rw [descend]
    split_ifs with heq hlt
    · exact ⟨rfl, ⟨[], [], (List.append_nil _).symm, rfl, by simp, by simp⟩, .inr ⟨l, a, r, rfl, heq.symm⟩⟩
    · obtain ⟨hplug, ⟨x, y, hx, hy, hxk, hyk⟩, hnode⟩ := ihl hl (⟨.left, a, r⟩ :: p)
      refine ⟨hplug, ⟨x, y ++ a :: r.toList, ?_, ?_, hxk, ?_⟩, hnode⟩
      · rw [hx]
        simp [before]
      · rw [hy]
        simp [after]
      · intro b hb
        rcases List.mem_append.mp hb with hb | hb
        · exact hyk b hb
        · rcases List.mem_cons.mp hb with rfl | hb
          · exact hlt
          · exact hlt.trans (har b hb)
    · have hgt : key a < k := lt_of_le_of_ne (not_lt.mp hlt) (Ne.symm heq)
      obtain ⟨hplug, ⟨x, y, hx, hy, hxk, hyk⟩, hnode⟩ := ihr hr (⟨.right, a, l⟩ :: p)
      refine ⟨hplug, ⟨l.toList ++ [a] ++ x, y, ?_, ?_, ?_, hyk⟩, hnode⟩
      · rw [hx]
        simp [before]
      · rw [hy]
        simp [after]
      · intro b hb
        simp only [List.mem_append, List.mem_singleton] at hb
        rcases hb with (hb | rfl) | hb
        · exact (hla b hb a List.mem_cons_self).trans hgt
        · exact hgt
        · exact hxk b hb

theorem length_descend_le (k : K) (t : BinTree α) (p : List (Frame α)) :
    (descend key k t p).2.length ≤ p.length + t.height := by
  induction t generalizing p with
  | nil => exact Nat.le_refl _
  | node l a r ihl ihr =>
    rw [descend, height]
    split_ifs
    · exact Nat.le_add_right _ _
    · have h := ihl (⟨.left, a, r⟩ :: p)
      rw [List.length_cons] at h
      omega
    · have h := ihr (⟨.right, a, l⟩ :: p)
      rw [List.length_cons] at h
      omega

end Order

/-! ## Taking a tree apart -/

def leftDepth : BinTree α → ℕ
  | .nil => 0
  | .node l _ r => max (leftDepth l + 1) (leftDepth r)

/-- The nodes that are left, for a subtree and a stack of nodes whose left subtree is done. -/
def weight : BinTree α → List (α × BinTree α) → ℕ
  | t, s => 2 * t.size + (s.map fun e => 2 * e.2.size + 1).sum

/-- Taking a tree apart with a stack of `limit` nodes; `none` where the stack overflows. -/
def unstack (limit : ℕ) (t : BinTree α) (s : List (α × BinTree α)) : Option (List α) :=
  match t, s with
  | .node l a r, s => if s.length < limit then unstack limit l ((a, r) :: s) else none
  | .nil, [] => some []
  | .nil, (a, r) :: s => (unstack limit r s).map (a :: ·)
termination_by weight t s
decreasing_by
  · simp only [weight, BinTree.size, List.map_cons, List.sum_cons]
    omega
  · simp only [weight, BinTree.size, List.map_cons, List.sum_cons]
    omega

/-- The stack is high enough for what is left. -/
def Fits (limit : ℕ) : List (α × BinTree α) → Prop
  | [] => True
  | e :: s => s.length + leftDepth e.2 ≤ limit ∧ Fits limit s

/-- The labels that are left on the stack. -/
def stacked : List (α × BinTree α) → List α
  | [] => []
  | e :: s => e.1 :: e.2.toList ++ stacked s

theorem unstack_of_fits {limit : ℕ} (t : BinTree α) (s : List (α × BinTree α)) (ht : s.length + leftDepth t ≤ limit)
    (hs : Fits limit s) : unstack limit t s = some (t.toList ++ stacked s) := by
  induction t, s using unstack.induct limit with
  | case1 s l a r hlt ih =>
    rw [leftDepth] at ht
    rw [unstack, if_pos hlt, ih (by rw [List.length_cons]; omega) ⟨by simp only; omega, hs⟩, toList, stacked]
    simp
  | case2 s l a r hge =>
    rw [leftDepth] at ht
    omega
  | case3 => simp [unstack, toList, stacked]
  | case4 a r s ih =>
    rw [unstack, ih hs.1 hs.2, stacked, toList]
    rfl

theorem unstack_of_not_fits {limit : ℕ} (t : BinTree α) (s : List (α × BinTree α)) (hs : s.length ≤ limit)
    (h : ¬(s.length + leftDepth t ≤ limit ∧ Fits limit s)) : unstack limit t s = none := by
  induction t, s using unstack.induct limit with
  | case1 s l a r hlt ih =>
    rw [unstack, if_pos hlt]
    apply ih
    · exact hlt
    · intro hfits
      apply h
      obtain ⟨h1, h2, h3⟩ := hfits
      rw [List.length_cons] at h1
      rw [leftDepth]
      exact ⟨by simp only at h2; omega, h3⟩
  | case2 s l a r hge => rw [unstack, if_neg hge]
  | case3 =>
    refine absurd ?_ h
    exact ⟨Nat.zero_le _, trivial⟩
  | case4 a r s ih =>
    rw [unstack, ih ?_ ?_]
    · rfl
    · rw [List.length_cons] at hs
      omega
    · intro hfits
      exact h ⟨hs, hfits⟩

/-- **The stack.** -/
theorem unstack_eq (limit : ℕ) (t : BinTree α) :
    unstack limit t [] = if leftDepth t ≤ limit then some t.toList else none := by
  split_ifs with h
  · rw [unstack_of_fits t [] (by simpa using h) trivial, stacked, List.append_nil]
  · exact unstack_of_not_fits t [] (Nat.zero_le _) fun hfits => h (by simpa using hfits.1)

theorem leftDepth_le_height (t : BinTree α) : leftDepth t ≤ t.height := by
  induction t with
  | nil => exact Nat.le_refl 0
  | node l a r ihl ihr =>
    rw [leftDepth, height]
    omega

end Lib.TreeZipper
