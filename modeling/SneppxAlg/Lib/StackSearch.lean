import Mathlib.Algebra.BigOperators.Group.Finset.Basic
import Mathlib.Algebra.Order.BigOperators.Group.Finset
import Mathlib.Data.Finset.Card
import Mathlib.Logic.Function.Basic
import Mathlib.Logic.Relation

/-!
# Search that marks nodes as they come off the stack

The node on top is taken off and marked, and those of its successors that are not marked are put on the
stack. A node may be there several times, and it is expanded each time it comes off. The stack holds at most
`cap` nodes, and a node that finds no room is not put there.

A round that marks nothing is one for a marked node, and then either nothing has been put on the stack, or
the node on top is not marked. So the search ends (`visits_total`). It visits only nodes that can be reached
(`reach_of_mem_visits`), and all of them if there are fewer edges than places on the stack
(`mem_visits_iff`). Otherwise a node can be lost.
-/

namespace Lib.StackSearch

variable {α : Type*} [DecidableEq α]

/-- The marks, and the stack with its top first. -/
structure State (α : Type*) where
  visited : α → Bool
  stack : List α

def State.push (cap : ℕ) (s : State α) (y : α) : State α :=
  if s.visited y = false ∧ s.stack.length < cap then { s with stack := y :: s.stack } else s

/-- The round for the node on top. -/
def State.round (succ : α → List α) (cap : ℕ) (s : State α) (x : α) (rest : List α) : State α :=
  (succ x).foldl (State.push cap) { visited := Function.update s.visited x true, stack := rest }

/-- The nodes that are marked, in this order. -/
def visits (succ : α → List α) (cap : ℕ) : ℕ → State α → Option (List α)
  | fuel, s =>
    match s.stack with
    | [] => some []
    | x :: rest =>
      match fuel with
      | 0 => none
      | fuel + 1 =>
        (visits succ cap fuel (s.round succ cap x rest)).map fun l => if s.visited x then l else x :: l

def start (root : α) : State α := { visited := fun _ => false, stack := [root] }

def Reach (succ : α → List α) (root x : α) : Prop :=
  Relation.ReflTransGen (fun x y => y ∈ succ x) root x

variable {succ : α → List α} {cap : ℕ} {nodes : Finset α} {root x : α} {rest ys l : List α} {s : State α}

/-! ## One round -/

omit [DecidableEq α] in
@[simp] theorem visited_push (y : α) : (s.push cap y).visited = s.visited := by
  unfold State.push
  split_ifs <;> rfl

omit [DecidableEq α] in
@[simp] theorem visited_foldl_push (ys : List α) : (ys.foldl (State.push cap) s).visited = s.visited := by
  induction ys generalizing s with
  | nil => rfl
  | cons y ys ih => rw [List.foldl_cons, ih, visited_push]

theorem visited_round : (s.round succ cap x rest).visited = Function.update s.visited x true := by
  rw [State.round, visited_foldl_push]

omit [DecidableEq α] in
theorem length_push_le (y : α) : (s.push cap y).stack.length ≤ s.stack.length + 1 := by
  unfold State.push
  split_ifs
  · exact le_rfl
  · exact Nat.le_succ _

omit [DecidableEq α] in
/-- What is put on the stack are successors without mark, and all of them if there is room. -/
theorem stack_foldl_push (ys : List α) : ∃ new, (ys.foldl (State.push cap) s).stack = new ++ s.stack ∧
    (∀ y ∈ new, y ∈ ys ∧ s.visited y = false) ∧ (s.stack.length ≤ cap → (new ++ s.stack).length ≤ cap) ∧
    (s.stack.length + ys.length ≤ cap → ∀ y ∈ ys, s.visited y = false → y ∈ new) := by
  induction ys generalizing s with
  | nil => exact ⟨[], by simp⟩
  | cons y ys ih =>
    obtain ⟨new, hstack, hnew, hlen, hall⟩ := @ih (s.push cap y)
    have hpush_len := @length_push_le _ cap s y
    rw [visited_push] at hnew hall
    rw [List.foldl_cons, List.length_cons]
    by_cases hpush : s.visited y = false ∧ s.stack.length < cap
    · have heq : (s.push cap y).stack = y :: s.stack := by rw [State.push, if_pos hpush]
      rw [heq] at hstack hlen
      refine ⟨new ++ [y], by simpa using hstack, fun z hz => ?_, fun _ => by simpa using hlen hpush.2,
        fun hroom z hz hmark => ?_⟩
      · rcases List.mem_append.mp hz with hz | hz
        · exact ⟨List.mem_cons_of_mem _ (hnew z hz).1, (hnew z hz).2⟩
        · rw [List.mem_singleton.mp hz]
          exact ⟨List.mem_cons_self, hpush.1⟩
      · rcases List.mem_cons.mp hz with rfl | hz
        · simp
        · exact List.mem_append_left _ (hall (by omega) z hz hmark)
    · have heq : s.push cap y = s := by rw [State.push, if_neg hpush]
      rw [heq] at hstack hlen hall ⊢
      refine ⟨new, hstack, fun z hz => ⟨List.mem_cons_of_mem _ (hnew z hz).1, (hnew z hz).2⟩, hlen,
        fun hroom z hz hmark => ?_⟩
      rcases List.mem_cons.mp hz with rfl | hz
      · exact absurd ⟨hmark, by omega⟩ hpush
      · exact hall (by omega) z hz hmark

omit [DecidableEq α] in
/-- At most one place for each successor. -/
theorem length_foldl_push_le (ys : List α) :
    (ys.foldl (State.push cap) s).stack.length ≤ s.stack.length + ys.length := by
  induction ys generalizing s with
  | nil => exact le_rfl
  | cons y ys ih =>
    have hlen := @length_push_le _ cap s y
    have := @ih (s.push cap y)
    rw [List.foldl_cons, List.length_cons]
    omega

/-! ## The whole search -/

/-- What is on the stack. -/
structure Inv (succ : α → List α) (nodes : Finset α) (cap : ℕ) (root : α) (s : State α) : Prop where
  nodes : ∀ y ∈ s.stack, y ∈ nodes
  reach : ∀ y ∈ s.stack, Reach succ root y
  length_le : s.stack.length ≤ cap

omit [DecidableEq α] in
theorem start_inv (hroot : root ∈ nodes) (hcap : 0 < cap) : Inv succ nodes cap root (start root) :=
  ⟨by simpa [start] using hroot, by simp [start, Reach, Relation.ReflTransGen.refl], by simpa [start, Nat.succ_le_iff] using hcap⟩

theorem Inv.round (hnodes : ∀ x ∈ nodes, ∀ y ∈ succ x, y ∈ nodes) (h : Inv succ nodes cap root s)
    (hstack : s.stack = x :: rest) : Inv succ nodes cap root (s.round succ cap x rest) := by
  have hx : x ∈ s.stack := hstack ▸ List.mem_cons_self
  have hrest : ∀ y ∈ rest, y ∈ s.stack := fun y hy => hstack ▸ List.mem_cons_of_mem _ hy
  have hlen := h.length_le
  rw [hstack, List.length_cons] at hlen
  obtain ⟨new, hnew, hmem, hle, -⟩ := @stack_foldl_push _ cap
    { visited := Function.update s.visited x true, stack := rest } (succ x)
  refine ⟨fun y hy => ?_, fun y hy => ?_, ?_⟩
  · rw [State.round, hnew] at hy
    rcases List.mem_append.mp hy with hy | hy
    · exact hnodes x (h.nodes x hx) y (hmem y hy).1
    · exact h.nodes y (hrest y hy)
  · rw [State.round, hnew] at hy
    rcases List.mem_append.mp hy with hy | hy
    · exact (h.reach x hx).tail (hmem y hy).1
    · exact h.reach y (hrest y hy)
  · rw [State.round, hnew]
    exact hle (by dsimp only; omega)

/-- The nodes without mark. -/
def unvisited (nodes : Finset α) (s : State α) : ℕ := (nodes.filter fun y => s.visited y = false).card

/-- The nodes without mark, and before them a marked node on top. -/
def weight (nodes : Finset α) (s : State α) : ℕ :=
  2 * unvisited nodes s + if s.stack.head?.any s.visited then 1 else 0

def rank (nodes : Finset α) (cap : ℕ) (s : State α) : ℕ := weight nodes s * (cap + 1) + s.stack.length

theorem unvisited_round (hx : x ∈ nodes) (hnew : s.visited x = false) :
    unvisited nodes (s.round succ cap x rest) < unvisited nodes s := by
  refine Finset.card_lt_card ⟨fun y hy => ?_, fun hsub => ?_⟩
  · rw [visited_round, Finset.mem_filter] at hy
    have hne : y ≠ x := by
      rintro rfl
      simp at hy
    rw [Function.update_of_ne hne] at hy
    exact Finset.mem_filter.mpr hy
  · have hmem := hsub (Finset.mem_filter.mpr ⟨hx, hnew⟩)
    rw [visited_round, Finset.mem_filter, Function.update_self] at hmem
    exact absurd hmem.2 (by simp)

omit [DecidableEq α] in
theorem weight_bounds (nodes : Finset α) (s : State α) :
    2 * unvisited nodes s ≤ weight nodes s ∧ weight nodes s ≤ 2 * unvisited nodes s + 1 := by
  unfold weight
  split_ifs <;> omega

theorem rank_round (h : Inv succ nodes cap root s) (hnodes : ∀ x ∈ nodes, ∀ y ∈ succ x, y ∈ nodes)
    (hstack : s.stack = x :: rest) : rank nodes cap (s.round succ cap x rest) < rank nodes cap s := by
  have hlen := (h.round hnodes hstack).length_le
  have hx : x ∈ nodes := h.nodes x (hstack ▸ List.mem_cons_self)
  have hhead : s.stack.head?.any s.visited = s.visited x := by rw [hstack]; rfl
  have hbounds := weight_bounds nodes (s.round succ cap x rest)
  have hsmaller : weight nodes (s.round succ cap x rest) < weight nodes s →
      rank nodes cap (s.round succ cap x rest) < rank nodes cap s := by
    intro hweight
    have hmul := Nat.mul_le_mul_right (cap + 1) hweight
    rw [Nat.succ_mul] at hmul
    unfold rank
    omega
  cases hvisited : s.visited x with
  | false =>
    have hlt := @unvisited_round _ _ succ cap nodes x rest s hx hvisited
    have hbounds' := weight_bounds nodes s
    exact hsmaller (by omega)
  | true =>
    have hsame : Function.update s.visited x true = s.visited := by
      rw [← hvisited, Function.update_eq_self]
    have hun : unvisited nodes (s.round succ cap x rest) = unvisited nodes s := by
      rw [unvisited, visited_round, hsame, unvisited]
    have hweight : weight nodes s = 2 * unvisited nodes s + 1 := by
      rw [weight, hhead, hvisited, if_pos rfl]
    obtain ⟨new, hnew, hmem, -⟩ := @stack_foldl_push _ cap
      { visited := Function.update s.visited x true, stack := rest } (succ x)
    cases new with
    | nil =>
      -- The stack has become shorter.
      have hrest : (s.round succ cap x rest).stack = rest := hnew
      have hmul := Nat.mul_le_mul_right (cap + 1) (hun ▸ hbounds.2)
      rw [rank, rank, hweight, hstack, hrest, List.length_cons]
      omega
    | cons y new =>
      -- The node on top is not marked.
      have htop : (s.round succ cap x rest).stack.head?.any (s.round succ cap x rest).visited = false := by
        rw [visited_round, State.round, hnew]
        exact (hmem y List.mem_cons_self).2
      refine hsmaller ?_
      rw [hweight, weight, htop, hun]
      simp

theorem visits_total (hnodes : ∀ x ∈ nodes, ∀ y ∈ succ x, y ∈ nodes) {fuel : ℕ}
    (h : Inv succ nodes cap root s) (hfuel : rank nodes cap s ≤ fuel) : ∃ l, visits succ cap fuel s = some l := by
  induction fuel generalizing s with
  | zero =>
    have hempty : s.stack = [] := List.eq_nil_of_length_eq_zero (by rw [rank] at hfuel; omega)
    exact ⟨[], by unfold visits; rw [hempty]⟩
  | succ fuel ih =>
    cases hstack : s.stack with
    | nil => exact ⟨[], by unfold visits; rw [hstack]⟩
    | cons x rest =>
      have hlt := rank_round h hnodes hstack
      obtain ⟨l, hl⟩ := ih (h.round hnodes hstack) (by omega)
      refine ⟨if s.visited x then l else x :: l, ?_⟩
      unfold visits
      rw [hstack]
      simp only [hl, Option.map_some]

/-- What holds of an empty stack and is kept backwards by a round, holds of a search that ends. -/
theorem visits_induction {motive : State α → List α → Prop} (nil : ∀ s, s.stack = [] → motive s [])
    (round : ∀ s x rest l, s.stack = x :: rest → motive (s.round succ cap x rest) l →
      motive s (if s.visited x then l else x :: l))
    {fuel : ℕ} (hl : visits succ cap fuel s = some l) : motive s l := by
  induction fuel generalizing s l with
  | zero =>
    unfold visits at hl
    split at hl
    · next hstack => exact Option.some.inj hl ▸ nil s hstack
    · cases hl
  | succ fuel ih =>
    unfold visits at hl
    split at hl
    · next hstack => exact Option.some.inj hl ▸ nil s hstack
    · next x rest hstack =>
      obtain ⟨l', hl', rfl⟩ := Option.map_eq_some_iff.mp hl
      exact round s x rest l' hstack (ih hl')

theorem reach_of_mem_visits (hnodes : ∀ x ∈ nodes, ∀ y ∈ succ x, y ∈ nodes) {fuel : ℕ}
    (h : Inv succ nodes cap root s) (hl : visits succ cap fuel s = some l) : ∀ x ∈ l, Reach succ root x := by
  refine visits_induction (motive := fun s l => Inv succ nodes cap root s → ∀ x ∈ l, Reach succ root x)
    (fun _ _ _ => List.forall_mem_nil _) (fun s x rest l hstack ih h => ?_) hl h
  have hrest := ih (h.round hnodes hstack)
  split_ifs
  · exact hrest
  · exact List.forall_mem_cons.mpr ⟨h.reach x (hstack ▸ List.mem_cons_self), hrest⟩

/-! ## Enough room -/

def edges (succ : α → List α) (nodes : Finset α) (test : α → Bool) : ℕ :=
  ∑ x ∈ nodes with test x = true, (succ x).length

/-- With a place for each edge, a marked node that is still on the stack has all its successors above it or
marked, so that it adds nothing when it comes off again. -/
structure Roomy (succ : α → List α) (nodes : Finset α) (s : State α) : Prop where
  above : ∀ pre x post, s.stack = pre ++ x :: post → s.visited x = true →
    ∀ y ∈ succ x, s.visited y = true ∨ y ∈ pre
  closed : ∀ x, s.visited x = true → ∀ y ∈ succ x, s.visited y = true ∨ y ∈ s.stack
  length_le : s.stack.length ≤ 1 + edges succ nodes s.visited

omit [DecidableEq α] in
theorem start_roomy : Roomy succ nodes (start root) :=
  ⟨fun _ _ _ _ h => absurd h (by simp [start]), fun _ h => absurd h (by simp [start]), by simp [start]⟩

theorem edges_update (hx : x ∈ nodes) (hnew : s.visited x = false) :
    edges succ nodes (Function.update s.visited x true) = edges succ nodes s.visited + (succ x).length := by
  have hset : (nodes.filter fun y => Function.update s.visited x true y = true) =
      insert x (nodes.filter fun y => s.visited y = true) := by
    ext y
    by_cases hy : y = x
    · simp [hy, hx]
    · simp [hy]
  rw [edges, hset, Finset.sum_insert (by simp [hnew]), Nat.add_comm, edges]

theorem Roomy.room (h : Roomy succ nodes s) (hcap : edges succ nodes (fun _ => true) < cap)
    (hx : x ∈ nodes) (hnew : s.visited x = false) (hstack : s.stack = x :: rest) :
    rest.length + (succ x).length ≤ edges succ nodes (Function.update s.visited x true) ∧
      rest.length + (succ x).length ≤ cap := by
  have hlen := h.length_le
  rw [hstack, List.length_cons] at hlen
  have hupdate := @edges_update _ _ succ nodes x s hx hnew
  have htotal : edges succ nodes (Function.update s.visited x true) ≤ edges succ nodes fun _ => true :=
    Finset.sum_le_sum_of_subset (Finset.monotone_filter_right nodes fun _ _ _ => rfl)
  omega

/-- A marked node that comes off again. -/
theorem Roomy.round_visited (h : Roomy succ nodes s) (hvisited : s.visited x = true)
    (hstack : s.stack = x :: rest) : s.round succ cap x rest = { s with stack := rest } := by
  have hall : ∀ y ∈ succ x, s.visited y = true := fun y hy =>
    (h.above [] x rest hstack hvisited y hy).resolve_right List.not_mem_nil
  have hsame : Function.update s.visited x true = s.visited := by rw [← hvisited, Function.update_eq_self]
  rw [State.round, hsame]
  generalize succ x = ys at hall
  induction ys with
  | nil => rfl
  | cons y ys ih =>
    obtain ⟨hy, hall⟩ := List.forall_mem_cons.mp hall
    have heq : State.push cap { visited := s.visited, stack := rest } y = { s with stack := rest } := by
      simp [State.push, hy]
    rw [List.foldl_cons, heq, ih hall]

theorem Roomy.round_of_visited (h : Roomy succ nodes s) (hvisited : s.visited x = true)
    (hstack : s.stack = x :: rest) : Roomy succ nodes (s.round succ cap x rest) := by
  rw [h.round_visited hvisited hstack]
  refine ⟨fun pre z post heq hz y hy => ?_, fun z hz y hy => ?_, ?_⟩
  · have hrest : rest = pre ++ z :: post := heq
    have habove := h.above (x :: pre) z post (by rw [hstack, hrest, List.cons_append]) hz y hy
    rcases habove with hy | hy
    · exact .inl hy
    · rcases List.mem_cons.mp hy with rfl | hy
      · exact .inl hvisited
      · exact .inr hy
  · rcases h.closed z hz y hy with hy | hy
    · exact .inl hy
    · rw [hstack] at hy
      rcases List.mem_cons.mp hy with rfl | hy
      · exact .inl hvisited
      · exact .inr hy
  · have hlen := h.length_le
    rw [hstack, List.length_cons] at hlen
    dsimp only
    omega

theorem Roomy.round_of_new (h : Roomy succ nodes s) (hcap : edges succ nodes (fun _ => true) < cap)
    (hx : x ∈ nodes) (hvisited : s.visited x = false) (hstack : s.stack = x :: rest) :
    Roomy succ nodes (s.round succ cap x rest) := by
  obtain ⟨hedges, hroom⟩ := h.room hcap hx hvisited hstack
  obtain ⟨new, hnew, hmem, -, hall⟩ := @stack_foldl_push _ cap
    { visited := Function.update s.visited x true, stack := rest } (succ x)
  have hstack' : (s.round succ cap x rest).stack = new ++ rest := hnew
  have hpushed : ∀ y ∈ succ x, Function.update s.visited x true y = true ∨ y ∈ new := by
    intro y hy
    cases hmark : Function.update s.visited x true y with
    | true => exact .inl rfl
    | false => exact .inr (hall hroom y hy hmark)
  have hmark : ∀ {y}, s.visited y = true → Function.update s.visited x true y = true := by
    intro y hy
    by_cases heq : y = x
    · rw [heq, Function.update_self]
    · rwa [Function.update_of_ne heq]
  refine ⟨fun pre z post heq hz y hy => ?_, fun z hz y hy => ?_, ?_⟩
  · rw [visited_round] at hz ⊢
    -- A marked node is in the old part of the stack.
    obtain ⟨pre', rfl, hrest⟩ : ∃ pre', pre = new ++ pre' ∧ rest = pre' ++ z :: post := by
      rw [hstack'] at heq
      rcases List.append_eq_append_iff.mp heq with ⟨pre', hpre, hrest⟩ | ⟨front, hfront, hpost⟩
      · exact ⟨pre', hpre, hrest⟩
      · cases front with
        | nil => exact ⟨[], by simpa using hfront.symm, by simpa using hpost.symm⟩
        | cons z' front =>
          obtain ⟨rfl, -⟩ := List.cons.inj hpost
          have hz' := (hmem z (hfront ▸ List.mem_append_right _ List.mem_cons_self)).2
          exact absurd hz (by simpa using hz')
    by_cases hzx : z = x
    · subst hzx
      exact (hpushed y hy).imp_right (List.mem_append_left _)
    · rw [Function.update_of_ne hzx] at hz
      rcases h.above (x :: pre') z post (by rw [hstack, hrest, List.cons_append]) hz y hy with hy | hy
      · exact .inl (hmark hy)
      · rcases List.mem_cons.mp hy with rfl | hy
        · exact .inl (Function.update_self _ _ _)
        · exact .inr (List.mem_append_right _ hy)
  · rw [visited_round] at hz ⊢
    rw [hstack']
    by_cases heq : z = x
    · exact (hpushed y (heq ▸ hy)).imp_right (List.mem_append_left _)
    · rw [Function.update_of_ne heq] at hz
      rcases h.closed z hz y hy with hy | hy
      · exact .inl (hmark hy)
      · rw [hstack] at hy
        rcases List.mem_cons.mp hy with rfl | hy
        · exact .inl (Function.update_self _ _ _)
        · exact .inr (List.mem_append_right _ hy)
  · have hlen := @length_foldl_push_le _ cap
      { visited := Function.update s.visited x true, stack := rest } (succ x)
    rw [visited_round]
    refine hlen.trans ?_
    dsimp only
    omega

theorem Roomy.round (h : Roomy succ nodes s) (hcap : edges succ nodes (fun _ => true) < cap) (hx : x ∈ nodes)
    (hstack : s.stack = x :: rest) : Roomy succ nodes (s.round succ cap x rest) := by
  cases hvisited : s.visited x with
  | true => exact h.round_of_visited hvisited hstack
  | false => exact h.round_of_new hcap hx hvisited hstack

/-- Nothing that can be reached is lost. -/
theorem closed_visits (hnodes : ∀ x ∈ nodes, ∀ y ∈ succ x, y ∈ nodes)
    (hcap : edges succ nodes (fun _ => true) < cap) {fuel : ℕ} (h : Inv succ nodes cap root s)
    (hroomy : Roomy succ nodes s) (hl : visits succ cap fuel s = some l) :
    (∀ y ∈ s.stack, s.visited y = true ∨ y ∈ l) ∧
      ∀ x, (s.visited x = true ∨ x ∈ l) → ∀ y ∈ succ x, s.visited y = true ∨ y ∈ l := by
  refine visits_induction
    (motive := fun s l => Inv succ nodes cap root s → Roomy succ nodes s →
      (∀ y ∈ s.stack, s.visited y = true ∨ y ∈ l) ∧
        ∀ x, (s.visited x = true ∨ x ∈ l) → ∀ y ∈ succ x, s.visited y = true ∨ y ∈ l)
    (fun s hstack h hroomy => ?_) (fun s x rest l hstack ih h hroomy => ?_) hl h hroomy
  · refine ⟨by simp [hstack], fun x hx y hy => ?_⟩
    simpa [hstack] using hroomy.closed x (by simpa using hx) y hy
  · have hx : x ∈ nodes := h.nodes x (hstack ▸ List.mem_cons_self)
    obtain ⟨hstack', hclosed⟩ := ih (h.round hnodes hstack) (hroomy.round hcap hx hstack)
    have hseen : ∀ y, ((s.round succ cap x rest).visited y = true ∨ y ∈ l) ↔
        (s.visited y = true ∨ y ∈ if s.visited x = true then l else x :: l) := by
      intro y
      rw [visited_round]
      by_cases hy : y = x
      · subst hy
        cases hmark : s.visited y <;> simp
      · cases hmark : s.visited x <;> simp [hy]
    simp only [hseen] at hstack' hclosed
    refine ⟨fun y hy => ?_, hclosed⟩
    rw [hstack] at hy
    rcases List.mem_cons.mp hy with rfl | hy
    · cases hmark : s.visited y <;> simp
    · obtain ⟨new, hnew, -⟩ := @stack_foldl_push _ cap
        { visited := Function.update s.visited x true, stack := rest } (succ x)
      refine hstack' y ?_
      rw [State.round, hnew]
      exact List.mem_append_right _ hy

/-- With fewer edges than places on the stack the search visits what can be reached. -/
theorem mem_visits_iff (hroot : root ∈ nodes) (hnodes : ∀ x ∈ nodes, ∀ y ∈ succ x, y ∈ nodes)
    (hcap : edges succ nodes (fun _ => true) < cap) {fuel : ℕ} (hl : visits succ cap fuel (start root) = some l)
    (x : α) : x ∈ l ↔ Reach succ root x := by
  have hinv := @start_inv _ succ cap nodes root hroot (by omega)
  obtain ⟨hstack, hclosed⟩ := closed_visits hnodes hcap hinv start_roomy hl
  refine ⟨reach_of_mem_visits hnodes hinv hl x, fun hx => ?_⟩
  have hseen : (start root).visited x = true ∨ x ∈ l := by
    induction hx with
    | refl => exact hstack root List.mem_cons_self
    | tail _ hstep ih => exact hclosed _ ih _ hstep
  simpa [start] using hseen

end Lib.StackSearch
