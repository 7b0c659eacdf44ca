import Mathlib

/-!
# Depth-first post-order with an explicit stack

The node on top of the stack waits until all its successors have been visited: a successor that is
neither visited nor on the stack is pushed, and a node without one is popped and listed. The number of
rounds is bounded from outside.

**The invariant** (`Inv`). The stack is a path in the graph. In a graph without cycles a successor of
its top is therefore never on the stack, so that a node is listed only after all its successors.

**Termination.** A round pushes a node that was not seen before or pops one, so that the rounds are at
most twice the nodes.

Main result: `sort_spec`.
-/

namespace SneppxAlg.Lib.DepthFirst

variable {α : Type} [DecidableEq α]

/-! ## The algorithm -/

/-- The marks, the stack with its top first, and the list so far. -/
structure State (α : Type) where
  visited : α → Bool
  onStack : α → Bool
  stack : List α
  out : List α

/-- The first successor that is neither visited nor on the stack. -/
def next (succ : α → List α) (s : State α) (x : α) : Option α :=
  (succ x).find? fun p => !s.visited p && !s.onStack p

/-- A node on the stack. -/
def State.push (s : State α) (p : α) : State α :=
  { s with onStack := Function.update s.onStack p true, stack := p :: s.stack }

/-- The top `x` off the stack and into the list. -/
def State.pop (s : State α) (x : α) (rest : List α) : State α :=
  { visited := Function.update s.visited x true
    onStack := Function.update s.onStack x false
    stack := rest
    out := s.out ++ [x] }

/-- One round. -/
def step (succ : α → List α) (s : State α) : State α :=
  match s.stack with
  | [] => s
  | x :: rest =>
    match next succ s x with
    | some p => s.push p
    | none => s.pop x rest

/-- At most `fuel` rounds, until the stack is empty. -/
def loop (succ : α → List α) : ℕ → State α → State α
  | 0, s => s
  | fuel + 1, s => if s.stack = [] then s else loop succ fuel (step succ s)

/-- The rounds for one root, with a fresh stack. -/
def visit (succ : α → List α) (fuel : ℕ) (s : State α) (x : α) : State α :=
  if s.visited x then s
  else loop succ fuel { s with onStack := Function.update (fun _ => false) x true, stack := [x] }

/-- Nothing visited. -/
def start : State α := { visited := fun _ => false, onStack := fun _ => false, stack := [], out := [] }

def sort (succ : α → List α) (fuel : ℕ) (roots : List α) : List α :=
  (roots.foldl (visit succ fuel) start).out

/-! ## The invariant -/

/-- Every node comes after its successors. -/
def Ordered (succ : α → List α) (l : List α) : Prop :=
  ∀ l₁ x l₂, l = l₁ ++ x :: l₂ → ∀ p ∈ succ x, p ∈ l₁

/-- There is no path from a node to itself. -/
def Acyclic (succ : α → List α) : Prop :=
  ∀ x, ¬Relation.TransGen (fun a b => b ∈ succ a) x x

/-- The marks agree with the stack and the list, and no node is there twice. -/
structure Marks (s : State α) : Prop where
  visited_iff : ∀ x, s.visited x = true ↔ x ∈ s.out
  onStack_iff : ∀ x, s.onStack x = true ↔ x ∈ s.stack
  stack_nodup : s.stack.Nodup
  stack_not_out : ∀ x ∈ s.stack, x ∉ s.out
  out_nodup : s.out.Nodup

/-- The invariant of the rounds in a graph without cycles. -/
structure Inv (succ : α → List α) (nodes : Finset α) (s : State α) : Prop extends Marks s where
  path : List.IsChain (fun x y => x ∈ succ y) s.stack
  ordered : Ordered succ s.out
  stack_nodes : ∀ x ∈ s.stack, x ∈ nodes
  out_nodes : ∀ x ∈ s.out, x ∈ nodes

omit [DecidableEq α] in
theorem ordered_snoc {succ : α → List α} {l : List α} {x : α} (h : Ordered succ l)
    (hx : ∀ p ∈ succ x, p ∈ l) : Ordered succ (l ++ [x]) := by
  intro l₁ y l₂ he p hp
  rcases List.eq_nil_or_concat l₂ with rfl | ⟨l₃, z, rfl⟩
  · obtain ⟨rfl, hy⟩ := List.append_inj' he rfl
    obtain rfl := (List.cons.inj hy).1
    exact hx p hp
  · rw [List.concat_eq_append, ← List.cons_append, ← List.append_assoc] at he
    obtain ⟨rfl, -⟩ := List.append_inj' he rfl
    exact h l₁ y l₃ rfl p hp

omit [DecidableEq α] in
/-- The top of the stack is reached from every node on it. -/
theorem reaches_top {succ : α → List α} {x : α} {rest : List α}
    (h : List.IsChain (fun x y => x ∈ succ y) (x :: rest)) {p : α} (hp : p ∈ x :: rest) :
    Relation.ReflTransGen (fun a b => b ∈ succ a) p x := by
  induction rest generalizing x with
  | nil =>
    obtain rfl := List.mem_singleton.1 hp
    exact .refl
  | cons y rest ih =>
    obtain ⟨hxy, hrest⟩ := List.isChain_cons_cons.1 h
    rcases List.mem_cons.1 hp with rfl | hp
    · exact .refl
    · exact (ih hrest hp).tail hxy

theorem push_marks {succ : α → List α} {s : State α} (h : Marks s) {x p : α}
    (hn : next succ s x = some p) : Marks (s.push p) := by
  have hfresh := List.find?_some hn
  simp only [Bool.and_eq_true, Bool.not_eq_true'] at hfresh
  have hout : p ∉ s.out := fun hp => by simp [(h.visited_iff p).2 hp] at hfresh
  have hstack : p ∉ s.stack := fun hp => by simp [(h.onStack_iff p).2 hp] at hfresh
  exact
    { visited_iff := h.visited_iff
      onStack_iff := by
        intro y
        by_cases hy : y = p
        · simp [State.push, hy]
        · simp [State.push, hy, h.onStack_iff]
      stack_nodup := List.nodup_cons.2 ⟨hstack, h.stack_nodup⟩
      stack_not_out := by
        intro y hy
        rcases List.mem_cons.1 hy with rfl | hy
        · exact hout
        · exact h.stack_not_out y hy
      out_nodup := h.out_nodup }

theorem pop_marks {s : State α} (h : Marks s) {x : α} {rest : List α} (hs : s.stack = x :: rest) :
    Marks (s.pop x rest) := by
  have hnodup := h.stack_nodup
  rw [hs] at hnodup
  obtain ⟨hx, hrest⟩ := List.nodup_cons.1 hnodup
  have hxout : x ∉ s.out := h.stack_not_out x (by simp [hs])
  exact
    { visited_iff := by
        intro y
        by_cases hy : y = x
        · simp [State.pop, hy]
        · simp [State.pop, hy, h.visited_iff]
      onStack_iff := by
        intro y
        by_cases hy : y = x
        · simp [State.pop, hy, hx]
        · simp [State.pop, hy, h.onStack_iff, hs]
      stack_nodup := hrest
      stack_not_out := by
        intro y hy hyo
        rcases List.mem_append.1 hyo with hyo | hyo
        · exact h.stack_not_out y (by simp only [hs]; exact List.mem_cons_of_mem _ hy) hyo
        · obtain rfl := List.mem_singleton.1 hyo
          exact hx hy
      out_nodup := by
        simp only [State.pop]
        exact List.Nodup.append h.out_nodup (List.nodup_singleton x) (by simpa using hxout) }

theorem root_marks {s : State α} (h : Marks s) {x : α} (hx : x ∉ s.out) :
    Marks { s with onStack := Function.update (fun _ => false) x true, stack := [x] } :=
  { visited_iff := h.visited_iff
    onStack_iff := by
      intro y
      by_cases hy : y = x
      · simp [hy]
      · simp [hy]
    stack_nodup := List.nodup_singleton x
    stack_not_out := fun y hy => List.mem_singleton.1 hy ▸ hx
    out_nodup := h.out_nodup }

theorem step_marks (succ : α → List α) {s : State α} (h : Marks s) : Marks (step succ s) := by
  unfold step
  split
  · exact h
  · rename_i x rest hs
    split
    · rename_i p hn
      exact push_marks h hn
    · exact pop_marks h hs

theorem loop_marks (succ : α → List α) (fuel : ℕ) {s : State α} (h : Marks s) :
    Marks (loop succ fuel s) := by
  induction fuel generalizing s with
  | zero => exact h
  | succ fuel ih =>
    rw [loop]
    split
    · exact h
    · exact ih (step_marks succ h)

theorem foldl_visit_marks (succ : α → List α) (fuel : ℕ) (roots : List α) {s : State α}
    (h : Marks s) : Marks (roots.foldl (visit succ fuel) s) := by
  induction roots generalizing s with
  | nil => exact h
  | cons x roots ih =>
    apply ih
    unfold visit
    by_cases hv : s.visited x = true
    · rwa [if_pos hv]
    · rw [if_neg hv]
      exact loop_marks succ fuel (root_marks h fun hx => hv ((h.visited_iff x).2 hx))

omit [DecidableEq α] in
theorem start_marks : Marks (start : State α) :=
  { visited_iff := fun x => by simp [start]
    onStack_iff := fun x => by simp [start]
    stack_nodup := List.nodup_nil
    stack_not_out := fun x hx => absurd hx List.not_mem_nil
    out_nodup := List.nodup_nil }

/-- No node is listed twice, whatever the graph and the number of rounds. -/
theorem sort_nodup (succ : α → List α) (fuel : ℕ) (roots : List α) :
    (sort succ fuel roots).Nodup :=
  (foldl_visit_marks succ fuel roots start_marks).out_nodup

theorem push_inv {succ : α → List α} {nodes : Finset α} {s : State α} (h : Inv succ nodes s)
    {x p : α} {rest : List α} (hs : s.stack = x :: rest) (hn : next succ s x = some p)
    (hclosed : ∀ p ∈ succ x, p ∈ nodes) : Inv succ nodes (s.push p) := by
  have hmem : p ∈ succ x := List.mem_of_find?_eq_some hn
  exact
    { push_marks h.toMarks hn with
      path := by
        have hpath := h.path
        rw [hs] at hpath
        simp only [State.push, hs]
        exact List.isChain_cons_cons.2 ⟨hmem, hpath⟩
      ordered := h.ordered
      stack_nodes := by
        intro y hy
        rcases List.mem_cons.1 hy with rfl | hy
        · exact hclosed _ hmem
        · exact h.stack_nodes y hy
      out_nodes := h.out_nodes }

theorem pop_inv {succ : α → List α} {nodes : Finset α} {s : State α} (h : Inv succ nodes s)
    (hac : Acyclic succ) {x : α} {rest : List α} (hs : s.stack = x :: rest)
    (hn : next succ s x = none) : Inv succ nodes (s.pop x rest) := by
  have hxs : x ∈ s.stack := by simp [hs]
  -- a successor on the stack would close a cycle
  have hsucc : ∀ p ∈ succ x, p ∈ s.out := by
    intro p hp
    by_contra hpo
    have hmark := List.find?_eq_none.1 hn p hp
    have hv : s.visited p = false := by
      rw [← Bool.not_eq_true, h.visited_iff]
      exact hpo
    have hon : p ∈ s.stack := by simpa [hv, h.onStack_iff] using hmark
    have hpath := h.path
    rw [hs] at hpath hon
    exact hac x (.head' hp (reaches_top hpath hon))
  exact
    { pop_marks h.toMarks hs with
      path := by
        have hpath := h.path
        rw [hs] at hpath
        exact hpath.tail
      ordered := ordered_snoc h.ordered hsucc
      stack_nodes := fun y hy => h.stack_nodes y (by simp only [hs]; exact List.mem_cons_of_mem _ hy)
      out_nodes := by
        intro y hy
        rcases List.mem_append.1 hy with hy | hy
        · exact h.out_nodes y hy
        · obtain rfl := List.mem_singleton.1 hy
          exact h.stack_nodes _ hxs }

theorem step_inv {succ : α → List α} {nodes : Finset α} {s : State α} (h : Inv succ nodes s)
    (hac : Acyclic succ) (hclosed : ∀ x ∈ nodes, ∀ p ∈ succ x, p ∈ nodes) :
    Inv succ nodes (step succ s) := by
  unfold step
  split
  · exact h
  · rename_i x rest hs
    have hx : x ∈ nodes := h.stack_nodes x (by simp [hs])
    split
    · rename_i p hn
      exact push_inv h hs hn (hclosed x hx)
    · rename_i hn
      exact pop_inv h hac hs hn

theorem step_seen (succ : α → List α) (s : State α) {y : α} (hy : y ∈ s.stack ∨ y ∈ s.out) :
    y ∈ (step succ s).stack ∨ y ∈ (step succ s).out := by
  unfold step
  split
  · exact hy
  · rename_i x rest hs
    split
    · exact hy.imp (List.mem_cons_of_mem _) id
    · rw [hs] at hy
      rcases hy with hy | hy
      · rcases List.mem_cons.1 hy with rfl | hy
        · exact .inr (List.mem_append_right _ (List.mem_singleton_self _))
        · exact .inl hy
      · exact .inr (List.mem_append_left _ hy)

/-! ## Termination -/

/-- The nodes that have not been seen. -/
def unseen (nodes : Finset α) (s : State α) : Finset α :=
  nodes.filter fun x => s.visited x = false ∧ s.onStack x = false

/-- The rounds that are left: two for a node that has not been seen, one for a node on the stack. -/
def rounds (nodes : Finset α) (s : State α) : ℕ := 2 * (unseen nodes s).card + s.stack.length

theorem rounds_push {succ : α → List α} {nodes : Finset α} {s : State α} {x p : α}
    (hn : next succ s x = some p) (hp : p ∈ nodes) : rounds nodes (s.push p) < rounds nodes s := by
  have hfresh := List.find?_some hn
  simp only [Bool.and_eq_true, Bool.not_eq_true'] at hfresh
  have hmem : p ∈ unseen nodes s := Finset.mem_filter.2 ⟨hp, hfresh⟩
  have hsub : unseen nodes (s.push p) ⊆ (unseen nodes s).erase p := by
    intro y hy
    obtain ⟨hyn, hyv, hys⟩ := Finset.mem_filter.1 hy
    have hyp : y ≠ p := by
      rintro rfl
      simp [State.push] at hys
    refine Finset.mem_erase.2 ⟨hyp, Finset.mem_filter.2 ⟨hyn, hyv, ?_⟩⟩
    simpa [State.push, hyp] using hys
  have hcard := Finset.card_le_card hsub
  rw [Finset.card_erase_of_mem hmem] at hcard
  have hpos := Finset.card_pos.2 ⟨p, hmem⟩
  simp only [rounds, State.push, List.length_cons] at hcard ⊢
  omega

theorem rounds_pop {nodes : Finset α} {s : State α} {x : α} {rest : List α}
    (hs : s.stack = x :: rest) : rounds nodes (s.pop x rest) < rounds nodes s := by
  have hsub : unseen nodes (s.pop x rest) ⊆ unseen nodes s := by
    intro y hy
    obtain ⟨hyn, hyv, hys⟩ := Finset.mem_filter.1 hy
    have hyx : y ≠ x := by
      rintro rfl
      simp [State.pop] at hyv
    refine Finset.mem_filter.2 ⟨hyn, ?_, ?_⟩
    · simpa [State.pop, hyx] using hyv
    · simpa [State.pop, hyx] using hys
  have hcard := Finset.card_le_card hsub
  simp only [rounds, State.pop, hs, List.length_cons] at hcard ⊢
  omega

theorem rounds_step {succ : α → List α} {nodes : Finset α} {s : State α} (h : Inv succ nodes s)
    (hclosed : ∀ x ∈ nodes, ∀ p ∈ succ x, p ∈ nodes) (hne : s.stack ≠ []) :
    rounds nodes (step succ s) < rounds nodes s := by
  unfold step
  split
  · rename_i hs
    exact absurd hs hne
  · rename_i x rest hs
    have hx : x ∈ s.stack := by simp [hs]
    split
    · rename_i p hn
      exact rounds_push hn (hclosed x (h.stack_nodes x hx) p (List.mem_of_find?_eq_some hn))
    · exact rounds_pop hs

/-! ## The result -/

theorem loop_spec {succ : α → List α} {nodes : Finset α} (hac : Acyclic succ)
    (hclosed : ∀ x ∈ nodes, ∀ p ∈ succ x, p ∈ nodes) (fuel : ℕ) {s : State α}
    (h : Inv succ nodes s) (hfuel : rounds nodes s ≤ fuel) :
    Inv succ nodes (loop succ fuel s) ∧ (loop succ fuel s).stack = [] ∧
      ∀ y, y ∈ s.stack ∨ y ∈ s.out → y ∈ (loop succ fuel s).out := by
  induction fuel generalizing s with
  | zero =>
    have hs : s.stack = [] := by
      have : s.stack.length = 0 := by
        simp only [rounds] at hfuel
        omega
      exact List.length_eq_zero_iff.1 this
    refine ⟨h, hs, fun y hy => ?_⟩
    simpa [hs, loop] using hy
  | succ fuel ih =>
    rw [loop]
    by_cases hs : s.stack = []
    · rw [if_pos hs]
      exact ⟨h, hs, fun y hy => by simpa [hs] using hy⟩
    · rw [if_neg hs]
      have hlt := rounds_step h hclosed hs
      obtain ⟨hinv, hempty, hseen⟩ := ih (step_inv h hac hclosed) (by omega)
      exact ⟨hinv, hempty, fun y hy => hseen y (step_seen succ s hy)⟩

theorem visit_spec {succ : α → List α} {nodes : Finset α} (hac : Acyclic succ)
    (hclosed : ∀ x ∈ nodes, ∀ p ∈ succ x, p ∈ nodes) {fuel : ℕ} (hfuel : 2 * nodes.card ≤ fuel)
    {s : State α} (h : Inv succ nodes s) (hs : s.stack = []) {x : α} (hx : x ∈ nodes) :
    Inv succ nodes (visit succ fuel s x) ∧ (visit succ fuel s x).stack = [] ∧
      ∀ y, y = x ∨ y ∈ s.out → y ∈ (visit succ fuel s x).out := by
  unfold visit
  by_cases hv : s.visited x = true
  · rw [if_pos hv]
    refine ⟨h, hs, fun y hy => ?_⟩
    rcases hy with rfl | hy
    · exact (h.visited_iff y).1 hv
    · exact hy
  · rw [if_neg hv]
    have hxo : x ∉ s.out := fun hx => hv ((h.visited_iff x).2 hx)
    set s₀ : State α :=
      { s with onStack := Function.update (fun _ => false) x true, stack := [x] } with hs₀
    have hinv : Inv succ nodes s₀ :=
      { root_marks h.toMarks hxo with
        path := List.IsChain.singleton x
        ordered := h.ordered
        stack_nodes := fun y hy => List.mem_singleton.1 hy ▸ hx
        out_nodes := h.out_nodes }
    have hsub : unseen nodes s₀ ⊆ nodes.erase x := by
      intro y hy
      obtain ⟨hyn, -, hys⟩ := Finset.mem_filter.1 hy
      refine Finset.mem_erase.2 ⟨?_, hyn⟩
      rintro rfl
      simp [hs₀] at hys
    have hrounds : rounds nodes s₀ ≤ fuel := by
      have hcard := Finset.card_le_card hsub
      rw [Finset.card_erase_of_mem hx] at hcard
      have hpos := Finset.card_pos.2 ⟨x, hx⟩
      simp only [rounds, hs₀, List.length_singleton] at hcard ⊢
      omega
    obtain ⟨hinv', hempty, hseen⟩ := loop_spec hac hclosed fuel hinv hrounds
    exact ⟨hinv', hempty, fun y hy => hseen y (hy.imp (fun he => by simp [hs₀, he]) id)⟩

theorem foldl_visit_spec {succ : α → List α} {nodes : Finset α} (hac : Acyclic succ)
    (hclosed : ∀ x ∈ nodes, ∀ p ∈ succ x, p ∈ nodes) {fuel : ℕ} (hfuel : 2 * nodes.card ≤ fuel)
    (roots : List α) {s : State α} (h : Inv succ nodes s) (hs : s.stack = [])
    (hroots : ∀ x ∈ roots, x ∈ nodes) :
    Inv succ nodes (roots.foldl (visit succ fuel) s) ∧
      ∀ y, y ∈ roots ∨ y ∈ s.out → y ∈ (roots.foldl (visit succ fuel) s).out := by
  induction roots generalizing s with
  | nil => exact ⟨h, fun y hy => hy.elim (fun hy => absurd hy List.not_mem_nil) id⟩
  | cons x roots ih =>
    obtain ⟨hinv, hempty, hseen⟩ := visit_spec hac hclosed hfuel h hs (hroots x List.mem_cons_self)
    obtain ⟨hinv', hseen'⟩ := ih hinv hempty fun y hy => hroots y (List.mem_cons_of_mem _ hy)
    refine ⟨hinv', fun y hy => hseen' y ?_⟩
    rcases hy with hy | hy
    · rcases List.mem_cons.1 hy with rfl | hy
      · exact .inr (hseen y (.inl rfl))
      · exact .inl hy
    · exact .inr (hseen y (.inr hy))

/-- In a graph without cycles, with at least two rounds for each node, the list has every node exactly
once, after its successors. -/
theorem sort_spec {succ : α → List α} {roots : List α} (hac : Acyclic succ)
    (hclosed : ∀ x ∈ roots, ∀ p ∈ succ x, p ∈ roots) {fuel : ℕ} (hfuel : 2 * roots.length ≤ fuel)
    (hnodup : roots.Nodup) :
    (sort succ fuel roots).Perm roots ∧ Ordered succ (sort succ fuel roots) := by
  have hinit : Inv succ roots.toFinset start :=
    { start_marks with
      path := List.IsChain.nil
      ordered := fun l₁ x l₂ he => absurd he (by simp [start])
      stack_nodes := fun x hx => absurd hx List.not_mem_nil
      out_nodes := fun x hx => absurd hx List.not_mem_nil }
  have hcard : 2 * roots.toFinset.card ≤ fuel := by
    rwa [List.toFinset_card_of_nodup hnodup]
  obtain ⟨hinv, hseen⟩ := foldl_visit_spec hac
    (fun x hx p hp => List.mem_toFinset.2 (hclosed x (List.mem_toFinset.1 hx) p hp)) hcard roots hinit
    rfl fun x hx => List.mem_toFinset.2 hx
  refine ⟨(List.perm_ext_iff_of_nodup hinv.out_nodup hnodup).2 fun x => ⟨fun hx => ?_, fun hx => ?_⟩,
    hinv.ordered⟩
  · exact List.mem_toFinset.1 (hinv.out_nodes x hx)
  · exact hseen x (.inl hx)

end SneppxAlg.Lib.DepthFirst
