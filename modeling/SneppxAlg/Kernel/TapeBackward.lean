import SneppxAlg.Kernel.Tape
import SneppxAlg.Lib.PathSum

/-!
# The backward pass computes the sums over all paths

Every backward function adds an additive map of the gradient of its variable to the gradients of its
parents. On a tape without cycles the sort puts parents first, so that a variable is called when all
its consumers have been, and its gradient is then the sum over all paths from the loss. Shared
variables and repeated parents need no care of their own: an edge is a place in the list of parents.

Main result: `tapeBackward_spec`.
-/

namespace SneppxAlg.Autodiff

open Lib

variable {C : Type}

/-! ## The sort -/

/-- `p` is a parent of `v`, and both are on the tape. -/
def Tape.IsParent (tape : Tape) (vars : ℕ → Variable C) (v p : ℕ) : Prop :=
  v ∈ tape.vars ∧ p ∈ tape.vars ∧ some p ∈ (vars v).parents

/-- No variable is its own ancestor. -/
def Tape.Acyclic (tape : Tape) (vars : ℕ → Variable C) : Prop :=
  ∀ v, ¬Relation.TransGen (tape.IsParent vars) v v

def ParentsFirst (tape : Tape) (vars : ℕ → Variable C) (sorted : List ℕ) : Prop :=
  ∀ l₁ v l₂, sorted = l₁ ++ v :: l₂ → ∀ p, some p ∈ (vars v).parents → p ∈ tape.vars → p ∈ l₁

/-- An entry of `parentIndices` is the place of a parent. -/
theorem mem_parentIndices {tape : Tape} {vars : ℕ → Variable C} {i j : ℕ} :
    j ∈ parentIndices tape vars i ↔
      ∃ v p, tape.vars[i]? = some v ∧ some p ∈ (vars v).parents ∧ tape.vars.idxOf? p = some j := by
  unfold parentIndices
  cases tape.vars[i]? with
  | none => simp
  | some v =>
    simp only [List.mem_filterMap]
    constructor
    · rintro ⟨q, hq, hj⟩
      cases q with
      | none => cases hj
      | some p => exact ⟨v, p, rfl, hq, hj⟩
    · rintro ⟨v', p, hv, hp, hj⟩
      obtain rfl := Option.some.inj hv
      exact ⟨some p, hp, hj⟩

theorem getElem?_of_idxOf? {l : List ℕ} {p j : ℕ} (h : l.idxOf? p = some j) : l[j]? = some p := by
  obtain ⟨hj, he, -⟩ := List.findIdx?_eq_some_iff_getElem.1 h
  rw [List.getElem?_eq_getElem hj]
  simpa using he

/-- A path between places is a path between the variables. -/
theorem transGen_isParent {tape : Tape} {vars : ℕ → Variable C} {i j v : ℕ}
    (h : Relation.TransGen (fun a b => b ∈ parentIndices tape vars a) i j)
    (hv : tape.vars[i]? = some v) :
    ∃ w, tape.vars[j]? = some w ∧ Relation.TransGen (tape.IsParent vars) v w := by
  have hedge : ∀ {a b u : ℕ}, b ∈ parentIndices tape vars a → tape.vars[a]? = some u →
      ∃ w, tape.vars[b]? = some w ∧ tape.IsParent vars u w := by
    intro a b u hb hu
    obtain ⟨u', p, hu', hp, hj⟩ := mem_parentIndices.1 hb
    obtain rfl := Option.some.inj (hu.symm.trans hu')
    have hbp := getElem?_of_idxOf? hj
    exact ⟨p, hbp, List.mem_of_getElem? hu, List.mem_of_getElem? hbp, hp⟩
  induction h with
  | single h =>
    obtain ⟨w, hw, hp⟩ := hedge h hv
    exact ⟨w, hw, .single hp⟩
  | tail _ h ih =>
    obtain ⟨u, hu, ht⟩ := ih
    obtain ⟨w, hw, hp⟩ := hedge h hu
    exact ⟨w, hw, ht.tail hp⟩

theorem acyclic_parentIndices {tape : Tape} {vars : ℕ → Variable C} (hac : tape.Acyclic vars) :
    DepthFirst.Acyclic (parentIndices tape vars) := by
  intro i h
  obtain ⟨j, hij, -⟩ := Relation.TransGen.head'_iff.1 h
  obtain ⟨v, -, hv, -, -⟩ := mem_parentIndices.1 hij
  obtain ⟨w, hw, ht⟩ := transGen_isParent h hv
  obtain rfl := Option.some.inj (hv.symm.trans hw)
  exact hac v ht

theorem filterMap_range (l : List ℕ) : (List.range l.length).filterMap (fun i => l[i]?) = l := by
  have hmap : (List.range l.length).filterMap (fun i => l[i]?)
      = (List.range l.length).map fun i => l.getD i 0 := by
    rw [← List.filterMap_eq_map]
    apply List.filterMap_congr
    intro i hi
    have hi' := List.mem_range.1 hi
    simp [hi']
  rw [hmap]
  apply List.ext_getElem
  · simp
  · intro k h1 h2
    simp [h2]

/-- The sort lists every variable of the tape once, after its parents. -/
theorem topologicalSort_spec {tape : Tape} {vars : ℕ → Variable C} (hn : tape.vars.length < 500000)
    (hac : tape.Acyclic vars) :
    (topologicalSort tape vars).Perm tape.vars ∧
      ParentsFirst tape vars (topologicalSort tape vars) := by
  have hclosed : ∀ i ∈ List.range tape.vars.length, ∀ j ∈ parentIndices tape vars i,
      j ∈ List.range tape.vars.length := by
    intro i _ j hj
    obtain ⟨v, p, -, -, hj⟩ := mem_parentIndices.1 hj
    obtain ⟨hlt, -⟩ := List.getElem?_eq_some_iff.1 (getElem?_of_idxOf? hj)
    exact List.mem_range.2 hlt
  have hfuel : 2 * (List.range tape.vars.length).length ≤ loopGuard := by
    rw [List.length_range, loopGuard]
    omega
  obtain ⟨hperm, hord⟩ :=
    DepthFirst.sort_spec (acyclic_parentIndices hac) hclosed hfuel List.nodup_range
  constructor
  · have := hperm.filterMap fun i => tape.vars[i]?
    rwa [filterMap_range] at this
  · intro l₁ v l₂ he p hp hpt
    obtain ⟨m₁, m₂, hm, rfl, hm₂⟩ := List.filterMap_eq_append_iff.1 he
    obtain ⟨m₃, i, m₄, rfl, hnone, hi, -⟩ := List.filterMap_eq_cons_iff.1 hm₂
    obtain ⟨j, hj⟩ := Option.isSome_iff_exists.1 (List.isSome_idxOf?.2 hpt)
    have hmem : j ∈ parentIndices tape vars i := mem_parentIndices.2 ⟨v, p, hi, hp, hj⟩
    rw [← List.append_assoc] at hm
    have hjp := getElem?_of_idxOf? hj
    rcases List.mem_append.1 (hord _ i m₄ hm j hmem) with hbefore | hbefore
    · exact List.mem_filterMap.2 ⟨j, hbefore, hjp⟩
    · rw [hnone j hbefore] at hjp
      cases hjp

def ConsumersFirst (tape : Tape) (vars : ℕ → Variable C) (order : List ℕ) : Prop :=
  ∀ l₁ p l₂, order = l₁ ++ p :: l₂ → ∀ w ∈ tape.vars, some p ∈ (vars w).parents → w ∈ l₁

theorem consumersFirst_reverse {tape : Tape} {vars : ℕ → Variable C} {sorted : List ℕ}
    (hperm : sorted.Perm tape.vars) (h : ParentsFirst tape vars sorted) :
    ConsumersFirst tape vars sorted.reverse := by
  intro l₁ p l₂ he w hw hp
  have hsorted : sorted = l₂.reverse ++ p :: l₁.reverse := by
    rw [← List.reverse_reverse sorted, he]
    simp
  have hnodup : sorted.Nodup := hperm.nodup_iff.2 tape.nodup
  have hpt : p ∈ tape.vars := hperm.mem_iff.1 (by simp [hsorted])
  have hfresh : p ∉ l₂.reverse := by
    rw [hsorted] at hnodup
    exact fun hmem => List.disjoint_of_nodup_append hnodup hmem List.mem_cons_self
  have hws : w ∈ l₂.reverse ++ p :: l₁.reverse := hsorted ▸ hperm.mem_iff.2 hw
  rcases List.mem_append.1 hws with hw₂ | hw₁
  · -- its parent would come before it, and so twice
    obtain ⟨a, b, hab⟩ := List.append_of_mem hw₂
    have hpa := h a w (b ++ p :: l₁.reverse) (by rw [hsorted, hab]; simp) p hp hpt
    exact absurd (by rw [hab]; exact List.mem_append_left _ hpa) hfresh
  · rcases List.mem_cons.1 hw₁ with rfl | hw₁
    · exact absurd (h _ w _ hsorted w hp hpt) hfresh
    · exact List.mem_reverse.1 hw₁

/-- The place of a consumer is before that of its parent; what is not listed comes last. -/
theorem idxOf_lt_of_consumer {tape : Tape} {vars : ℕ → Variable C} {order : List ℕ}
    (hperm : order.Perm tape.vars) (h : ConsumersFirst tape vars order) {w p : ℕ} (hw : w ∈ tape.vars)
    (hp : some p ∈ (vars w).parents) : order.idxOf w < order.idxOf p := by
  have hwo : w ∈ order := hperm.mem_iff.2 hw
  by_cases hpo : p ∈ order
  · obtain ⟨l₁, l₂, he⟩ := List.append_of_mem hpo
    have hwl := h l₁ p l₂ he w hw hp
    have hnodup : order.Nodup := hperm.nodup_iff.2 tape.nodup
    have hpl : p ∉ l₁ := by
      rw [he] at hnodup
      exact fun hmem => List.disjoint_of_nodup_append hnodup hmem List.mem_cons_self
    rw [he, List.idxOf_append_of_mem hwl, List.idxOf_append_of_notMem hpl, List.idxOf_cons_self]
    exact List.idxOf_lt_length_of_mem hwl
  · rw [List.idxOf_eq_length hpo]
    exact List.idxOf_lt_length_of_mem hwo

theorem not_consumer_of_sublist {tape : Tape} {vars : ℕ → Variable C} {order : List ℕ}
    (hperm : order.Perm tape.vars) (h : ConsumersFirst tape vars order) {v w : ℕ}
    (hsub : [v, w].Sublist order) (hw : w ∈ tape.vars) : some v ∉ (vars w).parents := by
  intro hp
  obtain ⟨r₁, r₂, rfl, hv, hw₂⟩ := List.cons_sublist_iff.1 hsub
  obtain ⟨a, b, rfl⟩ := List.append_of_mem hv
  have hwa : w ∈ a := h a v (b ++ r₂) (by simp) w hw hp
  have hnodup := hperm.nodup_iff.2 tape.nodup
  exact List.disjoint_of_nodup_append hnodup (List.mem_append_left _ hwa) (List.singleton_sublist.1 hw₂)

/-- Each variable is called at most once, and no consumer on the tape is called after it. -/
def CallsOrdered (tape : Tape) (vars : ℕ → Variable C) (calls : List ℕ) : Prop :=
  calls.Nodup ∧ ∀ l₁ v l₂, calls = l₁ ++ v :: l₂ →
    ∀ w ∈ tape.vars, some v ∈ (vars w).parents → w ∉ l₂

theorem callsOrdered_of_sublist {tape : Tape} {vars : ℕ → Variable C} {order calls : List ℕ}
    (hperm : order.Perm tape.vars) (h : ConsumersFirst tape vars order) (hsub : calls.Sublist order) :
    CallsOrdered tape vars calls := by
  refine ⟨hsub.nodup (hperm.nodup_iff.2 tape.nodup), ?_⟩
  rintro l₁ v l₂ rfl w hw hp hwl
  have hpair : [v, w].Sublist (l₁ ++ v :: l₂) :=
    ((List.singleton_sublist.2 hwl).cons_cons v).trans (List.sublist_append_right _ _)
  exact not_consumer_of_sublist hperm h (hpair.trans hsub) hw hp

/-! ## Linear backward functions -/

section Linear

variable {M : ℕ → Type} [∀ v, AddCommMonoid (M v)]

/-- What the backward function of `v` with a context adds to the parent `p` at place `k`; it may leave
a parent alone. -/
abbrev Linear (M : ℕ → Type) [∀ v, AddCommMonoid (M v)] (C : Type) : Type :=
  (v : ℕ) → C → (k p : ℕ) → Option (M v →+ M p)

/-- The part of a backward function for one parent. -/
def addParent (lin : Linear M C) (v : ℕ) (c : C) (g : M v) (grads : Grads M) (q : Option ℕ × ℕ) :
    Grads M :=
  match q.1 with
  | none => grads
  | some p =>
    match lin v c q.2 p with
    | none => grads
    | some f => gradAccum grads p (f g)

/-- A backward function that adds a linear map of its gradient to each parent. -/
def linearCall (lin : Linear M C) (vars : ℕ → Variable C) : Backward M C := fun v c g grads =>
  (vars v).parents.zipIdx.foldl (addParent lin v c g) grads

/-- The map of the edge from `v` to its parent `p` at place `k`. -/
def edgeMap (lin : Linear M C) (vars : ℕ → Variable C) (v k p : ℕ) : M v →+ M p :=
  match (vars v).context with
  | none => 0
  | some c => (lin v c k p).getD 0

/-- The edges from a variable with a backward function to its parents. -/
def edges (lin : Linear M C) (vars : ℕ → Variable C) : PathSum.Edges ℕ M where
  edge v p := { k : Fin (vars v).parents.length //
    (vars v).backwardFn = true ∧ (vars v).parents.get k = some p }
  finite _ _ := inferInstance
  map e := edgeMap lin vars _ e.1 _

/-- What `v` adds to the gradient of `p`, of its own gradient `g`. -/
def sent (lin : Linear M C) (vars : ℕ → Variable C) (v p : ℕ) (g : M v) : M p :=
  if (vars v).backwardFn then
    ((vars v).parents.zipIdx.map fun q => if q.1 = some p then edgeMap lin vars v q.2 p g else 0).sum
  else 0

theorem gradAccum_getD (grads : Grads M) (p : ℕ) (x : M p) (r : ℕ) :
    (gradAccum grads p x r).getD 0 = (grads r).getD 0 + Pi.single p x r := by
  by_cases hr : r = p
  · subst hr
    cases hg : grads r with
    | none => simp [gradAccum, hg]
    | some y => simp [gradAccum, hg]
  · simp [gradAccum, Function.update_of_ne hr, Pi.single_eq_of_ne hr]

theorem addParent_getD (lin : Linear M C) (vars : ℕ → Variable C) {v : ℕ} {c : C} (g : M v)
    (grads : Grads M) (q : Option ℕ × ℕ) (hc : (vars v).context = some c) (r : ℕ) :
    (addParent lin v c g grads q r).getD 0
      = (grads r).getD 0 + if q.1 = some r then edgeMap lin vars v q.2 r g else 0 := by
  obtain ⟨p, k⟩ := q
  cases p with
  | none => simp [addParent]
  | some p =>
    cases hl : lin v c k p with
    | none =>
      by_cases hr : p = r
      · subst hr
        simp [addParent, edgeMap, hc, hl]
      · simp [addParent, hl, hr]
    | some f =>
      simp only [addParent, hl, gradAccum_getD]
      by_cases hr : p = r
      · subst hr
        simp [edgeMap, hc, hl]
      · simp [hr]

theorem foldl_addParent_getD (lin : Linear M C) (vars : ℕ → Variable C) {v : ℕ} {c : C} (g : M v)
    (hc : (vars v).context = some c) (qs : List (Option ℕ × ℕ)) (grads : Grads M) (r : ℕ) :
    (qs.foldl (addParent lin v c g) grads r).getD 0
      = (grads r).getD 0
        + (qs.map fun q => if q.1 = some r then edgeMap lin vars v q.2 r g else 0).sum := by
  induction qs generalizing grads with
  | nil => simp
  | cons q qs ih =>
    rw [List.foldl_cons, ih, addParent_getD lin vars g grads q hc r, List.map_cons, List.sum_cons,
      add_assoc]

theorem linearCall_getD (lin : Linear M C) (vars : ℕ → Variable C) {v : ℕ} {c : C} (g : M v)
    (hf : (vars v).backwardFn = true) (hc : (vars v).context = some c) (grads : Grads M) (r : ℕ) :
    (linearCall lin vars v c g grads r).getD 0 = (grads r).getD 0 + sent lin vars v r g := by
  rw [linearCall, foldl_addParent_getD lin vars g hc, sent, if_pos hf]

theorem sum_zipIdx {α β : Type} [AddCommMonoid β] (l : List α) (f : α × ℕ → β) :
    (l.zipIdx.map f).sum = ∑ k : Fin l.length, f (l.get k, k) := by
  rw [← List.sum_ofFn]
  congr 1
  apply List.ext_getElem
  · simp
  · intro k h1 h2
    simp

theorem finsum_edges (lin : Linear M C) (vars : ℕ → Variable C) (v p : ℕ) (g : M v) :
    (finsum fun e : (edges lin vars).edge v p => (edges lin vars).map e g) = sent lin vars v p g := by
  classical
  rw [sent, sum_zipIdx]
  calc (finsum fun e : (edges lin vars).edge v p => (edges lin vars).map e g)
      = finsum fun k : Fin (vars v).parents.length =>
          finsum fun _ : (vars v).backwardFn = true ∧ (vars v).parents.get k = some p =>
            edgeMap lin vars v k p g :=
        @finsum_subtype_eq_finsum_cond _ _ _ (fun k : Fin _ => edgeMap lin vars v k p g)
          fun k => (vars v).backwardFn = true ∧ (vars v).parents.get k = some p
    _ = ∑ k : Fin (vars v).parents.length,
          if (vars v).backwardFn = true ∧ (vars v).parents.get k = some p then edgeMap lin vars v k p g
          else 0 := by
        rw [finsum_eq_sum_of_fintype]
        exact Fintype.sum_congr _ _ fun k => finsum_eq_if
    _ = _ := by
        by_cases hf : (vars v).backwardFn = true
        · simp [hf]
        · simp [hf]

/-! ## The backward pass -/

section Pass

variable (lin : Linear M C) (tape : Tape) (vars : ℕ → Variable C) (loss : ℕ) (seed : M loss)

/-- The sum over all paths from the loss. -/
noncomputable def gradient (v : ℕ) : M v := PathSum.pathSum (edges lin vars) loss seed v

/-- The state after the variables `done`: each has sent its gradient, the rest is untouched. -/
structure Passed (done : List ℕ) (s : Heap M C) : Prop where
  grads : ∀ p, (s.grads p).getD 0
    = Pi.single loss seed p + (done.map fun u => sent lin vars u p (gradient lin vars loss seed u)).sum
  vars : ∀ u, u ∉ done → s.vars u = vars u
  calls : s.calls.Sublist done

theorem sent_zero (v p : ℕ) : sent lin vars v p 0 = 0 := by
  simp [sent]

theorem sent_of_context_none {v : ℕ} (hc : (vars v).context = none) (p : ℕ) (g : M v) :
    sent lin vars v p g = 0 := by
  simp [sent, edgeMap, hc]

theorem sent_of_not_parent {v p : ℕ} (hp : some p ∉ (vars v).parents) (g : M v) :
    sent lin vars v p g = 0 := by
  have hzero : ∀ q ∈ (vars v).parents.zipIdx,
      (if q.1 = some p then edgeMap lin vars v q.2 p g else 0) = 0 := by
    intro q hq
    rw [if_neg]
    rintro he
    exact hp (he ▸ List.fst_mem_of_mem_zipIdx hq)
  rw [sent, List.map_congr_left hzero]
  simp

def LeavesOff (tape : Tape) (vars : ℕ → Variable C) : Prop := ∀ u, u ∉ tape.vars → (vars u).parents = []

variable {lin tape vars loss seed}

/-- The gradient of a variable is what all variables on the tape send to it. -/
theorem gradient_eq_sum {order : List ℕ} (hperm : order.Perm tape.vars)
    (hcons : ConsumersFirst tape vars order) (hoff : LeavesOff tape vars) (v : ℕ) :
    gradient lin vars loss seed v
      = Pi.single loss seed v
        + (order.map fun w => sent lin vars w v (gradient lin vars loss seed w)).sum := by
  have hparent : ∀ {w p : ℕ}, (edges lin vars).edge w p → w ∈ tape.vars ∧ some p ∈ (vars w).parents := by
    rintro w p ⟨k, -, hk⟩
    have hmem : some p ∈ (vars w).parents := hk ▸ List.get_mem _ k
    refine ⟨?_, hmem⟩
    by_contra hw
    rw [hoff w hw] at hmem
    cases hmem
  have hT : ∀ {w p : ℕ}, (edges lin vars).edge w p → w ∈ order.toFinset := fun e =>
    List.mem_toFinset.2 (hperm.mem_iff.2 (hparent e).1)
  have hrank : ∀ {w p : ℕ}, (edges lin vars).edge w p → order.idxOf w < order.idxOf p := fun e =>
    idxOf_lt_of_consumer hperm hcons (hparent e).1 (hparent e).2
  have hsum := PathSum.pathSum_eq (edges lin vars) loss order.toFinset hT order.idxOf hrank seed v
  simp only [finsum_edges] at hsum
  rwa [List.sum_toFinset _ (hperm.nodup_iff.2 tape.nodup)] at hsum

/-- The gradient of a variable all of whose consumers are done. -/
theorem gradient_eq {order : List ℕ} (hperm : order.Perm tape.vars)
    (hcons : ConsumersFirst tape vars order) (hoff : LeavesOff tape vars) {done rest : List ℕ} {u : ℕ}
    (horder : order = done ++ u :: rest) :
    gradient lin vars loss seed u
      = Pi.single loss seed u
        + (done.map fun w => sent lin vars w u (gradient lin vars loss seed w)).sum := by
  have hnodup : (done ++ u :: rest).Nodup := horder ▸ hperm.nodup_iff.2 tape.nodup
  have hzero : ∀ w ∈ u :: rest, sent lin vars w u (gradient lin vars loss seed w) = 0 := by
    intro w hw
    apply sent_of_not_parent
    intro hp
    have hwt : w ∈ tape.vars := hperm.mem_iff.1 (by rw [horder]; exact List.mem_append_right _ hw)
    exact List.disjoint_of_nodup_append hnodup (hcons done u rest horder w hwt hp) hw
  rw [gradient_eq_sum hperm hcons hoff, horder, List.map_append, List.sum_append,
    List.map_congr_left hzero]
  simp

/-- One round sends the gradient of one more variable. -/
theorem backwardStep_passed {order : List ℕ} (hperm : order.Perm tape.vars)
    (hcons : ConsumersFirst tape vars order) (hoff : LeavesOff tape vars) {done rest : List ℕ} {u : ℕ}
    (horder : order = done ++ u :: rest) {s : Heap M C} (h : Passed lin vars loss seed done s) :
    Passed lin vars loss seed (done ++ [u]) (backwardStep (linearCall lin vars) s u) := by
  have hnodup : (done ++ u :: rest).Nodup := horder ▸ hperm.nodup_iff.2 tape.nodup
  have hu : u ∉ done := fun hmem => List.disjoint_of_nodup_append hnodup hmem List.mem_cons_self
  have hgrad : (s.grads u).getD 0 = gradient lin vars loss seed u := by
    rw [h.grads u, gradient_eq hperm hcons hoff horder]
  have hsnoc : ∀ p, Pi.single loss seed p
        + ((done ++ [u]).map fun w => sent lin vars w p (gradient lin vars loss seed w)).sum
      = (s.grads p).getD 0 + sent lin vars u p (gradient lin vars loss seed u) := by
    intro p
    rw [h.grads p, List.map_append, List.sum_append, add_assoc]
    simp
  unfold backwardStep
  cases hpend : s.pending u with
  | none =>
    -- a variable that is passed over sends nothing
    have hnone : ∀ p, sent lin vars u p (gradient lin vars loss seed u) = 0 := by
      intro p
      simp only [Heap.pending, h.vars u hu] at hpend
      by_cases hf : (vars u).backwardFn = true
      · rw [if_pos hf] at hpend
        cases hg : s.grads u with
        | none =>
          rw [← hgrad, hg]
          exact sent_zero lin vars u p
        | some g =>
          rw [hg] at hpend
          exact sent_of_context_none lin vars (by simpa using hpend) p _
      · rw [sent, if_neg hf]
    refine ⟨fun p => ?_, fun w hw => h.vars w fun hmem => hw (List.mem_append_left _ hmem),
      h.calls.trans (List.sublist_append_left _ _)⟩
    rw [hsnoc, hnone, add_zero]
  | some r =>
    obtain ⟨c, g⟩ := r
    simp only [Heap.pending, h.vars u hu] at hpend
    by_cases hf : (vars u).backwardFn = true
    · rw [if_pos hf] at hpend
      obtain ⟨g', hg, hpend⟩ := Option.bind_eq_some_iff.1 hpend
      obtain ⟨c', hc, he⟩ := Option.map_eq_some_iff.1 hpend
      obtain ⟨rfl, rfl⟩ := Prod.mk.inj he
      rw [hg, Option.getD_some] at hgrad
      refine ⟨fun p => ?_, fun w hw => ?_, h.calls.append (List.Sublist.refl _)⟩
      · rw [hsnoc, ← hgrad]
        exact linearCall_getD lin vars g' hf hc s.grads p
      · have hwu : w ≠ u := fun he => hw (he ▸ List.mem_append_right _ List.mem_cons_self)
        dsimp only
        rw [Function.update_of_ne hwu]
        exact h.vars w fun hmem => hw (List.mem_append_left _ hmem)
    · rw [if_neg hf] at hpend
      cases hpend

theorem backwardLoop_passed {order : List ℕ} (hperm : order.Perm tape.vars)
    (hcons : ConsumersFirst tape vars order) (hoff : LeavesOff tape vars) (rest : List ℕ) :
    ∀ {done : List ℕ} {s : Heap M C}, order = done ++ rest → Passed lin vars loss seed done s →
      Passed lin vars loss seed order (rest.foldl (backwardStep (linearCall lin vars)) s) := by
  induction rest with
  | nil =>
    intro done s horder h
    rw [List.append_nil] at horder
    exact horder ▸ h
  | cons u rest ih =>
    intro done s horder h
    have hnext : order = (done ++ [u]) ++ rest := by rw [horder, List.append_cons]
    exact ih hnext (backwardStep_passed hperm hcons hoff horder h)

theorem backwardStart_passed :
    Passed lin vars loss seed [] (backwardStart vars (fun _ => none) loss seed) := by
  refine ⟨fun p => ?_, fun _ _ => rfl, List.Sublist.refl _⟩
  by_cases hp : p = loss
  · subst hp
    simp [backwardStart]
  · simp [backwardStart, Function.update_of_ne hp, Pi.single_eq_of_ne hp]

/-- On a tape of fewer than 500000 variables without cycles, where variables that are not on the tape
are leaves: the sort lists every variable once, after its parents; each backward function is called at
most once, and no consumer of its variable is called after it; and every variable ends with the sum
over all paths from the loss. -/
theorem tapeBackward_spec (lin : Linear M C) (tape : Tape) (vars : ℕ → Variable C) (loss : ℕ)
    (seed : M loss) (hn : tape.vars.length < 500000) (hac : tape.Acyclic vars)
    (hoff : LeavesOff tape vars) :
    ((topologicalSort tape vars).Perm tape.vars ∧
      ParentsFirst tape vars (topologicalSort tape vars)) ∧
    CallsOrdered tape vars
      (tapeBackward (linearCall lin vars) tape vars (fun _ => none) loss seed).calls ∧
    ∀ v, ((tapeBackward (linearCall lin vars) tape vars (fun _ => none) loss seed).grads v).getD 0
      = gradient lin vars loss seed v := by
  obtain ⟨hsort, hfirst⟩ := topologicalSort_spec hn hac
  have hperm := (List.reverse_perm (topologicalSort tape vars)).trans hsort
  have hcons := consumersFirst_reverse hsort hfirst
  have hstart : Passed lin vars loss seed [] (backwardStart vars (fun _ => none) loss seed) :=
    backwardStart_passed
  have hpassed := backwardLoop_passed hperm hcons hoff _ (List.nil_append _).symm hstart
  refine ⟨⟨hsort, hfirst⟩, callsOrdered_of_sublist hperm hcons hpassed.calls, fun v => ?_⟩
  rw [gradient_eq_sum hperm hcons hoff v]
  exact hpassed.grads v

/-- A variable `1` with the parent `0` twice, `2` with the parents `0` and `1`, and the loss `3` with the
parents `1` and `2`. -/
def diamond (v : ℕ) : Variable Unit :=
  { parents := match v with
      | 1 => [some 0, some 0]
      | 2 => [some 0, none, some 1]
      | 3 => [some 1, some 2, some 7]
      | _ => []
    backwardFn := v = 1 ∨ v = 2 ∨ v = 3
    backwardCtx := some ()
    checkpointed := false
    recomputeCtx := none }

/-- Five paths lead from the loss to the shared variable. -/
theorem tapeBackward_spec_diamond :
    gradient (fun _ _ _ _ => some (AddMonoidHom.id ℤ)) diamond 3 (1 : ℤ) 0 = 5 := by
  have hac : Tape.Acyclic ⟨[3, 1, 0, 2], by decide⟩ diamond := by
    intro v h
    have hlt : ∀ {a b : ℕ}, Tape.IsParent ⟨[3, 1, 0, 2], by decide⟩ diamond a b → b < a := by
      rintro a b ⟨ha, hb, hp⟩
      revert b
      revert a
      decide
    have hdec : ∀ {a b : ℕ},
        Relation.TransGen (Tape.IsParent ⟨[3, 1, 0, 2], by decide⟩ diamond) a b → b < a := by
      intro a b hab
      induction hab with
      | single h => exact hlt h
      | tail _ h ih => exact (hlt h).trans ih
    exact lt_irrefl v (hdec h)
  have hoff : LeavesOff ⟨[3, 1, 0, 2], by decide⟩ diamond := by
    intro u hu
    simp only [List.mem_cons, List.not_mem_nil, or_false, not_or] at hu
    unfold diamond
    split
    · omega
    · omega
    · omega
    · rfl
  obtain ⟨-, -, hgrad⟩ := tapeBackward_spec (fun _ _ _ _ => some (AddMonoidHom.id ℤ))
    ⟨[3, 1, 0, 2], by decide⟩ diamond 3 (1 : ℤ) (by decide) hac hoff
  rw [← hgrad 0]
  decide +kernel

end Pass

end Linear

end SneppxAlg.Autodiff
