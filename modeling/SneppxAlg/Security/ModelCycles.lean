import SneppxAlg.Lib.StackSearch
import SneppxAlg.Security.ModelChecking

/-!
# The search for cycles

`SNEPPX_model_has_cycle` and `SNEPPX_model_check_liveness` of `security/formal/model_checking.c`. A state is
marked in two arrays when it comes off the stack, and a transition to a state that is marked in both is taken
for the end of a cycle. But the second mark is removed as soon as the transitions of the state have been
looked at, and not when all that follows it is done. So it is the mark of the current state alone, and what
is found are transitions of a state to itself (`hasCycle_eq`).

The states that are looked at are those of a search with a stack of 1024 places. If the model has fewer
transitions than that, these are all states that can be reached.
-/

namespace SneppxAlg.ModelChecking

open Lib.StackSearch

structure CycleState where
  visited : ℕ → Bool
  recStack : ℕ → Bool
  stack : List ℕ

/-- The loops over the transitions of the current state. `none` stands for an index beyond the arrays, and
`some none` for the return of 1. -/
def scanTargets : List ℕ → CycleState → Option (Option CycleState)
  | [], s => some (some s)
  | next :: ys, s =>
    if maxStates ≤ next then none
    else if s.visited next = false then
      scanTargets ys (if s.stack.length < maxStates then { s with stack := next :: s.stack } else s)
    else if s.recStack next then some none
    else scanTargets ys s

/-- The two marks of a state that comes off the stack, if it has none. -/
def CycleState.enter (s : CycleState) (cur : ℕ) (rest : List ℕ) : CycleState :=
  if s.visited cur then { s with stack := rest }
  else
    { visited := Function.update s.visited cur true
      recStack := Function.update s.recStack cur true
      stack := rest }

/-- The rounds, until the stack is empty. -/
def cycleLoop (m : FormalModel) : ℕ → CycleState → Option Bool
  | fuel, s =>
    match s.stack with
    | [] => some false
    | cur :: rest =>
      match fuel with
      | 0 => none
      | fuel + 1 =>
        match scanTargets (m.targets cur) (s.enter cur rest) with
        | none => none
        | some none => some true
        | some (some s) => cycleLoop m fuel { s with recStack := Function.update s.recStack cur false }

/-- A bound on the rounds. -/
def cycleFuel : ℕ := (2 * maxStates + 1) * (maxStates + 1)

/-- `SNEPPX_model_has_cycle`; `true` is the return code 1. -/
def hasCycle (m : FormalModel) : Option Bool :=
  if maxStates ≤ m.initialState then none
  else cycleLoop m cycleFuel ⟨fun _ => false, fun _ => false, [m.initialState]⟩

/-- `SNEPPX_model_check_liveness`. -/
def checkLiveness (m : FormalModel) : Option ℕ := (hasCycle m).map fun r => if r then 0 else 1

/-! ## What it should find -/

/-- All ids fit the arrays, those in the transitions, too. -/
structure IdsInRange (m : FormalModel) : Prop extends InRange m where
  targets : ∀ s ∈ m.states, ∀ y ∈ s.nextStates, y < maxStates

/-- Some state that can be reached can be reached from itself. -/
def CycleReachable (m : FormalModel) : Prop :=
  ∃ x, Reach m.targets m.initialState x ∧ Relation.TransGen (fun x y => y ∈ m.targets x) x x

/-- The answer is yes exactly if there is a cycle, and a model that passes the liveness check has none. -/
def CycleCorrect (m : FormalModel) : Prop :=
  ∃ r, hasCycle m = some r ∧ (r = true ↔ CycleReachable m) ∧ (checkLiveness m = some 1 → ¬ CycleReachable m)

/-- The states that a search with a stack of this size visits. -/
def visitedStates (m : FormalModel) : List ℕ :=
  (visits m.targets maxStates cycleFuel (start m.initialState)).getD []

def FormalModel.transitions (m : FormalModel) : ℕ := (m.states.map (·.nextStates.length)).sum

/-! ## What it finds -/

theorem scanTargets_found {ys : List ℕ} {s : CycleState} (hlt : ∀ y ∈ ys, y < maxStates)
    (hfound : ∃ y ∈ ys, s.visited y = true ∧ s.recStack y = true) : scanTargets ys s = some none := by
  induction ys generalizing s with
  | nil => simp at hfound
  | cons next ys ih =>
    obtain ⟨hnext, hlt⟩ := List.forall_mem_cons.mp hlt
    rw [scanTargets, if_neg (not_le.mpr hnext)]
    cases hvisited : s.visited next with
    | false =>
      -- A state without mark is not the one that is found.
      rw [if_pos rfl]
      refine ih hlt ?_
      obtain ⟨y, hy, hmarks⟩ := hfound
      have hne : y ≠ next := by
        rintro rfl
        simp [hvisited] at hmarks
      refine ⟨y, (List.mem_cons.mp hy).resolve_left hne, ?_⟩
      split_ifs <;> exact hmarks
    | true =>
      rw [if_neg (by simp)]
      cases hrec : s.recStack next with
      | true => rfl
      | false =>
        obtain ⟨y, hy, hmarks⟩ := hfound
        have hne : y ≠ next := by
          rintro rfl
          simp [hrec] at hmarks
        exact ih hlt ⟨y, (List.mem_cons.mp hy).resolve_left hne, hmarks⟩

theorem scanTargets_push {ys : List ℕ} {s : CycleState} (hlt : ∀ y ∈ ys, y < maxStates)
    (hnone : ∀ y ∈ ys, s.visited y = true → s.recStack y = false) :
    scanTargets ys s = some (some
      { s with stack := (ys.foldl (State.push maxStates) ⟨s.visited, s.stack⟩).stack }) := by
  induction ys generalizing s with
  | nil => rfl
  | cons next ys ih =>
    obtain ⟨hnext, hlt⟩ := List.forall_mem_cons.mp hlt
    obtain ⟨hmark, hnone⟩ := List.forall_mem_cons.mp hnone
    rw [scanTargets, if_neg (not_le.mpr hnext), List.foldl_cons]
    cases hvisited : s.visited next with
    | false =>
      rw [if_pos rfl]
      by_cases hroom : s.stack.length < maxStates
      · have hpush : State.push maxStates ⟨s.visited, s.stack⟩ next = ⟨s.visited, next :: s.stack⟩ := by
          rw [State.push, if_pos ⟨hvisited, hroom⟩]
        rw [if_pos hroom, ih hlt (by exact hnone), hpush]
      · have hpush : State.push maxStates ⟨s.visited, s.stack⟩ next = ⟨s.visited, s.stack⟩ := by
          rw [State.push, if_neg (fun h => hroom h.2)]
        rw [if_neg hroom, ih hlt hnone, hpush]
    | true =>
      have hpush : State.push maxStates ⟨s.visited, s.stack⟩ next = ⟨s.visited, s.stack⟩ := by
        rw [State.push, if_neg (fun h => by simp [hvisited] at h)]
      rw [if_neg (by simp), hmark hvisited, if_neg (by simp), ih hlt hnone, hpush]

/-- Between two rounds no second mark is left, and a round finds a transition of the current state to
itself. -/
theorem cycleLoop_eq {m : FormalModel} (hlt : ∀ x, ∀ y ∈ m.targets x, y < maxStates) {fuel : ℕ} {t : State ℕ}
    {l : List ℕ} (hl : visits m.targets maxStates fuel t = some l) :
    cycleLoop m fuel ⟨t.visited, fun _ => false, t.stack⟩ = some (l.any fun x => x ∈ m.targets x) := by
  induction fuel generalizing t l with
  | zero =>
    unfold visits at hl
    split at hl
    · next hstack =>
      obtain rfl := Option.some.inj hl
      unfold cycleLoop
      simp [hstack]
    · simp at hl
  | succ fuel ih =>
    unfold visits at hl
    split at hl
    · next hstack =>
      obtain rfl := Option.some.inj hl
      unfold cycleLoop
      simp [hstack]
    · next x rest hstack =>
      obtain ⟨l', hl', rfl⟩ := Option.map_eq_some_iff.mp hl
      have hrest := ih hl'
      unfold cycleLoop
      simp only [hstack]
      cases hvisited : t.visited x with
      | true =>
        have hsame : Function.update t.visited x true = t.visited := by rw [← hvisited, Function.update_eq_self]
        have hround : t.round m.targets maxStates x rest = (m.targets x).foldl (State.push maxStates)
            ⟨t.visited, rest⟩ := by rw [State.round, hsame]
        have hforget : Function.update (fun _ : ℕ => false) x false = fun _ => false := Function.update_eq_self _ _
        rw [CycleState.enter, if_pos hvisited, scanTargets_push (hlt x) fun _ _ _ => rfl]
        rw [visited_round, hsame, hround] at hrest
        simpa [hforget] using hrest
      | false =>
        have hforget : Function.update (Function.update (fun _ : ℕ => false) x true) x false = fun _ => false := by
          rw [Function.update_idem, Function.update_eq_self]
        rw [CycleState.enter, if_neg (by simp [hvisited])]
        by_cases hself : x ∈ m.targets x
        · rw [scanTargets_found (hlt x) ⟨x, hself, by simp⟩]
          simp [hself]
        · rw [scanTargets_push (hlt x) fun y hy _ => by
            have hne : y ≠ x := ne_of_mem_of_not_mem hy hself
            simp [hne]]
          rw [visited_round, State.round] at hrest
          simpa [hforget, hself] using hrest

section

variable {m : FormalModel}

theorem IdsInRange.lt (h : IdsInRange m) (x : ℕ) : ∀ y ∈ m.targets x, y < maxStates := by
  intro y hy
  obtain ⟨e, he, hy⟩ := mem_targets.mp hy
  exact h.targets e (List.mem_filter.mp he).1 y hy

theorem IdsInRange.closed (h : IdsInRange m) :
    ∀ x ∈ Finset.range maxStates, ∀ y ∈ m.targets x, y ∈ Finset.range maxStates :=
  fun x _ y hy => Finset.mem_range.mpr (h.lt x y hy)

theorem start_inv_model (h : IdsInRange m) :
    Inv m.targets (Finset.range maxStates) maxStates m.initialState (start m.initialState) :=
  start_inv (Finset.mem_range.mpr h.initial) (by decide)

theorem visits_eq (h : IdsInRange m) :
    visits m.targets maxStates cycleFuel (start m.initialState) = some (visitedStates m) := by
  have hrank : rank (Finset.range maxStates) maxStates (start m.initialState) ≤ cycleFuel := by
    have hcard : unvisited (Finset.range maxStates) (start m.initialState) ≤ maxStates :=
      (Finset.card_filter_le _ _).trans (Finset.card_range _).le
    have hweight : weight (Finset.range maxStates) (start m.initialState) =
        2 * unvisited (Finset.range maxStates) (start m.initialState) := by
      rw [weight]
      simp [start]
    have hstack : (start m.initialState).stack.length = 1 := rfl
    rw [rank, hweight, hstack]
    simp only [maxStates, cycleFuel] at hcard ⊢
    omega
  obtain ⟨l, hl⟩ := visits_total h.closed (start_inv_model h) hrank
  rw [visitedStates, hl, Option.getD_some]

theorem hasCycle_eq (h : IdsInRange m) :
    hasCycle m = some ((visitedStates m).any fun x => x ∈ m.targets x) := by
  rw [hasCycle, if_neg (not_le.mpr h.initial)]
  exact cycleLoop_eq h.lt (visits_eq h)

theorem edges_le_transitions (m : FormalModel) (test : ℕ → Bool) :
    edges m.targets (Finset.range maxStates) test ≤ m.transitions := by
  have hall : ∀ states : List ModelState, ∑ x ∈ Finset.range maxStates,
      ((states.filter (·.stateId = x)).flatMap (·.nextStates)).length ≤
        (states.map (·.nextStates.length)).sum := by
    intro states
    induction states with
    | nil => simp
    | cons s states ih =>
      have hterm : ∀ x, (((s :: states).filter (·.stateId = x)).flatMap (·.nextStates)).length =
          (if s.stateId = x then s.nextStates.length else 0) +
            ((states.filter (·.stateId = x)).flatMap (·.nextStates)).length := by
        intro x
        by_cases hid : s.stateId = x <;> simp [hid]
      simp only [hterm]
      rw [Finset.sum_add_distrib, Finset.sum_ite_eq, List.map_cons, List.sum_cons]
      refine Nat.add_le_add ?_ ih
      split_ifs
      · exact le_rfl
      · exact Nat.zero_le _
  exact (Finset.sum_le_sum_of_subset (Finset.filter_subset _ _)).trans (hall m.states)

theorem reach_of_mem_visitedStates (h : IdsInRange m) :
    ∀ x ∈ visitedStates m, Reach m.targets m.initialState x :=
  reach_of_mem_visits h.closed (start_inv_model h) (visits_eq h)

theorem mem_visitedStates (h : IdsInRange m) (hfew : m.transitions < maxStates) {x : ℕ}
    (hx : Reach m.targets m.initialState x) : x ∈ visitedStates m :=
  (mem_visits_iff (Finset.mem_range.mpr h.initial) h.closed ((edges_le_transitions m _).trans_lt hfew)
    (visits_eq h) x).mpr hx

theorem cycleCorrect_iff (h : IdsInRange m) :
    CycleCorrect m ↔ ¬ CycleReachable m ∨ ∃ x ∈ visitedStates m, x ∈ m.targets x := by
  have hsound : (∃ x ∈ visitedStates m, x ∈ m.targets x) → CycleReachable m :=
    fun ⟨x, hx, hself⟩ => ⟨x, reach_of_mem_visitedStates h x hx, .single hself⟩
  constructor
  · rintro ⟨r, hr, hiff, -⟩
    rw [hasCycle_eq h] at hr
    obtain rfl := Option.some.inj hr
    refine or_iff_not_imp_left.mpr fun hcycle => ?_
    simpa using hiff.mpr (not_not.mp hcycle)
  · intro hcond
    refine ⟨_, hasCycle_eq h, ⟨fun hr => hsound (by simpa using hr), fun hcycle => ?_⟩, fun hlive => ?_⟩
    · simpa using hcond.resolve_left (not_not.mpr hcycle)
    · rintro hcycle
      obtain ⟨x, hx, hself⟩ := hcond.resolve_left (not_not.mpr hcycle)
      have hany : (visitedStates m).any (fun x => x ∈ m.targets x) = true := by
        simpa using ⟨x, hx, hself⟩
      rw [checkLiveness, hasCycle_eq h, hany] at hlive
      simp at hlive

/-- With fewer transitions than places on the stack a transition of a reachable state to itself decides. -/
theorem cycleCorrect_iff_of_few (h : IdsInRange m) (hfew : m.transitions < maxStates) :
    CycleCorrect m ↔
      ¬ CycleReachable m ∨ ∃ x, Reach m.targets m.initialState x ∧ x ∈ m.targets x := by
  rw [cycleCorrect_iff h]
  refine or_congr_right (exists_congr fun x => and_congr_left fun _ => ?_)
  exact ⟨reach_of_mem_visitedStates h x, mem_visitedStates h hfew⟩

/-- The answer is right if there is no cycle, or if the search visits a state with a transition to itself. It
visits only what can be reached, and all of that if there are fewer transitions than places on its stack. -/
theorem hasCycle_correct_iff (h : IdsInRange m) :
    (CycleCorrect m ↔ ¬ CycleReachable m ∨ ∃ x ∈ visitedStates m, x ∈ m.targets x) ∧
      (∀ x ∈ visitedStates m, Reach m.targets m.initialState x) ∧
      (m.transitions < maxStates → ∀ x, Reach m.targets m.initialState x → x ∈ visitedStates m) :=
  ⟨cycleCorrect_iff h, reach_of_mem_visitedStates h, fun hfew _ => mem_visitedStates h hfew⟩

end

/-- A cycle of two states, one of which has a transition to itself. -/
def loopOps : List BuildOp :=
  [.addState 0 false false, .addState 1 false false, .addTransition 0 1, .addTransition 1 0, .addTransition 1 1]

theorem hasCycle_correct_iff_loop :
    CycleCorrect (build loopOps) ∧ hasCycle (build loopOps) = some true ∧ visitedStates (build loopOps) = [0, 1] := by
  have hvisited : visitedStates (build loopOps) = [0, 1] := by rfl
  refine ⟨(hasCycle_correct_iff ⟨⟨by decide, by decide⟩, by decide⟩).1.mpr (.inr ⟨1, ?_, by decide⟩), by rfl, hvisited⟩
  rw [hvisited]
  decide

/-- A cycle of two states is not found. -/
theorem not_cycleCorrect_two : ¬ CycleCorrect (build cycleOps) := by
  rintro ⟨r, hr, hiff, -⟩
  have hfalse : hasCycle (build cycleOps) = some false := by rfl
  have hcycle : CycleReachable (build cycleOps) :=
    ⟨0, .refl, .tail (b := 1) (.single (by decide)) (by decide)⟩
  rw [hfalse] at hr
  exact absurd (hiff.mpr hcycle) (by simp [← Option.some.inj hr])

end SneppxAlg.ModelChecking
