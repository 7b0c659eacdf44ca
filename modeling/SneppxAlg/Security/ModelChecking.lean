import Mathlib.Algebra.BigOperators.Group.List.Basic
import Mathlib.Data.Set.Card
import SneppxAlg.Lib.Worklist

/-!
# The model checker

`security/formal/model_checking.c`. A model is a table of states, each with an id and at most eight
transitions. One id may have several entries: `add_transition` goes on to the next entry of the id
when one is full.

`SNEPPX_model_check` searches the ids from the initial one and follows the transitions of all entries
of an id, as far as their targets are declared. It finds what can be reached (`checkSearch_spec`).
`SNEPPX_model_minimize` searches again, this time also along transitions to ids that are not declared,
and then keeps one entry for each id it has found. It leaves the verdict and the counts of the checker
as they are exactly for the models that are `Prunable` (`minimize_iff`).
-/

namespace SneppxAlg.ModelChecking

open Lib.Worklist

/-- `SNEPPX_MODEL_MAX_STATES`. -/
def maxStates : ℕ := 1024

/-- `nextStates` holds the first `next_count` targets. -/
structure ModelState where
  stateId : ℕ
  nextStates : List ℕ
  isAccepting : Bool
  isError : Bool
deriving DecidableEq

/-- `states` holds the first `state_count` entries. -/
structure FormalModel where
  states : List ModelState
  initialState : ℕ

structure CheckResult where
  totalStates : ℕ
  reachableStates : ℕ
  deadlockStates : ℕ
  errorStates : ℕ
  propertySatisfied : Bool
  counterexample : String
deriving DecidableEq

/-! ## Building a model -/

/-- `SNEPPX_model_init`. -/
def modelInit : FormalModel := { states := [], initialState := 0 }

/-- `SNEPPX_model_add_state`. -/
def addState (m : FormalModel) (stateId : ℕ) (isAccepting isError : Bool) : FormalModel :=
  if maxStates ≤ m.states.length then m
  else { m with states := m.states ++ [⟨stateId, [], isAccepting, isError⟩] }

/-- The loop of `SNEPPX_model_add_transition`: the first entry of the id with room. -/
def addTarget (source target : ℕ) : List ModelState → List ModelState
  | [] => []
  | s :: states =>
    if s.stateId = source ∧ s.nextStates.length < 8 then
      { s with nextStates := s.nextStates ++ [target] } :: states
    else s :: addTarget source target states

/-- `SNEPPX_model_add_transition`. -/
def addTransition (m : FormalModel) (source target : ℕ) : FormalModel :=
  { m with states := addTarget source target m.states }

inductive BuildOp where
  | addState (stateId : ℕ) (isAccepting isError : Bool)
  | addTransition (source target : ℕ)

def buildStep (m : FormalModel) : BuildOp → FormalModel
  | .addState stateId isAccepting isError => addState m stateId isAccepting isError
  | .addTransition source target => addTransition m source target

/-- A model built by a sequence of calls. -/
def build (ops : List BuildOp) : FormalModel := ops.foldl buildStep modelInit

/-! ## Checking and pruning -/

/-- The entries of an id, in the order of the table. -/
def FormalModel.entries (m : FormalModel) (x : ℕ) : List ModelState :=
  m.states.filter (·.stateId = x)

/-- The targets of all entries of an id, in the order of the loops. -/
def FormalModel.targets (m : FormalModel) (x : ℕ) : List ℕ := (m.entries x).flatMap (·.nextStates)

/-- The search for `found`. -/
def FormalModel.declared (m : FormalModel) (x : ℕ) : Bool := m.states.any (·.stateId == x)

/-- The ids that the loop of `SNEPPX_model_check` takes off its stack, in that order. -/
def checkSearch (m : FormalModel) : Option (List ℕ) :=
  search (fun x => some ((m.targets x).filter m.declared)) maxStates maxStates m.initialState

/-- The counts over the ids taken off the stack: the loop adds for each of them what its entries
give. -/
def checkCounts (m : FormalModel) (ids : List ℕ) : CheckResult :=
  let errorStates := (ids.map fun x => (m.entries x).countP (·.isError)).sum
  { totalStates := m.states.length
    reachableStates := ids.length
    deadlockStates := (ids.map fun x => (m.entries x).countP (·.nextStates.isEmpty)).sum
    errorStates := errorStates
    propertySatisfied := errorStates == 0
    counterexample := if errorStates == 0 then "ok" else "error state reachable" }

/-- `SNEPPX_model_check`. -/
def modelCheck (m : FormalModel) : Option CheckResult := (checkSearch m).map (checkCounts m)

/-- The targets as `SNEPPX_model_minimize` follows them: it indexes the marks with every target,
which is undefined beyond the array. -/
def pruneTargets (m : FormalModel) (x : ℕ) : Option (List ℕ) :=
  if (m.targets x).all (· < maxStates) then some (m.targets x) else none

/-- The ids that the loop of `SNEPPX_model_minimize` finds. -/
def pruneSearch (m : FormalModel) : Option (List ℕ) :=
  search (pruneTargets m) maxStates maxStates m.initialState

/-- `SNEPPX_model_minimize`: one entry for each id found, in the order of the search. -/
def modelMinimize (m : FormalModel) : Option FormalModel :=
  (pruneSearch m).map fun reachable =>
    { m with states := reachable.filterMap fun x => m.states.find? (·.stateId == x) }

/-! ## What can be reached -/

/-- A transition of some entry of `x` to a declared id. -/
def Step (m : FormalModel) (x y : ℕ) : Prop :=
  ∃ e ∈ m.entries x, y ∈ e.nextStates ∧ m.declared y = true

/-- The ids that can be reached through declared states. -/
def Reachable (m : FormalModel) (x : ℕ) : Prop :=
  Relation.ReflTransGen (Step m) m.initialState x

/-- A transition of the first entry of `x`. -/
def FirstStep (m : FormalModel) (x y : ℕ) : Prop :=
  ∃ e, (m.entries x).head? = some e ∧ y ∈ e.nextStates ∧ m.declared y = true

/-- The ids that can be reached through the first entries alone. -/
def ReachableFirst (m : FormalModel) (x : ℕ) : Prop :=
  Relation.ReflTransGen (FirstStep m) m.initialState x

/-- No error state can be reached. -/
def Safe (m : FormalModel) : Prop := ∀ x, Reachable m x → ∀ e ∈ m.entries x, e.isError = false

/-- The ids of a model fit the arrays of the checker. -/
structure InRange (m : FormalModel) : Prop where
  initial : m.initialState < maxStates
  ids : ∀ s ∈ m.states, s.stateId < maxStates

section

variable {m : FormalModel}

theorem declared_iff {x : ℕ} : m.declared x = true ↔ ∃ e, e ∈ m.entries x := by
  simp [FormalModel.declared, FormalModel.entries]

theorem edge_check {x y : ℕ} :
    Edge (fun x => some ((m.targets x).filter m.declared)) x y ↔ Step m x y := by
  simp only [Edge, Step, Option.some.injEq, exists_eq_left', List.mem_filter, FormalModel.targets,
    List.mem_flatMap]
  constructor
  · rintro ⟨⟨e, he, hy⟩, hd⟩
    exact ⟨e, he, hy, hd⟩
  · rintro ⟨e, he, hy, hd⟩
    exact ⟨⟨e, he, hy⟩, hd⟩

theorem InRange.declared_lt (h : InRange m) {x : ℕ} (hx : m.declared x = true) : x < maxStates := by
  obtain ⟨e, he⟩ := declared_iff.mp hx
  simp only [FormalModel.entries, List.mem_filter, decide_eq_true_eq] at he
  exact he.2 ▸ h.ids e he.1

theorem InRange.root_mem (h : InRange m) : m.initialState ∈ Finset.range maxStates := Finset.mem_range.mpr h.initial

theorem card_states : (Finset.range maxStates).card ≤ maxStates := (Finset.card_range _).le

/-- The search of the checker ends and lists what can be reached. -/
theorem checkSearch_spec (h : InRange m) :
    ∃ ids, checkSearch m = some ids ∧ ids.Nodup ∧ ∀ x, x ∈ ids ↔ Reachable m x := by
  have hnodes : ∀ x ∈ Finset.range maxStates, ∀ ys,
      some ((m.targets x).filter m.declared) = some ys → ∀ y ∈ ys, y ∈ Finset.range maxStates := by
    rintro x - ys hys y hy
    obtain rfl := Option.some.inj hys
    exact Finset.mem_range.mpr (h.declared_lt (List.mem_filter.mp hy).2)
  obtain ⟨ids, hids⟩ := search_total card_states hnodes h.root_mem (fun x _ => ⟨_, rfl⟩) card_states
  obtain ⟨hnodup, hmem, -⟩ := search_spec card_states hnodes h.root_mem hids
  refine ⟨ids, hids, hnodup, fun x => (hmem x).trans ?_⟩
  have hedge : Edge (fun x => some ((m.targets x).filter m.declared)) = Step m := by
    funext x y
    exact propext edge_check
  rw [Lib.Worklist.Reach, hedge]
  rfl

theorem ncard_reachable {ids : List ℕ} (hnodup : ids.Nodup)
    (hmem : ∀ x, x ∈ ids ↔ Reachable m x) : {x | Reachable m x}.ncard = ids.length := by
  have hset : {x | Reachable m x} = (ids.toFinset : Set ℕ) := by
    ext x
    simp [hmem]
  rw [hset, Set.ncard_coe_finset, List.toFinset_card_of_nodup hnodup]

theorem propertySatisfied_iff {ids : List ℕ} (hmem : ∀ x, x ∈ ids ↔ Reachable m x) :
    (checkCounts m ids).propertySatisfied = true ↔ Safe m := by
  simp only [checkCounts, beq_iff_eq, List.sum_eq_zero_iff_forall_eq_nat, List.forall_mem_map, List.countP_eq_zero,
    hmem, Safe, Bool.not_eq_true]

/-! ## The pruned model -/

theorem edge_prune {x y : ℕ} :
    Edge (pruneTargets m) x y ↔ (∀ z ∈ m.targets x, z < maxStates) ∧ y ∈ m.targets x := by
  unfold Edge pruneTargets
  by_cases hall : ∀ z ∈ m.targets x, z < maxStates <;> simp [hall]

theorem pruneTargets_eq_some {x : ℕ} {ys : List ℕ} (h : pruneTargets m x = some ys) :
    ys = m.targets x ∧ ∀ y ∈ ys, y < maxStates := by
  unfold pruneTargets at h
  split_ifs at h with hall
  obtain rfl := Option.some.inj h
  exact ⟨rfl, by simpa using hall⟩

theorem pruneTargets_defined {x : ℕ} :
    (∃ ys, pruneTargets m x = some ys) ↔ ∀ y ∈ m.targets x, y < maxStates := by
  constructor
  · rintro ⟨ys, hys⟩
    obtain ⟨rfl, hall⟩ := pruneTargets_eq_some hys
    exact hall
  · intro hall
    exact ⟨m.targets x, if_pos (by simpa using hall)⟩

theorem mem_targets {x y : ℕ} : y ∈ m.targets x ↔ ∃ e ∈ m.entries x, y ∈ e.nextStates := by
  simp [FormalModel.targets]

/-- The declared ids that the pruning finds can be reached. -/
theorem reachable_of_prune {x : ℕ} (h : Lib.Worklist.Reach (pruneTargets m) m.initialState x)
    (hx : m.declared x = true) : Reachable m x := by
  induction h with
  | refl => exact .refl
  | tail _ hedge ih =>
    obtain ⟨e, he, hy⟩ := mem_targets.mp (edge_prune.mp hedge).2
    exact (ih (declared_iff.mpr ⟨e, he⟩)).tail ⟨e, he, hy, hx⟩

/-- What the pruning finds, where it is defined. -/
theorem pruneSearch_spec (h : InRange m) {ids : List ℕ} (hids : pruneSearch m = some ids) :
    ids.Nodup ∧ m.initialState ∈ ids ∧ (∀ x, m.declared x = true → (x ∈ ids ↔ Reachable m x)) ∧
      ∀ x, Reachable m x → ∀ y ∈ m.targets x, y < maxStates := by
  have hnodes : ∀ x ∈ Finset.range maxStates, ∀ ys, pruneTargets m x = some ys →
      ∀ y ∈ ys, y ∈ Finset.range maxStates := fun x _ ys hys y hy =>
    Finset.mem_range.mpr ((pruneTargets_eq_some hys).2 y hy)
  obtain ⟨hnodup, hmem, hdef⟩ := search_spec card_states hnodes h.root_mem hids
  have hfound : ∀ x, Reachable m x → x ∈ ids := by
    intro x hx
    induction hx with
    | refl => exact (hmem _).mpr .refl
    | @tail b c _ hstep ih =>
      obtain ⟨e, he, hy, -⟩ := hstep
      have hall := pruneTargets_defined.mp (hdef b ih)
      exact (hmem c).mpr (((hmem b).mp ih).tail
        (edge_prune.mpr ⟨hall, mem_targets.mpr ⟨e, he, hy⟩⟩))
  exact ⟨hnodup, (hmem _).mpr .refl,
    fun x hx => ⟨fun hin => reachable_of_prune ((hmem x).mp hin) hx, hfound x⟩,
    fun x hx => pruneTargets_defined.mp (hdef x (hfound x hx))⟩

/-- Where it is defined. -/
theorem pruneSearch_total (h : InRange m)
    (hall : ∀ x, Reachable m x → ∀ y ∈ m.targets x, y < maxStates) :
    ∃ ids, pruneSearch m = some ids := by
  refine search_total card_states ?_ h.root_mem (fun x hx => pruneTargets_defined.mpr ?_) card_states
  · exact fun x _ ys hys y hy => Finset.mem_range.mpr ((pruneTargets_eq_some hys).2 y hy)
  · by_cases hd : m.declared x = true
    · exact hall x (reachable_of_prune hx hd)
    · intro y hy
      obtain ⟨e, he, -⟩ := mem_targets.mp hy
      exact absurd (declared_iff.mpr ⟨e, he⟩) hd

/-- The entries of an id among entries that are picked by id. -/
theorem filter_filterMap_pick {f : ℕ → Option ModelState}
    (hf : ∀ y e, f y = some e → e.stateId = y) {ids : List ℕ} (hnodup : ids.Nodup) (x : ℕ) :
    (ids.filterMap f).filter (·.stateId = x) = if x ∈ ids then (f x).toList else [] := by
  induction ids with
  | nil => simp
  | cons y ids ih =>
    obtain ⟨hy, hrest⟩ := List.nodup_cons.mp hnodup
    have ih := ih hrest
    cases hfy : f y with
    | none =>
      rw [List.filterMap_cons_none hfy, ih]
      by_cases hxy : x = y
      · subst hxy
        simp [hy, hfy]
      · simp [hxy]
    | some e =>
      have hid := hf y e hfy
      rw [List.filterMap_cons_some hfy, List.filter_cons, ih]
      by_cases hxy : x = y
      · subst hxy
        simp [hid, hy, hfy]
      · simp [hid, hxy, Ne.symm hxy]

def pruned (m : FormalModel) (ids : List ℕ) : FormalModel :=
  { m with states := ids.filterMap fun x => m.states.find? (·.stateId == x) }

theorem entries_pruned {ids : List ℕ} (hnodup : ids.Nodup) (x : ℕ) :
    (pruned m ids).entries x = if x ∈ ids then (m.entries x).head?.toList else [] := by
  have hpick := filter_filterMap_pick (f := fun y => m.states.find? (·.stateId == y))
    (fun y e he => by simpa using List.find?_some he) hnodup x
  rw [FormalModel.entries, pruned, hpick, FormalModel.entries, List.head?_filter]
  rfl

theorem declared_pruned {ids : List ℕ} (hnodup : ids.Nodup) {x : ℕ} :
    (pruned m ids).declared x = true ↔ x ∈ ids ∧ m.declared x = true := by
  rw [declared_iff, declared_iff, entries_pruned hnodup]
  by_cases hx : x ∈ ids
  · cases hentries : m.entries x <;> simp [hx]
  · simp [hx]

theorem step_of_firstStep {x y : ℕ} (h : FirstStep m x y) : Step m x y := by
  obtain ⟨e, he, hy, hd⟩ := h
  exact ⟨e, List.mem_of_mem_head? he, hy, hd⟩

theorem reachable_of_first {x : ℕ} (h : ReachableFirst m x) : Reachable m x :=
  Relation.ReflTransGen.mono (fun _ _ => step_of_firstStep) _ _ h

/-- A transition of the pruned model. -/
theorem step_pruned {ids : List ℕ} (hnodup : ids.Nodup) {x y : ℕ} :
    Step (pruned m ids) x y ↔ x ∈ ids ∧ FirstStep m x y ∧ y ∈ ids := by
  unfold Step FirstStep
  simp only [declared_pruned hnodup, entries_pruned hnodup]
  by_cases hx : x ∈ ids
  · simp only [hx, if_true, Option.mem_toList, true_and]
    constructor
    · rintro ⟨e, he, hy, hin, hd⟩
      exact ⟨⟨e, he, hy, hd⟩, hin⟩
    · rintro ⟨⟨e, he, hy, hd⟩, hin⟩
      exact ⟨e, he, hy, hin, hd⟩
  · simp [hx]

theorem mem_of_reachableFirst {ids : List ℕ} (hinit : m.initialState ∈ ids)
    (hmem : ∀ x, m.declared x = true → (x ∈ ids ↔ Reachable m x)) {x : ℕ}
    (h : ReachableFirst m x) : x ∈ ids := by
  rcases Relation.ReflTransGen.cases_tail h with heq | ⟨b, -, hstep⟩
  · rwa [heq]
  · have hd : m.declared x = true := hstep.choose_spec.2.2
    exact (hmem x hd).mpr (reachable_of_first h)

/-- The pruned model reaches what the first entries reach. -/
theorem reachable_pruned {ids : List ℕ} (hnodup : ids.Nodup) (hinit : m.initialState ∈ ids)
    (hmem : ∀ x, m.declared x = true → (x ∈ ids ↔ Reachable m x)) (x : ℕ) :
    Reachable (pruned m ids) x ↔ ReachableFirst m x := by
  constructor
  · intro h
    exact Relation.ReflTransGen.mono (fun a b hab => ((step_pruned hnodup).mp hab).2.1) _ _ h
  · intro h
    induction h with
    | refl => exact .refl
    | @tail b c hb hstep ih =>
      have hb' := mem_of_reachableFirst hinit hmem hb
      have hc' := mem_of_reachableFirst hinit hmem (hb.tail hstep)
      exact ih.tail ((step_pruned hnodup).mpr ⟨hb', hstep, hc'⟩)

theorem inRange_pruned (h : InRange m) (ids : List ℕ) : InRange (pruned m ids) := by
  refine ⟨h.initial, fun e he => ?_⟩
  obtain ⟨x, -, hx⟩ := List.mem_filterMap.mp he
  exact h.ids e (List.mem_of_find?_eq_some hx)

/-! ## Which models can be pruned -/

/-- No id that can be reached has a target beyond the arrays or an error state after its first entry,
and the first entries alone reach all of them. -/
structure Prunable (m : FormalModel) : Prop where
  targets : ∀ x, Reachable m x → ∀ e ∈ m.entries x, ∀ y ∈ e.nextStates, y < maxStates
  errors : ∀ x, Reachable m x → ∀ e ∈ (m.entries x).tail, e.isError = false
  reach : ∀ x, Reachable m x → ReachableFirst m x

theorem countP_entries_split (m : FormalModel) (x : ℕ) :
    (m.entries x).countP (·.isError) =
      (m.entries x).head?.toList.countP (·.isError) + (m.entries x).tail.countP (·.isError) := by
  cases m.entries x with
  | nil => rfl
  | cons e es => simp [List.countP_cons, Nat.add_comm]

/-- The ids of the pruned model, in terms of those of the model. -/
theorem errorStates_pruned {ids ids' : List ℕ} (hnodup : ids.Nodup)
    (hsub : ∀ x ∈ ids', x ∈ ids) :
    (checkCounts (pruned m ids) ids').errorStates =
      (ids'.map fun x => (m.entries x).head?.toList.countP (·.isError)).sum := by
  simp only [checkCounts]
  congr 1
  refine List.map_congr_left fun x hx => ?_
  rw [entries_pruned hnodup, if_pos (hsub x hx)]

theorem errorStates_split (m : FormalModel) (ids : List ℕ) :
    (checkCounts m ids).errorStates =
      (ids.map fun x => (m.entries x).head?.toList.countP (·.isError)).sum +
        (ids.map fun x => (m.entries x).tail.countP (·.isError)).sum := by
  rw [← List.sum_map_add]
  simp only [checkCounts, countP_entries_split]

/-- The counts of the pruned model are those of the model exactly if nothing is lost. -/
theorem counts_pruned_iff {ids ids' found : List ℕ} (hfound : found.Nodup) (hnodup : ids.Nodup)
    (hnodup' : ids'.Nodup) (hsub : ∀ x ∈ ids', x ∈ ids) (hin : ∀ x ∈ ids', x ∈ found) :
    ((checkCounts (pruned m found) ids').reachableStates = (checkCounts m ids).reachableStates ∧
      (checkCounts (pruned m found) ids').errorStates = (checkCounts m ids).errorStates) ↔
      (∀ x ∈ ids, x ∈ ids') ∧ ∀ x ∈ ids, ∀ e ∈ (m.entries x).tail, e.isError = false := by
  have hlen : ids'.length = ids.length ↔ ∀ x ∈ ids, x ∈ ids' := by
    constructor
    · intro hlen x hx
      have hperm := (hnodup'.subperm hsub).perm_of_length_le hlen.ge
      exact hperm.mem_iff.mpr hx
    · intro hall
      exact ((List.perm_ext_iff_of_nodup hnodup' hnodup).mpr
        fun x => ⟨hsub x, hall x⟩).length_eq
  rw [errorStates_pruned hfound hin, errorStates_split m ids]
  show ids'.length = ids.length ∧ _ ↔ _
  rw [hlen]
  refine and_congr_right fun hall => ?_
  have hperm : ids'.Perm ids :=
    (List.perm_ext_iff_of_nodup hnodup' hnodup).mpr fun x => ⟨hsub x, hall x⟩
  rw [(hperm.map _).sum_eq, eq_comm, Nat.add_eq_left, List.sum_eq_zero_iff_forall_eq_nat,
    List.forall_mem_map]
  simp only [List.countP_eq_zero, Bool.not_eq_true]

/-- What the checker and the pruning promise of a model. -/
def Faithful (m : FormalModel) : Prop :=
  ∃ r, modelCheck m = some r ∧ (r.propertySatisfied = true ↔ Safe m) ∧
    r.reachableStates = {x | Reachable m x}.ncard ∧
    ∃ m' r', modelMinimize m = some m' ∧ modelCheck m' = some r' ∧
      r'.propertySatisfied = r.propertySatisfied ∧ r'.reachableStates = r.reachableStates ∧
      r'.errorStates = r.errorStates

theorem modelMinimize_eq_some {m' : FormalModel} (h : modelMinimize m = some m') :
    ∃ found, pruneSearch m = some found ∧ m' = pruned m found := by
  obtain ⟨found, hfound, rfl⟩ := Option.map_eq_some_iff.mp h
  exact ⟨found, hfound, rfl⟩

theorem modelCheck_eq {ids : List ℕ} (h : checkSearch m = some ids) :
    modelCheck m = some (checkCounts m ids) := by
  rw [modelCheck, h]
  rfl

theorem propertySatisfied_eq {r : CheckResult} (h : modelCheck m = some r) :
    r.propertySatisfied = (r.errorStates == 0) := by
  obtain ⟨ids, -, rfl⟩ := Option.map_eq_some_iff.mp h
  rfl

/-- Pruning, where it is defined, keeps the counts exactly if nothing is lost. -/
theorem check_pruned_iff (h : InRange m) {ids found : List ℕ} (hfound : pruneSearch m = some found)
    (hnodup : ids.Nodup) (hmem : ∀ x, x ∈ ids ↔ Reachable m x) :
    ∃ r', modelCheck (pruned m found) = some r' ∧
      ((r'.reachableStates = (checkCounts m ids).reachableStates ∧
        r'.errorStates = (checkCounts m ids).errorStates) ↔ Prunable m) := by
  obtain ⟨hfnodup, hinit, hdecl, htargets⟩ := pruneSearch_spec h hfound
  obtain ⟨ids', hids', hnodup', hmem'⟩ := checkSearch_spec (inRange_pruned h found)
  have hfirst : ∀ x, x ∈ ids' ↔ ReachableFirst m x := fun x =>
    (hmem' x).trans (reachable_pruned hfnodup hinit hdecl x)
  refine ⟨_, modelCheck_eq hids', ?_⟩
  rw [counts_pruned_iff hfnodup hnodup hnodup'
    (fun x hx => (hmem x).mpr (reachable_of_first ((hfirst x).mp hx)))
    (fun x hx => mem_of_reachableFirst hinit hdecl ((hfirst x).mp hx))]
  constructor
  · rintro ⟨hreach, herr⟩
    exact ⟨fun x hx e he y hy => htargets x hx y (mem_targets.mpr ⟨e, he, hy⟩),
      fun x hx => herr x ((hmem x).mpr hx),
      fun x hx => (hfirst x).mp (hreach x ((hmem x).mpr hx))⟩
  · intro hp
    exact ⟨fun x hx => (hfirst x).mpr (hp.reach x ((hmem x).mp hx)),
      fun x hx => hp.errors x ((hmem x).mp hx)⟩

theorem faithful_iff_prunable (h : InRange m) : Faithful m ↔ Prunable m := by
  obtain ⟨ids, hids, hnodup, hmem⟩ := checkSearch_spec h
  have hcheck := modelCheck_eq hids
  constructor
  · rintro ⟨r, hr, -, -, m', r', hmin, hr', -, hcounts⟩
    obtain ⟨found, hfound, rfl⟩ := modelMinimize_eq_some hmin
    obtain ⟨r'', hr'', hiff⟩ := check_pruned_iff h hfound hnodup hmem
    obtain rfl := Option.some.inj (hcheck.symm.trans hr)
    obtain rfl := Option.some.inj (hr''.symm.trans hr')
    exact hiff.mp hcounts
  · intro hp
    obtain ⟨found, hfound⟩ := pruneSearch_total h fun x hx y hy => by
      obtain ⟨e, he, hy⟩ := mem_targets.mp hy
      exact hp.targets x hx e he y hy
    obtain ⟨r', hr', hiff⟩ := check_pruned_iff h hfound hnodup hmem
    obtain ⟨hreach, herr⟩ := hiff.mpr hp
    refine ⟨_, hcheck, propertySatisfied_iff hmem, (ncard_reachable hnodup hmem).symm, pruned m found,
      r', by rw [modelMinimize, hfound]; rfl, hr', ?_, hreach, herr⟩
    rw [propertySatisfied_eq hr', propertySatisfied_eq hcheck, herr]

theorem initialState_build (ops : List BuildOp) : (build ops).initialState = 0 := by
  have hfold : ∀ m : FormalModel, (ops.foldl buildStep m).initialState = m.initialState := by
    intro m
    induction ops generalizing m with
    | nil => rfl
    | cons op ops ih =>
      refine (ih _).trans ?_
      cases op with
      | addState stateId isAccepting isError =>
        simp only [buildStep, addState]
        split_ifs <;> rfl
      | addTransition source target => rfl
  exact hfold modelInit

/-- The checker is right about every model that is built, and the pruning about those that are
prunable. -/
theorem minimize_iff (ops : List BuildOp) (hids : ∀ s ∈ (build ops).states, s.stateId < maxStates) :
    Faithful (build ops) ↔ Prunable (build ops) :=
  faithful_iff_prunable ⟨by rw [initialState_build]; decide, hids⟩

end

/-- Two states in a cycle. -/
def cycleOps : List BuildOp :=
  [.addState 0 false false, .addState 1 true false, .addTransition 0 1, .addTransition 1 0]

theorem minimize_iff_cycle : Faithful (build cycleOps) := by
  have hids : ∀ x, Reachable (build cycleOps) x → x = 0 ∨ x = 1 := by
    intro x hx
    induction hx with
    | refl => exact .inl rfl
    | tail _ hstep ih =>
      obtain ⟨e, he, hy, -⟩ := hstep
      have htarget := List.mem_flatMap.mpr ⟨e, he, hy⟩
      rcases ih with rfl | rfl
      · exact .inr (List.mem_singleton.mp htarget)
      · exact .inl (List.mem_singleton.mp htarget)
  refine (minimize_iff cycleOps (by decide)).mpr ⟨fun x hx => ?_, fun x hx => ?_, fun x hx => ?_⟩
  · rcases hids x hx with rfl | rfl <;> decide
  · rcases hids x hx with rfl | rfl <;> decide
  · rcases hids x hx with rfl | rfl
    · exact .refl
    · exact .single ⟨⟨0, [1], false, false⟩, rfl, by decide, by decide⟩

/-- A second entry of the initial state, which is an error state. -/
def twoEntryOps : List BuildOp := [.addState 0 false false, .addState 0 false true]

/-- Pruning drops the error state, and the check that failed succeeds. -/
theorem not_faithful_twoEntry : ¬ Faithful (build twoEntryOps) := by
  rintro ⟨r, hr, -, -, m', r', hmin, hr', hsame, -⟩
  have h1 : (modelCheck (build twoEntryOps)).map (·.propertySatisfied) = some false := by
    decide +kernel
  have h2 : ((modelMinimize (build twoEntryOps)).bind modelCheck).map (·.propertySatisfied) =
      some true := by
    decide +kernel
  rw [hr, Option.map_some] at h1
  rw [hmin, Option.bind_some, hr', Option.map_some] at h2
  rw [Option.some.inj h1, Option.some.inj h2] at hsame
  simp at hsame

end SneppxAlg.ModelChecking
