import Mathlib.Algebra.Order.BigOperators.Group.Finset
import Mathlib.Algebra.BigOperators.Ring.Finset
import Mathlib.Data.Finset.Range
import Mathlib.Tactic.NormNum

/-!
# `threadpool.c`: waiting for the tasks of a pool

Workers take tasks from per-worker deques and run them, callers submit tasks and wait. Each function
is cut at its critical sections, and a run is any interleaving of the pieces. A caller is a thread
outside the pool or the code of a task that a worker is running.

`SNEPPX_threadpool_submit` makes a task visible in a deque first and increments `active_tasks` after
that, so a worker can run the task and decrement before the increment. Until the increment the
counter is too small by one, and a wait of another caller can read 0 while a task of that caller is
running. `wait_returns` says that this is the only way in which a wait returns too early: at the
read by which it returns, the counter is the number of counted tasks less the number of retired
ones, and if every retired task was counted and the counter did not wrap around, 0 means that all
counted tasks are done.

The sleep of idle workers is modelled without `waiting_count` and the signals: `pthread_cond_wait`
may return at any time. Which deque a submitted task goes to is left open, because the round-robin
counter and the thread number are shared by all pools of the process.
-/

namespace SneppxAlg.ThreadPool

/-- Who calls the functions of the pool: a thread, or a task that is running. Tasks are numbered in
the order in which they enter the deques. -/
inductive Caller where
  | thread (k : ℕ)
  | task (id : ℕ)
  deriving DecidableEq

inductive CallerPc where
  /-- outside the functions of the pool -/
  | ready
  /-- in `SNEPPX_threadpool_submit`, after `deque_push` and before `active_tasks++` -/
  | counting (id : ℕ)
  /-- in `SNEPPX_threadpool_wait`, at index `i` of the loop over the deques -/
  | scanning (i : ℕ)
  deriving DecidableEq

inductive WorkerPc where
  /-- before `deque_pop` of its own deque -/
  | loop
  /-- before `deque_steal` of the `i`-th other deque -/
  | stealing (i : ℕ)
  /-- inside `task.func` -/
  | running (id : ℕ)
  /-- after `task.func` and before `active_tasks--` -/
  | retiring (id : ℕ)
  /-- without work, before a test of `active_tasks == 0` -/
  | sleeping
  deriving DecidableEq

/-- The task that a worker has in hand. -/
def WorkerPc.holds : WorkerPc → Option ℕ
  | .running id | .retiring id => some id
  | _ => none

/-- The pool, where everybody is, and what has happened to the tasks so far. -/
structure State where
  queues : ℕ → List ℕ
  activeTasks : BitVec 32
  worker : ℕ → WorkerPc
  caller : Caller → CallerPc
  /-- the number of tasks that were pushed -/
  submitted : ℕ
  owner : ℕ → Caller
  /-- `active_tasks++` was executed for the task -/
  counted : ℕ → Bool
  /-- `task.func` has returned -/
  finished : ℕ → Bool
  /-- `active_tasks--` was executed for the task -/
  retired : ℕ → Bool

/-- A pool right after `SNEPPX_threadpool_create`. -/
def State.init : State where
  queues := fun _ => []
  activeTasks := 0
  worker := fun _ => .loop
  caller := fun _ => .ready
  submitted := 0
  owner := fun _ => .thread 0
  counted := fun _ => false
  finished := fun _ => false
  retired := fun _ => false

def State.setWorker (s : State) (w : ℕ) (pc : WorkerPc) : State :=
  { s with worker := Function.update s.worker w pc }

def State.setCaller (s : State) (c : Caller) (pc : CallerPc) : State :=
  { s with caller := Function.update s.caller c pc }

def State.setQueue (s : State) (q : ℕ) (l : List ℕ) : State :=
  { s with queues := Function.update s.queues q l }

/-! ## Steps -/

/-- A task calls only while a worker runs it. -/
def Caller.alive (n : ℕ) (s : State) : Caller → Bool
  | .thread _ => true
  | .task id => (List.range n).any fun w => s.worker w = .running id

/-- `deque_count(q) > 0`, with the count in an `int`. -/
def countPos (l : List ℕ) : Bool := 0 < (BitVec.ofNat 32 l.length).toInt

inductive Action where
  /-- `deque_push` to deque `q` -/
  | push (c : Caller) (q : ℕ)
  /-- `active_tasks++` -/
  | count (c : Caller)
  /-- `deque_pop` -/
  | pop (w : ℕ)
  /-- `deque_steal` -/
  | steal (w : ℕ)
  /-- `task.func` returns -/
  | finish (w : ℕ)
  /-- `active_tasks--` -/
  | retire (w : ℕ)
  /-- the test of `active_tasks` before the sleep and after each wakeup -/
  | sleep (w : ℕ)
  /-- `SNEPPX_threadpool_wait` is called -/
  | wait (c : Caller)
  /-- `deque_count` of the next deque, or the read of `active_tasks` after the last one -/
  | scan (c : Caller)

def stepPush (n : ℕ) (s : State) (c : Caller) (q : ℕ) : Option State :=
  if c.alive n s ∧ s.caller c = .ready ∧ q < n then
    let id := s.submitted
    some { s with
      queues := Function.update s.queues q (s.queues q ++ [id])
      caller := Function.update s.caller c (.counting id)
      submitted := id + 1
      owner := Function.update s.owner id c }
  else none

def stepCount (s : State) (c : Caller) : Option State :=
  match s.caller c with
  | .counting id => some { s with
      activeTasks := s.activeTasks + 1
      counted := Function.update s.counted id true
      caller := Function.update s.caller c .ready }
  | _ => none

def stepPop (s : State) (w : ℕ) : Option State :=
  match s.worker w with
  | .loop =>
    match (s.queues w).getLast? with
    | some id => some ((s.setQueue w (s.queues w).dropLast).setWorker w (.running id))
    | none => some (s.setWorker w (.stealing 1))
  | _ => none

def stepSteal (n : ℕ) (s : State) (w : ℕ) : Option State :=
  match s.worker w with
  | .stealing i =>
    if i < n then
      let victim := (w + i) % n
      match s.queues victim with
      | id :: rest => some ((s.setQueue victim rest).setWorker w (.running id))
      | [] => some (s.setWorker w (.stealing (i + 1)))
    else some (s.setWorker w .sleeping)
  | _ => none

def stepFinish (s : State) (w : ℕ) : Option State :=
  match s.worker w with
  | .running id =>
    if s.caller (.task id) = .ready then
      some { s.setWorker w (.retiring id) with finished := Function.update s.finished id true }
    else none
  | _ => none

def stepRetire (s : State) (w : ℕ) : Option State :=
  match s.worker w with
  | .retiring id => some { s.setWorker w .loop with
      activeTasks := s.activeTasks - 1
      retired := Function.update s.retired id true }
  | _ => none

def stepSleep (s : State) (w : ℕ) : Option State :=
  match s.worker w with
  | .sleeping => some (s.setWorker w (if s.activeTasks = 0 then .sleeping else .loop))
  | _ => none

def stepWait (n : ℕ) (s : State) (c : Caller) : Option State :=
  if c.alive n s ∧ s.caller c = .ready then some (s.setCaller c (.scanning 0)) else none

def stepScan (n : ℕ) (s : State) (c : Caller) : Option State :=
  match s.caller c with
  | .scanning i =>
    if i < n then
      some (s.setCaller c (.scanning (if countPos (s.queues i) then 0 else i + 1)))
    else some (s.setCaller c (if s.activeTasks = 0 then .ready else .scanning 0))
  | _ => none

/-- One step of a pool of `n` workers. -/
def step (n : ℕ) (s : State) : Action → Option State
  | .push c q => stepPush n s c q
  | .count c => stepCount s c
  | .pop w => if w < n then stepPop s w else none
  | .steal w => if w < n then stepSteal n s w else none
  | .finish w => if w < n then stepFinish s w else none
  | .retire w => if w < n then stepRetire s w else none
  | .sleep w => if w < n then stepSleep s w else none
  | .wait c => stepWait n s c
  | .scan c => stepScan n s c

def run (n : ℕ) (as : List Action) : Option State := as.foldlM (step n) State.init

/-- The next step of `c` is the return of `SNEPPX_threadpool_wait`. -/
def Returns (n : ℕ) (s : State) (c : Caller) : Prop :=
  (∃ i, n ≤ i ∧ s.caller c = .scanning i) ∧ s.activeTasks = 0

/-- Every task that `c` has submitted is done. -/
def AllFinished (s : State) (c : Caller) : Prop :=
  ∀ id < s.submitted, s.owner id = c → s.finished id = true

/-- No task was taken off the counter before it was put on it. -/
def Prompt (s : State) : Prop := ∀ id, s.retired id = true → s.counted id = true

/-- The number of tasks that are on the counter. -/
def outstanding (s : State) : ℕ :=
  ((Finset.range s.submitted).filter fun id => s.counted id = true ∧ s.retired id = false).card

/-! ## What a step can do -/

/-- Where a caller is when it has nothing on the way to the counter. -/
def CallerPc.Settled (pc : CallerPc) : Prop := ∀ id, pc ≠ .counting id

/-- The kinds of steps, up to the moves of workers and callers that hold no task. -/
inductive Move (n : ℕ) (s : State) : State → Prop where
  | push {c : Caller} {q : ℕ} (hc : s.caller c = .ready) (hq : q < n) : Move n s { s with
      queues := Function.update s.queues q (s.queues q ++ [s.submitted])
      caller := Function.update s.caller c (.counting s.submitted)
      submitted := s.submitted + 1
      owner := Function.update s.owner s.submitted c }
  | count {c : Caller} {id : ℕ} (hc : s.caller c = .counting id) : Move n s { s with
      activeTasks := s.activeTasks + 1
      counted := Function.update s.counted id true
      caller := Function.update s.caller c .ready }
  | take {w q id : ℕ} {l : List ℕ} (hw : w < n) (hq : q < n) (hfree : (s.worker w).holds = none)
      (hl : (s.queues q).Perm (id :: l)) : Move n s ((s.setQueue q l).setWorker w (.running id))
  | finish {w id : ℕ} (hw : w < n) (hrun : s.worker w = .running id) : Move n s
      { s.setWorker w (.retiring id) with finished := Function.update s.finished id true }
  | retire {w id : ℕ} (hw : w < n) (hret : s.worker w = .retiring id) : Move n s
      { s.setWorker w .loop with
        activeTasks := s.activeTasks - 1
        retired := Function.update s.retired id true }
  | walk {w : ℕ} {pc : WorkerPc} (hw : w < n) (hfree : (s.worker w).holds = none)
      (hpc : pc.holds = none) : Move n s (s.setWorker w pc)
  | call {c : Caller} {pc : CallerPc} (hc : (s.caller c).Settled) (hpc : pc.Settled) :
      Move n s (s.setCaller c pc)

variable {n : ℕ} {s s' : State} {a : Action} {c : Caller} {w : ℕ}

theorem stepPop_move (hw : w < n) (h : stepPop s w = some s') : Move n s s' := by
  unfold stepPop at h
  split at h
  · next hloop =>
    have hfree : (s.worker w).holds = none := by rw [hloop]; rfl
    cases hq : (s.queues w).getLast? with
    | some id =>
      rw [hq] at h
      obtain rfl := Option.some.inj h
      refine .take hw hw hfree ?_
      have heq : s.queues w = (s.queues w).dropLast ++ [id] := by
        obtain ⟨l, hl⟩ := List.getLast?_eq_some_iff.mp hq
        rw [hl, List.dropLast_concat]
      nth_rewrite 1 [heq]
      exact List.perm_append_singleton ..
    | none =>
      rw [hq] at h
      obtain rfl := Option.some.inj h
      exact .walk hw hfree rfl
  · cases h

theorem stepSteal_move (hw : w < n) (h : stepSteal n s w = some s') : Move n s s' := by
  unfold stepSteal at h
  split at h
  · next i hsteal =>
    have hfree : (s.worker w).holds = none := by rw [hsteal]; rfl
    split at h
    · next hi =>
      dsimp only at h
      cases hq : s.queues ((w + i) % n) with
      | cons id rest =>
        rw [hq] at h
        obtain rfl := Option.some.inj h
        exact .take hw (Nat.mod_lt _ (by omega)) hfree (by rw [hq])
      | nil =>
        rw [hq] at h
        obtain rfl := Option.some.inj h
        exact .walk hw hfree rfl
    · obtain rfl := Option.some.inj h
      exact .walk hw hfree rfl
  · cases h

theorem stepScan_move (h : stepScan n s c = some s') : Move n s s' := by
  unfold stepScan at h
  split at h
  · next i hscan =>
    have hc : (s.caller c).Settled := by rw [hscan]; simp [CallerPc.Settled]
    split at h
    · obtain rfl := Option.some.inj h
      exact .call hc (by simp [CallerPc.Settled])
    · obtain rfl := Option.some.inj h
      refine .call hc ?_
      split_ifs <;> simp [CallerPc.Settled]
  · cases h

/-- Every step is one of the seven moves. -/
theorem step_move (h : step n s a = some s') : Move n s s' := by
  cases a with
  | push c q =>
    obtain ⟨⟨-, hc, hq⟩, h⟩ := Option.ite_none_right_eq_some.mp h
    obtain rfl := Option.some.inj h
    exact .push hc hq
  | count c =>
    simp only [step, stepCount] at h
    split at h
    · next id hc =>
      obtain rfl := Option.some.inj h
      exact .count hc
    · cases h
  | pop w =>
    obtain ⟨hw, h⟩ := Option.ite_none_right_eq_some.mp h
    exact stepPop_move hw h
  | steal w =>
    obtain ⟨hw, h⟩ := Option.ite_none_right_eq_some.mp h
    exact stepSteal_move hw h
  | finish w =>
    obtain ⟨hw, h⟩ := Option.ite_none_right_eq_some.mp h
    unfold stepFinish at h
    split at h
    · next id hrun =>
      obtain ⟨-, h⟩ := Option.ite_none_right_eq_some.mp h
      obtain rfl := Option.some.inj h
      exact .finish hw hrun
    · cases h
  | retire w =>
    obtain ⟨hw, h⟩ := Option.ite_none_right_eq_some.mp h
    unfold stepRetire at h
    split at h
    · next id hret =>
      obtain rfl := Option.some.inj h
      exact .retire hw hret
    · cases h
  | sleep w =>
    obtain ⟨hw, h⟩ := Option.ite_none_right_eq_some.mp h
    unfold stepSleep at h
    split at h
    · next hsleep =>
      obtain rfl := Option.some.inj h
      refine .walk hw (by rw [hsleep]; rfl) ?_
      split_ifs <;> rfl
    · cases h
  | wait c =>
    obtain ⟨⟨-, hc⟩, h⟩ := Option.ite_none_right_eq_some.mp h
    obtain rfl := Option.some.inj h
    exact .call (by rw [hc]; simp [CallerPc.Settled]) (by simp [CallerPc.Settled])
  | scan c => exact stepScan_move h

/-! ## The invariant -/

/-- 1 for the task that a worker has in hand. -/
def WorkerPc.held (pc : WorkerPc) (id : ℕ) : ℕ := if pc.holds = some id then 1 else 0

theorem WorkerPc.held_eq_zero {pc : WorkerPc} (h : pc.holds = none) (id : ℕ) : pc.held id = 0 := by
  simp [held, h]

theorem WorkerPc.held_eq {pc : WorkerPc} {id : ℕ} (h : pc.holds = some id) (id' : ℕ) :
    pc.held id' = if id = id' then 1 else 0 := by
  simp [held, h]

/-- In how many places a task is: in the deques, in the hands of workers, or retired. -/
def holders (n : ℕ) (s : State) (id : ℕ) : ℕ :=
  ∑ q ∈ Finset.range n, (s.queues q).count id +
    ∑ w ∈ Finset.range n, (s.worker w).held id + (s.retired id).toNat

/-- How many of the first `k` tasks have a mark. -/
def marked (f : ℕ → Bool) (k : ℕ) : ℤ := ∑ id ∈ Finset.range k, if f id then 1 else 0

structure Inv (n : ℕ) (s : State) : Prop where
  /-- a task on the way to the counter was submitted by the caller that brings it there -/
  counting : ∀ c id, s.caller c = .counting id →
    id < s.submitted ∧ s.counted id = false ∧ s.owner id = c
  uncounted : ∀ id < s.submitted, s.counted id = false → s.caller (s.owner id) = .counting id
  fresh : ∀ id, s.submitted ≤ id → s.counted id = false
  /-- every task is in exactly one place -/
  place : ∀ id < s.submitted, holders n s id = 1
  nowhere : ∀ id, s.submitted ≤ id → holders n s id = 0
  retiring : ∀ w < n, ∀ id, s.worker w = .retiring id → s.finished id = true
  retired : ∀ id, s.retired id = true → s.finished id = true
  active : s.activeTasks =
    BitVec.ofInt 32 (marked s.counted s.submitted - marked s.retired s.submitted)

theorem inv_init : Inv n State.init where
  counting := by simp [State.init]
  uncounted := by simp [State.init]
  fresh := by simp [State.init]
  place := by simp [State.init]
  nowhere := by simp [State.init, holders, WorkerPc.held, WorkerPc.holds]
  retiring := by simp [State.init]
  retired := by simp [State.init]
  active := by simp [State.init, marked]

theorem sum_update {β M : Type*} [AddCommMonoid M] (f : ℕ → β) (g : β → M) {i k : ℕ} (hi : i < k)
    (x : β) : ∑ j ∈ Finset.range k, g (Function.update f i x j) + g (f i) =
      ∑ j ∈ Finset.range k, g (f j) + g x := by
  have hmem : i ∈ Finset.range k := Finset.mem_range.mpr hi
  have hrest : ∑ j ∈ (Finset.range k).erase i, g (Function.update f i x j) =
      ∑ j ∈ (Finset.range k).erase i, g (f j) :=
    Finset.sum_congr rfl fun j hj => by rw [Function.update_of_ne (Finset.ne_of_mem_erase hj)]
  rw [← Finset.sum_erase_add _ _ hmem, ← Finset.sum_erase_add _ (fun j => g (f j)) hmem, hrest,
    Function.update_self, add_assoc, add_assoc, add_comm (g x)]

theorem marked_update {f : ℕ → Bool} {id k : ℕ} (hid : id < k) (hf : f id = false) :
    marked (Function.update f id true) k = marked f k + 1 := by
  have h := sum_update f (fun b => if b then (1 : ℤ) else 0) hid true
  simpa [hf, marked] using h

theorem marked_succ {f : ℕ → Bool} {k : ℕ} (hf : f k = false) : marked f (k + 1) = marked f k := by
  rw [marked, Finset.sum_range_succ, hf, if_neg Bool.false_ne_true, add_zero, marked]

theorem Inv.retired_eq_false (h : Inv n s) {id : ℕ} (hid : s.submitted ≤ id) :
    s.retired id = false := by
  have hp := h.nowhere id hid
  rw [holders] at hp
  cases hr : s.retired id with
  | false => rfl
  | true => simp [hr] at hp

/-- A task in the hands of a worker was submitted and is not retired. -/
theorem Inv.of_holds (h : Inv n s) {id : ℕ} (hw : w < n) (hh : (s.worker w).holds = some id) :
    id < s.submitted ∧ s.retired id = false := by
  have hone : 1 ≤ ∑ v ∈ Finset.range n, (s.worker v).held id := by
    calc 1 = (s.worker w).held id := by rw [WorkerPc.held_eq hh, if_pos rfl]
      _ ≤ _ := Finset.single_le_sum (f := fun v => (s.worker v).held id) (fun v _ => Nat.zero_le _)
        (Finset.mem_range.mpr hw)
  have hlt : id < s.submitted := by
    by_contra hle
    have hp := h.nowhere id (not_lt.mp hle)
    rw [holders] at hp
    omega
  refine ⟨hlt, ?_⟩
  have hp := h.place id hlt
  rw [holders] at hp
  cases hr : s.retired id with
  | false => rfl
  | true =>
    rw [hr, Bool.toNat_true] at hp
    omega

/-- The hands that a task is in, when a worker changes what it holds. -/
theorem sum_held_update (s : State) (pc : WorkerPc) (hw : w < n) (id : ℕ) :
    ∑ v ∈ Finset.range n, (Function.update s.worker w pc v).held id + (s.worker w).held id =
      ∑ v ∈ Finset.range n, (s.worker v).held id + pc.held id :=
  sum_update s.worker (fun pc => pc.held id) hw pc

/-! ## Preservation -/

theorem holders_push {q : ℕ} (hq : q < n) (id : ℕ) : holders n { s with
    queues := Function.update s.queues q (s.queues q ++ [s.submitted])
    caller := Function.update s.caller c (.counting s.submitted)
    submitted := s.submitted + 1
    owner := Function.update s.owner s.submitted c } id =
      holders n s id + if s.submitted = id then 1 else 0 := by
  have hsum := sum_update s.queues (fun l => l.count id) hq (s.queues q ++ [s.submitted])
  simp only [List.count_append, List.count_singleton, beq_iff_eq] at hsum
  simp only [holders]
  omega

theorem holders_take {q id : ℕ} {l : List ℕ} (hw : w < n) (hq : q < n)
    (hfree : (s.worker w).holds = none) (hl : (s.queues q).Perm (id :: l)) (id' : ℕ) :
    holders n ((s.setQueue q l).setWorker w (.running id)) id' = holders n s id' := by
  have hqueue := sum_update s.queues (fun l => l.count id') hq l
  have hworker := sum_held_update s (.running id) hw id'
  have hcount := hl.count_eq id'
  rw [WorkerPc.held_eq_zero hfree, WorkerPc.held_eq rfl] at hworker
  simp only [List.count_cons, beq_iff_eq] at hcount
  simp only [holders, State.setWorker, State.setQueue]
  omega

/-- A worker that goes on with the same task in hand. -/
theorem holders_setWorker {pc : WorkerPc} (hw : w < n) (hpc : pc.holds = (s.worker w).holds)
    (id : ℕ) : holders n (s.setWorker w pc) id = holders n s id := by
  have hworker := sum_held_update s pc hw id
  rw [WorkerPc.held, WorkerPc.held, hpc, add_left_inj] at hworker
  simp only [holders, State.setWorker]
  omega

theorem holders_finish {id : ℕ} (hw : w < n) (hrun : s.worker w = .running id) (id' : ℕ) :
    holders n { s.setWorker w (.retiring id) with finished := Function.update s.finished id true } id' =
      holders n s id' := by
  have hsame : (WorkerPc.retiring id).holds = (s.worker w).holds := by rw [hrun]; rfl
  exact holders_setWorker hw hsame id'

theorem holders_retire {id : ℕ} (hw : w < n) (hret : s.worker w = .retiring id)
    (hr : s.retired id = false) (id' : ℕ) : holders n { s.setWorker w .loop with
      activeTasks := s.activeTasks - 1
      retired := Function.update s.retired id true } id' = holders n s id' := by
  have hworker := sum_held_update s .loop hw id'
  rw [hret, WorkerPc.held_eq rfl, WorkerPc.held_eq_zero rfl] at hworker
  simp only [holders, State.setWorker]
  by_cases hid : id' = id
  · subst hid
    rw [if_pos rfl] at hworker
    rw [Function.update_self, hr, Bool.toNat_true, Bool.toNat_false]
    omega
  · rw [if_neg (Ne.symm hid)] at hworker
    rw [Function.update_of_ne hid]
    omega

namespace Inv

theorem push {q : ℕ} (h : Inv n s) (hc : s.caller c = .ready) (hq : q < n) : Inv n { s with
    queues := Function.update s.queues q (s.queues q ++ [s.submitted])
    caller := Function.update s.caller c (.counting s.submitted)
    submitted := s.submitted + 1
    owner := Function.update s.owner s.submitted c } where
  counting := by
    intro c' id hc'
    dsimp only at hc' ⊢
    by_cases hcc : c' = c
    · subst hcc
      rw [Function.update_self, CallerPc.counting.injEq] at hc'
      subst hc'
      exact ⟨Nat.lt_succ_self _, h.fresh _ le_rfl, Function.update_self ..⟩
    · rw [Function.update_of_ne hcc] at hc'
      obtain ⟨hid, hcounted, howner⟩ := h.counting c' id hc'
      exact ⟨by omega, hcounted, by rwa [Function.update_of_ne hid.ne]⟩
  uncounted := by
    intro id hid hcounted
    dsimp only at hid hcounted ⊢
    rcases Nat.lt_succ_iff_lt_or_eq.mp hid with hlt | rfl
    · have hown : s.caller (s.owner id) = .counting id := h.uncounted id hlt hcounted
      have hne : s.owner id ≠ c := by
        rintro rfl
        rw [hc] at hown
        cases hown
      rw [Function.update_of_ne hlt.ne, Function.update_of_ne hne, hown]
    · rw [Function.update_self, Function.update_self]
  fresh := by
    intro id hid
    exact h.fresh id ((Nat.le_succ _).trans hid)
  place := by
    intro id hid
    rw [holders_push hq]
    rcases Nat.lt_succ_iff_lt_or_eq.mp hid with hlt | rfl
    · rw [h.place id hlt, if_neg hlt.ne']
    · rw [h.nowhere _ le_rfl, if_pos rfl]
  nowhere := by
    intro id hid
    dsimp only at hid
    rw [holders_push hq, h.nowhere id (by omega), if_neg (by omega)]
  retiring := h.retiring
  retired := h.retired
  active := by
    dsimp only
    rw [marked_succ (h.fresh _ le_rfl), marked_succ (h.retired_eq_false le_rfl)]
    exact h.active

theorem count {id : ℕ} (h : Inv n s) (hc : s.caller c = .counting id) : Inv n { s with
    activeTasks := s.activeTasks + 1
    counted := Function.update s.counted id true
    caller := Function.update s.caller c .ready } where
  counting := by
    intro c' id' hc'
    dsimp only at hc' ⊢
    have hcc : c' ≠ c := by
      rintro rfl
      simp at hc'
    rw [Function.update_of_ne hcc] at hc'
    obtain ⟨hid, hcounted, howner⟩ := h.counting c' id' hc'
    have hne : id' ≠ id := by
      rintro rfl
      exact hcc (howner.symm.trans (h.counting c id' hc).2.2)
    exact ⟨hid, by rwa [Function.update_of_ne hne], howner⟩
  uncounted := by
    intro id' hid hcounted
    dsimp only at hid hcounted ⊢
    have hne : id' ≠ id := by
      rintro rfl
      simp at hcounted
    rw [Function.update_of_ne hne] at hcounted
    have hown : s.caller (s.owner id') = .counting id' := h.uncounted id' hid hcounted
    have hcc : s.owner id' ≠ c := by
      intro hcc
      rw [hcc, hc, CallerPc.counting.injEq] at hown
      exact hne hown.symm
    rw [Function.update_of_ne hcc, hown]
  fresh := by
    intro id' hid
    dsimp only at hid ⊢
    have hlt : id < s.submitted := (h.counting c id hc).1
    rw [Function.update_of_ne (by omega)]
    exact h.fresh id' hid
  place := h.place
  nowhere := h.nowhere
  retiring := h.retiring
  retired := h.retired
  active := by
    obtain ⟨hid, hcounted, -⟩ := h.counting c id hc
    dsimp only
    rw [marked_update hid hcounted, h.active, add_sub_right_comm, BitVec.ofInt_add]
    rfl

theorem take {q id : ℕ} {l : List ℕ} (h : Inv n s) (hw : w < n) (hq : q < n)
    (hfree : (s.worker w).holds = none) (hl : (s.queues q).Perm (id :: l)) :
    Inv n ((s.setQueue q l).setWorker w (.running id)) where
  counting := h.counting
  uncounted := h.uncounted
  fresh := h.fresh
  place := fun id' hid => (holders_take hw hq hfree hl id').trans (h.place id' hid)
  nowhere := fun id' hid => (holders_take hw hq hfree hl id').trans (h.nowhere id' hid)
  retiring := by
    intro v hv id' hret
    by_cases hvw : v = w
    · subst hvw
      simp [State.setWorker] at hret
    · exact h.retiring v hv id' (by simpa [State.setWorker, State.setQueue, hvw] using hret)
  retired := h.retired
  active := h.active

theorem finish {id : ℕ} (h : Inv n s) (hw : w < n) (hrun : s.worker w = .running id) :
    Inv n { s.setWorker w (.retiring id) with finished := Function.update s.finished id true } where
  counting := h.counting
  uncounted := h.uncounted
  fresh := h.fresh
  place := fun id' hid => (holders_finish hw hrun id').trans (h.place id' hid)
  nowhere := fun id' hid => (holders_finish hw hrun id').trans (h.nowhere id' hid)
  retiring := by
    intro v hv id' hret
    dsimp only [State.setWorker] at hret ⊢
    by_cases hid : id' = id
    · subst hid
      exact Function.update_self ..
    · have hvw : v ≠ w := by
        rintro rfl
        rw [Function.update_self, WorkerPc.retiring.injEq] at hret
        exact hid hret.symm
      rw [Function.update_of_ne hvw] at hret
      rw [Function.update_of_ne hid]
      exact h.retiring v hv id' hret
  retired := by
    intro id' hret
    dsimp only [State.setWorker] at hret ⊢
    by_cases hid : id' = id
    · subst hid
      exact Function.update_self ..
    · rw [Function.update_of_ne hid]
      exact h.retired id' hret
  active := h.active

theorem retire {id : ℕ} (h : Inv n s) (hw : w < n) (hret : s.worker w = .retiring id) :
    Inv n { s.setWorker w .loop with
      activeTasks := s.activeTasks - 1
      retired := Function.update s.retired id true } where
  counting := h.counting
  uncounted := h.uncounted
  fresh := h.fresh
  place := by
    intro id' hid
    rw [holders_retire hw hret (h.of_holds hw (by rw [hret]; rfl)).2]
    exact h.place id' hid
  nowhere := by
    intro id' hid
    rw [holders_retire hw hret (h.of_holds hw (by rw [hret]; rfl)).2]
    exact h.nowhere id' hid
  retiring := by
    intro v hv id' hret'
    by_cases hvw : v = w
    · subst hvw
      simp [State.setWorker] at hret'
    · exact h.retiring v hv id' (by simpa [State.setWorker, hvw] using hret')
  retired := by
    intro id' hr
    dsimp only [State.setWorker] at hr ⊢
    by_cases hid : id' = id
    · subst hid
      exact h.retiring w hw id' hret
    · exact h.retired id' (by rwa [Function.update_of_ne hid] at hr)
  active := by
    obtain ⟨hid, hr⟩ := h.of_holds hw (by rw [hret]; rfl)
    dsimp only [State.setWorker]
    rw [marked_update hid hr, h.active, ← sub_sub, sub_eq_add_neg _ (1 : ℤ), BitVec.ofInt_add,
      BitVec.sub_eq_add_neg]
    rfl

theorem walk {pc : WorkerPc} (h : Inv n s) (hw : w < n) (hfree : (s.worker w).holds = none)
    (hpc : pc.holds = none) : Inv n (s.setWorker w pc) where
  counting := h.counting
  uncounted := h.uncounted
  fresh := h.fresh
  place := fun id hid => (holders_setWorker hw (hpc.trans hfree.symm) id).trans (h.place id hid)
  nowhere := fun id hid => (holders_setWorker hw (hpc.trans hfree.symm) id).trans (h.nowhere id hid)
  retiring := by
    intro v hv id hret
    by_cases hvw : v = w
    · subst hvw
      have hpc' : pc = .retiring id := by simpa [State.setWorker] using hret
      rw [hpc'] at hpc
      cases hpc
    · exact h.retiring v hv id (by simpa [State.setWorker, hvw] using hret)
  retired := h.retired
  active := h.active

theorem call {pc : CallerPc} (h : Inv n s) (hc : (s.caller c).Settled) (hpc : pc.Settled) :
    Inv n (s.setCaller c pc) where
  counting := by
    intro c' id hc'
    have hcc : c' ≠ c := by
      rintro rfl
      exact hpc id (by simpa [State.setCaller] using hc')
    exact h.counting c' id (by simpa [State.setCaller, hcc] using hc')
  uncounted := by
    intro id hid hcounted
    have hown : s.caller (s.owner id) = .counting id := h.uncounted id hid hcounted
    have hcc : s.owner id ≠ c := by
      intro hcc
      rw [hcc] at hown
      exact hc id hown
    exact (Function.update_of_ne hcc ..).trans hown
  fresh := h.fresh
  place := h.place
  nowhere := h.nowhere
  retiring := h.retiring
  retired := h.retired
  active := h.active

theorem move (h : Inv n s) (hm : Move n s s') : Inv n s' := by
  cases hm with
  | push hc hq => exact h.push hc hq
  | count hc => exact h.count hc
  | take hw hq hfree hl => exact h.take hw hq hfree hl
  | finish hw hrun => exact h.finish hw hrun
  | retire hw hret => exact h.retire hw hret
  | walk hw hfree hpc => exact h.walk hw hfree hpc
  | call hc hpc => exact h.call hc hpc

end Inv

theorem foldlM_inv {as : List Action} (h : Inv n s) (hrun : as.foldlM (step n) s = some s') :
    Inv n s' := by
  induction as generalizing s with
  | nil =>
    obtain rfl := Option.some.inj hrun
    exact h
  | cons a as ih =>
    rw [List.foldlM_cons] at hrun
    obtain ⟨s₁, hstep, hrest⟩ := Option.bind_eq_some_iff.mp hrun
    exact ih (h.move (step_move hstep)) hrest

/-! ## Waits that return -/

/-- With every retired task counted, the difference of the marks is the number of tasks on the
counter. -/
theorem marked_sub_marked (hprompt : Prompt s) :
    marked s.counted s.submitted - marked s.retired s.submitted = outstanding s := by
  rw [marked, marked, ← Finset.sum_sub_distrib, outstanding, Finset.card_filter, Nat.cast_sum]
  refine Finset.sum_congr rfl fun id _ => ?_
  cases hr : s.retired id with
  | false => cases hc : s.counted id <;> simp
  | true => simp [hprompt id hr]

theorem outstanding_eq_zero (h : Inv n s) (hprompt : Prompt s) (hfew : outstanding s < 2 ^ 32)
    (hzero : s.activeTasks = 0) : outstanding s = 0 := by
  have hactive := h.active
  rw [hzero, marked_sub_marked hprompt, BitVec.ofInt_natCast] at hactive
  have hnat : 0 = outstanding s % 2 ^ 32 := congrArg BitVec.toNat hactive
  omega

theorem Inv.allFinished (h : Inv n s) (hret : Returns n s c) (hprompt : Prompt s)
    (hfew : outstanding s < 2 ^ 32) : AllFinished s c := by
  obtain ⟨⟨i, -, hscan⟩, hzero⟩ := hret
  intro id hid howner
  -- the caller is in the wait, so the task is counted
  have hcounted : s.counted id = true := by
    by_contra hc
    have hcaller := h.uncounted id hid (by simpa using hc)
    rw [howner, hscan] at hcaller
    cases hcaller
  -- and since nothing is on the counter, it is retired
  have hempty := outstanding_eq_zero h hprompt hfew hzero
  rw [outstanding, Finset.card_eq_zero, Finset.filter_eq_empty_iff] at hempty
  have hretired : s.retired id = true := by
    by_contra hr
    exact hempty (Finset.mem_range.mpr hid) ⟨hcounted, by simpa using hr⟩
  exact h.retired id hretired

/-- **A wait that returns finds all tasks of its caller done, in every interleaving,** if at the read
of `active_tasks` by which it returns no task is retired before it was counted, and the number of
tasks on the counter is one that an `int` tells from 0. -/
theorem wait_returns (n : ℕ) (as : List Action) (s : State) (hrun : run n as = some s) (c : Caller)
    (hret : Returns n s c) (hprompt : Prompt s) (hfew : outstanding s < 2 ^ 32) :
    AllFinished s c :=
  Inv.allFinished (foldlM_inv inv_init hrun) hret hprompt hfew

/-- One thread submits two tasks, two workers run them at the same time, and the thread waits. -/
def twoTasks : List Action :=
  [.push (.thread 0) 0, .count (.thread 0), .push (.thread 0) 1, .pop 1, .count (.thread 0), .pop 0, .finish 1,
    .finish 0, .retire 0, .retire 1, .wait (.thread 0), .scan (.thread 0), .scan (.thread 0)]

def afterTwoTasks : State := (run 2 twoTasks).getD .init

theorem wait_returns_twoTasks :
    run 2 twoTasks = some afterTwoTasks ∧ afterTwoTasks.submitted = 2 ∧ Returns 2 afterTwoTasks (.thread 0) ∧
      AllFinished afterTwoTasks (.thread 0) := by
  have hrun : run 2 twoTasks = some afterTwoTasks := rfl
  have hret : Returns 2 afterTwoTasks (.thread 0) := ⟨⟨2, le_rfl, rfl⟩, rfl⟩
  exact ⟨hrun, rfl, hret, wait_returns 2 twoTasks afterTwoTasks hrun (.thread 0) hret (fun _ h => h) (by decide)⟩

/-- The second thread's task is run and retired before that thread has counted it, while the first
thread's task is still running. -/
def earlyRetirement : List Action :=
  [.push (.thread 0) 0, .count (.thread 0), .push (.thread 1) 1, .pop 0, .pop 1, .finish 1,
    .retire 1, .wait (.thread 0), .scan (.thread 0), .scan (.thread 0)]

theorem earlyRetirement_run :
    (run 2 earlyRetirement).map (fun s => (s.caller (.thread 0), s.activeTasks, s.submitted,
      s.owner 0, s.finished 0)) = some (.scanning 2, 0, 2, .thread 0, false) := by
  decide +kernel

/-- A wait can return while a task of its caller is running. -/
theorem wait_returns_early : ¬ ∀ n as s, run n as = some s → ∀ c, Returns n s c → AllFinished s c := by
  intro h
  obtain ⟨s, hrun, hs⟩ := Option.map_eq_some_iff.mp earlyRetirement_run
  simp only [Prod.mk.injEq] at hs
  obtain ⟨hscan, hactive, hsub, howner, hfinished⟩ := hs
  have hall := h 2 earlyRetirement s hrun (.thread 0) ⟨⟨2, le_rfl, hscan⟩, hactive⟩ 0
    (by rw [hsub]; decide) howner
  rw [hfinished] at hall
  cases hall

end SneppxAlg.ThreadPool
