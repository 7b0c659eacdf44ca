import Mathlib.Algebra.Group.Action.Defs
import Mathlib.Algebra.Order.BigOperators.Group.Finset
import Mathlib.Data.Finset.Max
import Mathlib.Data.List.Basic
import Mathlib.Logic.Function.Basic

/-!
# Rounds on a ring of processes

Each of the `size` processes of a ring runs through the same number of rounds. In a round it sends a
message to its successor and then waits for one from its predecessor; the channels are queues. After
the last round it finishes. A process that cannot build a message panics and does nothing more.

The processes take their steps in any order. Since a process reads one queue only, and that in the
order in which it was filled, the order makes no difference: in every state that is reached, a process
that has been through `p` rounds holds the value it would hold if all processes went through the
rounds together (`Inv`). Nothing gets stuck before the end (`progress`), and each step uses up some
of a bounded effort (`effort_step`, `effort_le`). So whether every run ends well is seen on the
synchronous run alone (`delivers_iff`).
-/

namespace Lib.SyncRing

/-- What the processes of a ring do. -/
structure Protocol (σ μ : Type*) where
  size : ℕ
  rounds : ℕ
  init : ℕ → σ
  /-- process and round: there is a message -/
  ok : ℕ → ℕ → Prop
  /-- process and round: the message -/
  out : ℕ → ℕ → σ → μ
  /-- process and round: the value after a message -/
  next : ℕ → ℕ → σ → μ → σ
  finish : σ → σ

inductive Status where
  | running
  | panicked
  | done
deriving DecidableEq

/-- A process: the rounds behind it, whether it has sent the message of the next one, its value. -/
structure Proc (σ : Type*) where
  round : ℕ
  sent : Bool
  value : σ
  status : Status

/-- `chan r` is the queue from process `r` to its successor. -/
structure State (σ μ : Type*) where
  procs : ℕ → Proc σ
  chan : ℕ → List μ

variable {σ μ : Type*} (P : Protocol σ μ)

namespace Protocol

/-- The predecessor on the ring. -/
def pred (r : ℕ) : ℕ := (r + P.size - 1) % P.size

/-- Nothing has happened. -/
def start : State σ μ :=
  { procs := fun r => { round := 0, sent := false, value := P.init r, status := .running }
    chan := fun _ => [] }

/-- One step of one process. -/
inductive Step : State σ μ → State σ μ → Prop where
  | send {s : State σ μ} (r : ℕ) (hr : r < P.size) (hrun : (s.procs r).status = .running)
      (hround : (s.procs r).round < P.rounds) (hsent : (s.procs r).sent = false)
      (hok : P.ok r (s.procs r).round) :
      Step s
        { procs := Function.update s.procs r { s.procs r with sent := true }
          chan := Function.update s.chan r
            (s.chan r ++ [P.out r (s.procs r).round (s.procs r).value]) }
  | panic {s : State σ μ} (r : ℕ) (hr : r < P.size) (hrun : (s.procs r).status = .running)
      (hround : (s.procs r).round < P.rounds) (hsent : (s.procs r).sent = false)
      (hok : ¬ P.ok r (s.procs r).round) :
      Step s { s with procs := Function.update s.procs r { s.procs r with status := .panicked } }
  | recv {s : State σ μ} (r : ℕ) (hr : r < P.size) (hrun : (s.procs r).status = .running)
      (hsent : (s.procs r).sent = true) (m : μ) (rest : List μ)
      (hchan : s.chan (P.pred r) = m :: rest) :
      Step s
        { procs := Function.update s.procs r
            { round := (s.procs r).round + 1
              sent := false
              value := P.next r (s.procs r).round (s.procs r).value m
              status := .running }
          chan := Function.update s.chan (P.pred r) rest }
  | finish {s : State σ μ} (r : ℕ) (hr : r < P.size) (hrun : (s.procs r).status = .running)
      (hround : (s.procs r).round = P.rounds) :
      Step s
        { s with
          procs := Function.update s.procs r
            { s.procs r with value := P.finish (s.procs r).value, status := .done } }

/-- The states of all runs. -/
inductive Reached : State σ μ → Prop where
  | start : Reached P.start
  | step {s s' : State σ μ} (h : Reached s) (hstep : P.Step s s') : Reached s'

/-- Every run ends, and at its end no process has panicked and each holds a value as it should. -/
structure Delivers (good : ℕ → σ → Prop) : Prop where
  safe : ∀ s, P.Reached s → ∀ r < P.size, (s.procs r).status ≠ .panicked
  live : ∀ s, P.Reached s → (∃ s', P.Step s s') ∨
    ∀ r < P.size, (s.procs r).status = .done ∧ good r (s.procs r).value
  ends : ¬ ∃ f : ℕ → State σ μ, f 0 = P.start ∧ ∀ i, P.Step (f i) (f (i + 1))

/-- The value of a process after some rounds, if all go through the rounds together. -/
def sync : ℕ → ℕ → σ
  | 0, r => P.init r
  | p + 1, r => P.next r p (sync p r) (P.out (P.pred r) p (sync p (P.pred r)))

/-- The message of a process in a round. -/
def msg (r p : ℕ) : μ := P.out r p (P.sync p r)

end Protocol

open Protocol

/-- The messages a process has sent. -/
def Proc.count (c : Proc σ) : ℕ := c.round + c.sent.toNat

/-- What holds of a process. -/
structure ProcInv (r : ℕ) (c : Proc σ) : Prop where
  round_le : c.round ≤ P.rounds
  sent_lt : c.sent = true → c.round < P.rounds
  value : c.value = if c.status = .done then P.finish (P.sync P.rounds r) else P.sync c.round r
  done : c.status = .done → c.round = P.rounds
  sent_ok : ∀ p < c.count, P.ok r p
  panicked : c.status = .panicked → c.round < P.rounds ∧ ¬ P.ok r c.round

/-- Each process is as in the synchronous run, and each queue holds what has been sent and not
received. -/
structure Inv (s : State σ μ) : Prop where
  proc : ∀ r < P.size, ProcInv P r (s.procs r)
  le : ∀ r < P.size, (s.procs r).round ≤ (s.procs (P.pred r)).count
  chan : ∀ r < P.size, s.chan (P.pred r) =
    (List.range' (s.procs r).round ((s.procs (P.pred r)).count - (s.procs r).round)).map
      (P.msg (P.pred r))

section

variable {P} {s s' : State σ μ}

theorem pred_eq {r : ℕ} (hr : r < P.size) : P.pred r = if r = 0 then P.size - 1 else r - 1 := by
  unfold Protocol.pred
  split_ifs with h0
  · rw [h0, Nat.zero_add, Nat.mod_eq_of_lt (by omega)]
  · rw [show r + P.size - 1 = r - 1 + P.size by omega, Nat.add_mod_right, Nat.mod_eq_of_lt (by omega)]

theorem pred_lt {r : ℕ} (hr : r < P.size) : P.pred r < P.size := by
  rw [pred_eq hr]
  split_ifs <;> omega

theorem pred_inj {r r' : ℕ} (hr : r < P.size) (hr' : r' < P.size) (h : P.pred r = P.pred r') :
    r = r' := by
  rw [pred_eq hr, pred_eq hr'] at h
  split_ifs at h <;> omega

theorem start_inv : Inv P P.start := by
  refine ⟨fun r _ => ⟨?_, ?_, ?_, ?_, ?_, ?_⟩, fun r _ => ?_, fun r _ => ?_⟩ <;>
    simp [start, Proc.count, sync]

/-- A process that has not sent the message of its round has sent those before. -/
theorem count_of_not_sent {c : Proc σ} (h : c.sent = false) : c.count = c.round := by
  simp [Proc.count, h]

theorem count_of_sent {c : Proc σ} (h : c.sent = true) : c.count = c.round + 1 := by
  simp [Proc.count, h]

theorem ProcInv.value_of_running {r : ℕ} {c : Proc σ} (h : ProcInv P r c)
    (hrun : c.status = .running) : c.value = P.sync c.round r := by
  rw [h.value, hrun]
  rfl

/-- What a step keeps at the process that takes it, it keeps at all. -/
theorem apply_update {β : Type*} (f : Proc σ → β) {procs : ℕ → Proc σ} {r : ℕ} {c : Proc σ}
    (h : f c = f (procs r)) (i : ℕ) : f (Function.update procs r c i) = f (procs i) := by
  rcases eq_or_ne i r with rfl | hi
  · rw [Function.update_self, h]
  · rw [Function.update_of_ne hi]

/-- A process changes neither its round nor the number of its messages. -/
theorem Inv.update (h : Inv P s) {r : ℕ} {c : Proc σ} (hround : c.round = (s.procs r).round)
    (hcount : c.count = (s.procs r).count) (hc : ProcInv P r c) :
    Inv P { s with procs := Function.update s.procs r c } := by
  have hround' := apply_update Proc.round hround
  have hcount' := apply_update Proc.count hcount
  constructor
  · intro i hi
    dsimp only
    rcases eq_or_ne i r with rfl | hir
    · rw [Function.update_self]
      exact hc
    · rw [Function.update_of_ne hir]
      exact h.proc i hi
  · intro i hi
    rw [hround', hcount']
    exact h.le i hi
  · intro i hi
    rw [hround', hcount']
    exact h.chan i hi

theorem Inv.send (h : Inv P s) {r : ℕ} (hr : r < P.size) (hrun : (s.procs r).status = .running)
    (hround : (s.procs r).round < P.rounds) (hsent : (s.procs r).sent = false)
    (hok : P.ok r (s.procs r).round) :
    Inv P
      { procs := Function.update s.procs r { s.procs r with sent := true }
        chan := Function.update s.chan r
          (s.chan r ++ [P.out r (s.procs r).round (s.procs r).value]) } := by
  have hp := h.proc r hr
  have hold : (s.procs r).count = (s.procs r).round := count_of_not_sent hsent
  have hnew : ({ s.procs r with sent := true } : Proc σ).count = (s.procs r).round + 1 :=
    count_of_sent rfl
  have hround' : ∀ i, (Function.update s.procs r { s.procs r with sent := true } i).round =
      (s.procs i).round := apply_update Proc.round rfl
  constructor
  · intro i hi
    dsimp only
    rcases eq_or_ne i r with rfl | hir
    · rw [Function.update_self]
      refine ⟨hp.round_le, fun _ => hround, hp.value, hp.done, fun p hlt => ?_, hp.panicked⟩
      rw [hnew] at hlt
      rcases Nat.lt_succ_iff_lt_or_eq.mp hlt with hlt | rfl
      · exact hp.sent_ok p (by omega)
      · exact hok
    · rw [Function.update_of_ne hir]
      exact h.proc i hi
  · intro i hi
    have hle := h.le i hi
    rw [hround']
    dsimp only
    rcases eq_or_ne (P.pred i) r with hir | hir
    · rw [hir, Function.update_self, hnew]
      rw [hir, hold] at hle
      omega
    · rw [Function.update_of_ne hir]
      exact hle
  · intro i hi
    have hle := h.le i hi
    have hchan := h.chan i hi
    rw [hround']
    dsimp only
    rcases eq_or_ne (P.pred i) r with hir | hir
    · -- the new message is the last of the queue
      rw [hir, hold] at hle hchan
      rw [hir, Function.update_self, Function.update_self, hnew, hchan, Nat.succ_sub hle,
        List.range'_concat, List.map_append, hp.value_of_running hrun]
      simp only [List.map_cons, List.map_nil, Nat.one_mul, Nat.add_sub_cancel' hle, msg]
    · rw [Function.update_of_ne hir, Function.update_of_ne hir]
      exact hchan

/-- What a process finds first in its queue is the message of its round. -/
theorem Inv.head (h : Inv P s) {r : ℕ} (hr : r < P.size) {m : μ} {rest : List μ}
    (hchan : s.chan (P.pred r) = m :: rest) :
    (s.procs r).round < (s.procs (P.pred r)).count ∧ m = P.msg (P.pred r) (s.procs r).round ∧
      rest = (List.range' ((s.procs r).round + 1)
        ((s.procs (P.pred r)).count - ((s.procs r).round + 1))).map (P.msg (P.pred r)) := by
  have hqueue := h.chan r hr
  obtain ⟨k, hk⟩ : ∃ k, (s.procs (P.pred r)).count - (s.procs r).round = k + 1 := by
    refine Nat.exists_eq_succ_of_ne_zero fun h0 => ?_
    rw [hchan, h0] at hqueue
    cases hqueue
  rw [hchan, hk, List.range'_succ, List.map_cons] at hqueue
  obtain ⟨hm, hrest⟩ := List.cons.inj hqueue
  refine ⟨by omega, hm, ?_⟩
  rw [hrest, show (s.procs (P.pred r)).count - ((s.procs r).round + 1) = k by omega]

theorem Inv.recv (h : Inv P s) {r : ℕ} (hr : r < P.size) (hrun : (s.procs r).status = .running)
    (hsent : (s.procs r).sent = true) {m : μ} {rest : List μ}
    (hchan : s.chan (P.pred r) = m :: rest) :
    Inv P
      { procs := Function.update s.procs r
          { round := (s.procs r).round + 1
            sent := false
            value := P.next r (s.procs r).round (s.procs r).value m
            status := .running }
        chan := Function.update s.chan (P.pred r) rest } := by
  obtain ⟨hlt, rfl, hrest⟩ := h.head hr hchan
  have hp := h.proc r hr
  have hround := hp.sent_lt hsent
  have hcount : ∀ i, (Function.update s.procs r
      { round := (s.procs r).round + 1
        sent := false
        value := P.next r (s.procs r).round (s.procs r).value (P.msg (P.pred r) (s.procs r).round)
        status := .running } i).count = (s.procs i).count := by
    refine apply_update Proc.count ?_
    rw [count_of_sent hsent, count_of_not_sent rfl]
  constructor
  · intro i hi
    dsimp only
    rcases eq_or_ne i r with rfl | hir
    · rw [Function.update_self]
      refine ⟨hround, nofun, ?_, nofun, fun p hlt => ?_, nofun⟩
      · rw [hp.value_of_running hrun]
        rfl
      · refine hp.sent_ok p ?_
        rw [count_of_sent hsent]
        exact hlt
    · rw [Function.update_of_ne hir]
      exact h.proc i hi
  · intro i hi
    rw [hcount]
    dsimp only
    rcases eq_or_ne i r with rfl | hir
    · rw [Function.update_self]
      exact hlt
    · rw [Function.update_of_ne hir]
      exact h.le i hi
  · intro i hi
    rw [hcount]
    dsimp only
    rcases eq_or_ne i r with rfl | hir
    · rw [Function.update_self, Function.update_self]
      exact hrest
    · rw [Function.update_of_ne hir, Function.update_of_ne fun heq => hir (pred_inj hi hr heq)]
      exact h.chan i hi

theorem Inv.step (h : Inv P s) (hstep : P.Step s s') : Inv P s' := by
  cases hstep with
  | send r hr hrun hround hsent hok => exact h.send hr hrun hround hsent hok
  | recv r hr hrun hsent m rest hchan => exact h.recv hr hrun hsent hchan
  | panic r hr hrun hround hsent hok =>
    have hp := h.proc r hr
    refine h.update rfl rfl ⟨hp.round_le, hp.sent_lt, ?_, nofun, hp.sent_ok,
      fun _ => ⟨hround, hok⟩⟩
    exact hp.value_of_running hrun
  | finish r hr hrun hround =>
    have hp := h.proc r hr
    refine h.update rfl rfl ⟨hp.round_le, hp.sent_lt, ?_, fun _ => hround, hp.sent_ok, nofun⟩
    rw [hp.value_of_running hrun, hround]
    rfl

theorem Protocol.Reached.inv (h : P.Reached s) : Inv P s := by
  induction h with
  | start => exact start_inv
  | step _ hstep ih => exact ih.step hstep

theorem Inv.progress (h : Inv P s) (hsafe : ∀ r < P.size, (s.procs r).status ≠ .panicked) :
    (∃ s', P.Step s s') ∨ ∀ r < P.size, (s.procs r).status = .done := by
  rw [or_iff_not_imp_left]
  intro hstuck r hr
  have hrunning : ∀ i < P.size, (s.procs i).status = .running →
      (s.procs i).round < P.rounds ∧ (s.procs i).sent = true := by
    intro i hi hrun
    have hlt : (s.procs i).round < P.rounds := by
      refine lt_of_le_of_ne (h.proc i hi).round_le fun heq => hstuck ?_
      exact ⟨_, Step.finish i hi hrun heq⟩
    refine ⟨hlt, ?_⟩
    by_contra hsent
    rw [Bool.not_eq_true] at hsent
    by_cases hok : P.ok i (s.procs i).round
    · exact hstuck ⟨_, Step.send i hi hrun hlt hsent hok⟩
    · exact hstuck ⟨_, Step.panic i hi hrun hlt hsent hok⟩
  by_contra hdone
  have hdone' : ∀ i < P.size, (s.procs i).status ≠ .running → (s.procs i).status = .done := by
    intro i hi hne
    cases hstat : (s.procs i).status with
    | running => exact absurd hstat hne
    | panicked => exact absurd hstat (hsafe i hi)
    | done => rfl
  -- the process that is furthest behind has a message
  obtain ⟨i, hmem, hmin⟩ := (Finset.range P.size).exists_min_image (fun i => (s.procs i).round)
    ⟨r, Finset.mem_range.mpr hr⟩
  have hi : i < P.size := Finset.mem_range.mp hmem
  have hmin' : ∀ j < P.size, (s.procs i).round ≤ (s.procs j).round :=
    fun j hj => hmin j (Finset.mem_range.mpr hj)
  have hrun_r : (s.procs r).status = .running := by
    by_contra hne
    exact hdone (hdone' r hr hne)
  have hlt : (s.procs i).round < P.rounds := (hmin' r hr).trans_lt (hrunning r hr hrun_r).1
  have hrun : (s.procs i).status = .running := by
    by_contra hne
    have := (h.proc i hi).done (hdone' i hi hne)
    omega
  have hpred : (s.procs i).round < (s.procs (P.pred i)).count := by
    have hj := pred_lt hi
    by_cases hrun' : (s.procs (P.pred i)).status = .running
    · rw [count_of_sent (hrunning _ hj hrun').2]
      exact Nat.lt_succ_of_le (hmin' _ hj)
    · have hround := (h.proc _ hj).done (hdone' _ hj hrun')
      unfold Proc.count
      omega
  obtain ⟨k, hk⟩ := Nat.exists_eq_add_of_lt hpred
  have hchan := h.chan i hi
  rw [hk, show (s.procs i).round + k + 1 - (s.procs i).round = k + 1 by omega, List.range'_succ,
    List.map_cons] at hchan
  exact hstuck ⟨_, Step.recv i hi hrun (hrunning i hi hrun).2 _ _ hchan⟩

/-- The steps a process has taken. -/
def Proc.work (c : Proc σ) : ℕ := 2 * c.round + c.sent.toNat + if c.status = .running then 0 else 1

variable (P) in
/-- The steps all processes have taken. -/
def effort (s : State σ μ) : ℕ := ∑ r ∈ Finset.range P.size, (s.procs r).work

theorem effort_update {r : ℕ} (hr : r < P.size) {c : Proc σ} (hc : c.work = (s.procs r).work + 1)
    {chan : ℕ → List μ} :
    effort P { procs := Function.update s.procs r c, chan := chan } = effort P s + 1 := by
  have hmem : r ∈ Finset.range P.size := Finset.mem_range.mpr hr
  have hothers : ∑ i ∈ (Finset.range P.size).erase r, (Function.update s.procs r c i).work =
      ∑ i ∈ (Finset.range P.size).erase r, (s.procs i).work := by
    refine Finset.sum_congr rfl fun i hi => ?_
    rw [Function.update_of_ne (Finset.ne_of_mem_erase hi)]
  unfold effort
  rw [← Finset.add_sum_erase _ _ hmem, ← Finset.add_sum_erase _ _ hmem]
  dsimp only
  rw [Function.update_self, hc, hothers]
  omega

theorem effort_step (hstep : P.Step s s') : effort P s' = effort P s + 1 := by
  cases hstep with
  | send r hr hrun hround hsent hok =>
    refine effort_update hr ?_
    simp [Proc.work, hrun, hsent]
  | panic r hr hrun hround hsent hok =>
    refine effort_update hr ?_
    simp [Proc.work, hrun]
  | recv r hr hrun hsent m rest hchan =>
    refine effort_update hr ?_
    simp [Proc.work, hrun, hsent]
    omega
  | finish r hr hrun hround =>
    refine effort_update hr ?_
    simp [Proc.work, hrun]

theorem ProcInv.work_le {r : ℕ} {c : Proc σ} (h : ProcInv P r c) : c.work ≤ 2 * P.rounds + 1 := by
  have hround := h.round_le
  have hone : (if c.status = .running then 0 else 1) ≤ 1 := by
    split_ifs <;> omega
  unfold Proc.work
  cases hsent : c.sent with
  | false =>
    rw [Bool.toNat_false]
    omega
  | true =>
    have hlt := h.sent_lt hsent
    rw [Bool.toNat_true]
    omega

theorem Inv.effort_le (h : Inv P s) : effort P s ≤ P.size * (2 * P.rounds + 1) := by
  have hle := Finset.sum_le_card_nsmul (Finset.range P.size) (fun r => (s.procs r).work)
    (2 * P.rounds + 1) fun r hr => (h.proc r (Finset.mem_range.mp hr)).work_le
  rwa [Finset.card_range, smul_eq_mul] at hle

/-- There is no run without an end. -/
theorem ends : ¬ ∃ f : ℕ → State σ μ, f 0 = P.start ∧ ∀ i, P.Step (f i) (f (i + 1)) := by
  rintro ⟨f, h0, hstep⟩
  have hreached : ∀ i, P.Reached (f i) := by
    intro i
    induction i with
    | zero =>
      rw [h0]
      exact Reached.start
    | succ i ih => exact ih.step (hstep i)
  have heffort : ∀ i, effort P (f i) = effort P (f 0) + i := by
    intro i
    induction i with
    | zero => rfl
    | succ i ih => rw [effort_step (hstep i), ih, Nat.add_assoc]
  have hle := (hreached (P.size * (2 * P.rounds + 1) + 1)).inv.effort_le
  rw [heffort] at hle
  omega

/-- From each state that is reached, a state without a step is reached. -/
theorem Protocol.Reached.exists_stuck (h : P.Reached s) : ∃ s', P.Reached s' ∧ ¬ ∃ s'', P.Step s' s'' := by
  generalize hk : P.size * (2 * P.rounds + 1) - effort P s = k
  induction k generalizing s with
  | zero =>
    refine ⟨s, h, ?_⟩
    rintro ⟨s', hstep⟩
    have hle := (h.step hstep).inv.effort_le
    rw [effort_step hstep] at hle
    omega
  | succ k ih =>
    by_cases hstuck : ∃ s', P.Step s s'
    · obtain ⟨s', hstep⟩ := hstuck
      refine ih (h.step hstep) ?_
      rw [effort_step hstep]
      omega
    · exact ⟨s, h, hstuck⟩

/-- Every run ends well just when the synchronous one does. -/
theorem delivers_iff {good : ℕ → σ → Prop} : P.Delivers good ↔
    (∀ r < P.size, ∀ p < P.rounds, P.ok r p) ∧
      ∀ r < P.size, good r (P.finish (P.sync P.rounds r)) := by
  have hvalue : ∀ s, P.Reached s → ∀ r < P.size, (s.procs r).status = .done →
      (s.procs r).value = P.finish (P.sync P.rounds r) := by
    intro s hs r hr hdone
    rw [(hs.inv.proc r hr).value, if_pos hdone]
  constructor
  · intro h
    obtain ⟨s, hs, hstuck⟩ := (Reached.start (P := P)).exists_stuck
    have hend := (h.live s hs).resolve_left hstuck
    constructor
    · intro r hr p hp
      have hround := (hs.inv.proc r hr).done (hend r hr).1
      refine (hs.inv.proc r hr).sent_ok p ?_
      unfold Proc.count
      omega
    · intro r hr
      rw [← hvalue s hs r hr (hend r hr).1]
      exact (hend r hr).2
  · rintro ⟨hok, hgood⟩
    have hsafe : ∀ s, P.Reached s → ∀ r < P.size, (s.procs r).status ≠ .panicked := by
      intro s hs r hr hpanic
      obtain ⟨hlt, hnot⟩ := (hs.inv.proc r hr).panicked hpanic
      exact hnot (hok r hr _ hlt)
    refine ⟨hsafe, fun s hs => ?_, ends⟩
    refine (hs.inv.progress (hsafe s hs)).imp_right fun hdone r hr => ⟨hdone r hr, ?_⟩
    rw [hvalue s hs r hr (hdone r hr)]
    exact hgood r hr

end

end Lib.SyncRing
