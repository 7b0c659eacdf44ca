import Mathlib.Algebra.Order.BigOperators.Group.Finset
import Mathlib.Data.Finset.Range
import SneppxAlg.Lib.LinkedList

/-!
# `pool_impl.c`, `allocator.c`: the lock-free stacks

Threads push nodes on a shared stack and pop them. Each function is cut at its accesses to shared memory, and a run is
any interleaving of these, in one order for all threads; a compare-and-swap is one access. `lf_push` and `lf_pop` make
the same accesses as `SNEPPX_lockfree_stack_push` and `SNEPPX_lockfree_stack_pop`.

A pop takes the successor of the top from a read that lies before its exchange. So a node must not be pushed again while
a thread that has read it as the top is still in its pop (`Careful`). Then every run has the results of a stack on which
the operations are executed one after the other, each of them at its last access (`run_linearizable`). Nobody waits:
exchanges fail only because others succeeded, which bounds the accesses of a run by the calls and the completed
operations (`run_lock_free`).
-/

namespace SneppxAlg.LockfreeStack

open Lib.LinkedList

/-- Where a thread is; nodes are addresses. -/
inductive Pc where
  | idle
  /-- before `old_top = stack->top` -/
  | pushRead (node : ℕ)
  /-- before `node->next = old_top` -/
  | pushLink (node : ℕ) (oldTop : Option ℕ)
  /-- before `CAS_PTR` -/
  | pushCas (node : ℕ) (oldTop : Option ℕ)
  /-- before `old_top = stack->top` -/
  | popRead
  /-- before `new_top = old_top->next` -/
  | popNext (oldTop : ℕ)
  /-- before `CAS_PTR` -/
  | popCas (oldTop : ℕ) (newTop : Option ℕ)
deriving DecidableEq

/-- The node that a thread is about to push. -/
def Pc.pushes : Pc → Option ℕ
  | .pushRead node | .pushLink node _ | .pushCas node _ => some node
  | _ => none

/-- The node that a thread is about to push, or the one that it took for the top. -/
def Pc.holds : Pc → Option ℕ
  | .pushRead node | .pushLink node _ | .pushCas node _ => some node
  | .popNext oldTop | .popCas oldTop _ => some oldTop
  | .idle | .popRead => none

/-- The shared memory, and where the threads are. -/
structure State where
  top : Option ℕ
  next : ℕ → Option ℕ
  pc : ℕ → Pc

/-- An empty stack. -/
def State.init : State := ⟨none, fun _ => none, fun _ => .idle⟩

def State.setPc (s : State) (t : ℕ) (pc : Pc) : State := { s with pc := Function.update s.pc t pc }

@[simp] theorem State.setPc_top (s : State) (t : ℕ) (pc : Pc) : (s.setPc t pc).top = s.top := rfl

@[simp] theorem State.setPc_pc (s : State) (t : ℕ) (pc : Pc) : (s.setPc t pc).pc = Function.update s.pc t pc := rfl

/-- A completed operation, with the result of a pop. -/
inductive Effect where
  | push (node : ℕ)
  | pop (result : Option ℕ)
deriving DecidableEq

/-! ## Steps -/

inductive Action where
  /-- `SNEPPX_lockfree_stack_push` is called -/
  | push (t : ℕ) (node : ℕ)
  /-- `SNEPPX_lockfree_stack_pop` is called -/
  | pop (t : ℕ)
  /-- the next access -/
  | move (t : ℕ)
  /-- the owner of a node writes to its memory, where `next` was -/
  | write (node : ℕ) (link : Option ℕ)

/-- The next access of a thread, and the operation that it completes. -/
def move (s : State) (t : ℕ) : Option (State × Option Effect) :=
  match s.pc t with
  | .idle => none
  | .pushRead node => some (s.setPc t (.pushLink node s.top), none)
  | .pushLink node oldTop =>
    some (State.setPc { s with next := Function.update s.next node oldTop } t (.pushCas node oldTop), none)
  | .pushCas node oldTop =>
    if s.top = oldTop then some (State.setPc { s with top := some node } t .idle, some (.push node))
    else some (s.setPc t (.pushRead node), none)
  | .popRead =>
    match s.top with
    | none => some (s.setPc t .idle, some (.pop none))
    | some oldTop => some (s.setPc t (.popNext oldTop), none)
  | .popNext oldTop => some (s.setPc t (.popCas oldTop (s.next oldTop)), none)
  | .popCas oldTop newTop =>
    if s.top = some oldTop then some (State.setPc { s with top := newTop } t .idle, some (.pop (some oldTop)))
    else some (s.setPc t .popRead, none)

def step (s : State) : Action → Option (State × Option Effect)
  | .push t node => if s.pc t = .idle then some (s.setPc t (.pushRead node), none) else none
  | .pop t => if s.pc t = .idle then some (s.setPc t .popRead, none) else none
  | .move t => move s t
  | .write node link => some ({ s with next := Function.update s.next node link }, none)

/-- The steps of a run, with the completed operations in their order. -/
def run (s : State) : List Action → Option (State × List Effect)
  | [] => some (s, [])
  | a :: as => (step s a).bind fun r => (run r.1 as).map fun rs => (rs.1, r.2.toList ++ rs.2)

/-! ## The stack -/

/-- One operation after the other. -/
def apply : List ℕ → Effect → Option (List ℕ)
  | l, .push node => some (node :: l)
  | [], .pop none => some []
  | a :: l, .pop (some b) => if a = b then some l else none
  | _, .pop _ => none

/-- The stack after operations in a row; `none` where their results are not those of a stack. -/
def replay : List ℕ → List Effect → Option (List ℕ)
  | l, [] => some l
  | l, e :: es => (apply l e).bind fun l => replay l es

/-- The nodes on the stack are `l`, from the top down. -/
def State.Holds (s : State) (l : List ℕ) : Prop := IsList id (fun a => some (s.next a)) s.top l

/-- Only nodes that are neither on the stack nor in the hands of a thread are pushed, and nobody writes to a node that is
on the stack or on the way there. -/
def Careful (s : State) : Action → Prop
  | .push _ node => (∀ l, s.Holds l → node ∉ l) ∧ ∀ t, (s.pc t).holds ≠ some node
  | .write node _ => (∀ l, s.Holds l → node ∉ l) ∧ ∀ t, (s.pc t).pushes ≠ some node
  | _ => True

def AllCareful (s : State) : List Action → Prop
  | [] => True
  | a :: as => Careful s a ∧ ∀ r, step s a = some r → AllCareful r.1 as

/-- What holds between two steps. -/
structure Inv (s : State) (l : List ℕ) : Prop where
  holds : s.Holds l
  nodup : l.Nodup
  notMem : ∀ t node, (s.pc t).pushes = some node → node ∉ l
  own : ∀ t node, (s.pc t).pushes = some node → ∀ t', t' ≠ t → (s.pc t').holds ≠ some node
  linked : ∀ t node oldTop, s.pc t = .pushCas node oldTop → s.next node = oldTop
  read : ∀ t oldTop newTop, s.pc t = .popCas oldTop newTop → oldTop ∈ l → s.next oldTop = newTop

theorem inv_init : Inv .init [] where
  holds := rfl
  nodup := List.nodup_nil
  notMem := nofun
  own := nofun
  linked := nofun
  read := nofun

variable {s s' : State} {l : List ℕ} {t : ℕ}

theorem Pc.holds_of_pushes {pc : Pc} {node : ℕ} (h : pc.pushes = some node) : pc.holds = some node := by
  cases pc <;> first | exact h | nomatch h

/-- A step of one thread. The other threads find the links as before, of the nodes that they push, and of those that
they took for the top as long as these are on the stack. -/
theorem Inv.change (h : Inv s l) {l' : List ℕ} {pc : Pc} (hpc : s'.pc = Function.update s.pc t pc)
    (hholds : s'.Holds l') (hnodup : l'.Nodup)
    (hlink : ∀ t', t' ≠ t → ∀ a, (s.pc t').pushes = some a → a ∉ l' ∧ s'.next a = s.next a)
    (hpop : ∀ t', t' ≠ t → ∀ a, (s.pc t').holds = some a → a ∈ l' → a ∈ l ∧ s'.next a = s.next a)
    (hpushes : ∀ node, pc.pushes = some node → node ∉ l' ∧ ∀ t', t' ≠ t → (s.pc t').holds ≠ some node)
    (hheld : ∀ a, pc.holds = some a → ∀ t', t' ≠ t → (s.pc t').pushes ≠ some a)
    (hlinked : ∀ node oldTop, pc = .pushCas node oldTop → s'.next node = oldTop)
    (hread : ∀ oldTop newTop, pc = .popCas oldTop newTop → oldTop ∈ l' → s'.next oldTop = newTop) : Inv s' l' := by
  have hself : s'.pc t = pc := by rw [hpc, Function.update_self]
  have hother : ∀ t', t' ≠ t → s'.pc t' = s.pc t' := fun t' ht => by rw [hpc, Function.update_of_ne ht]
  refine { holds := hholds, nodup := hnodup, notMem := ?_, own := ?_, linked := ?_, read := ?_ }
  · intro t' node hp
    by_cases ht : t' = t
    · subst ht
      rw [hself] at hp
      exact (hpushes node hp).1
    · rw [hother t' ht] at hp
      exact (hlink t' ht node hp).1
  · intro t' node hp t₂ ht₂
    by_cases ht : t' = t
    · subst ht
      rw [hself] at hp
      rw [hother t₂ ht₂]
      exact (hpushes node hp).2 t₂ ht₂
    · rw [hother t' ht] at hp
      by_cases ht' : t₂ = t
      · subst ht'
        rw [hself]
        exact fun hp' => hheld node hp' t' ht hp
      · rw [hother t₂ ht']
        exact h.own t' node hp t₂ ht₂
  · intro t' node oldTop hp
    by_cases ht : t' = t
    · subst ht
      exact hlinked node oldTop (hself ▸ hp)
    · rw [hother t' ht] at hp
      rw [(hlink t' ht node (by rw [hp]; rfl)).2]
      exact h.linked t' node oldTop hp
  · intro t' oldTop newTop hp hmem
    by_cases ht : t' = t
    · subst ht
      exact hread oldTop newTop (hself ▸ hp) hmem
    · rw [hother t' ht] at hp
      obtain ⟨hl, hnext⟩ := hpop t' ht oldTop (by rw [hp]; rfl) hmem
      rw [hnext]
      exact h.read t' oldTop newTop hp hl

/-- A node that a thread is about to push is in no other hands. -/
theorem Inv.pushes_ne (h : Inv s l) {node n t' : ℕ} (hnode : (s.pc t).pushes = some node) (ht : t' ≠ t)
    (hp : (s.pc t').pushes = some n) : n ≠ node := by
  rintro rfl
  exact h.own t n hnode t' ht (Pc.holds_of_pushes hp)

theorem holds_some {a : ℕ} (h : s.Holds l) (htop : s.top = some a) :
    ∃ l', l = a :: l' ∧ IsList id (fun a => some (s.next a)) (s.next a) l' := by
  rw [State.Holds, htop, isList_some] at h
  obtain ⟨p, l', hl, hp, hlist⟩ := h
  obtain rfl := Option.some.inj hp
  exact ⟨l', hl, hlist⟩

theorem move_inv (h : Inv s l) {e : Option Effect} (hmove : move s t = some (s', e)) :
    ∃ l', replay l e.toList = some l' ∧ Inv s' l' := by
  have hlink : ∀ t', t' ≠ t → ∀ a, (s.pc t').pushes = some a → a ∉ l ∧ s.next a = s.next a :=
    fun t' _ a hp => ⟨h.notMem t' a hp, rfl⟩
  have hpop : ∀ t', t' ≠ t → ∀ a, (s.pc t').holds = some a → a ∈ l → a ∈ l ∧ s.next a = s.next a :=
    fun _ _ _ _ hmem => ⟨hmem, rfl⟩
  rw [move] at hmove
  cases hpc : s.pc t with
  | idle => simp [hpc] at hmove
  | pushRead node =>
    simp only [hpc, Option.some.injEq, Prod.mk.injEq] at hmove
    obtain ⟨rfl, rfl⟩ := hmove
    have hnode : (s.pc t).pushes = some node := by rw [hpc]; rfl
    refine ⟨l, rfl, h.change rfl h.holds h.nodup hlink hpop ?_ ?_ nofun nofun⟩
    · rintro _ ⟨⟩
      exact ⟨h.notMem t node hnode, h.own t node hnode⟩
    · rintro _ ⟨⟩ t' ht hp
      exact h.pushes_ne hnode ht hp rfl
  | pushLink node oldTop =>
    simp only [hpc, Option.some.injEq, Prod.mk.injEq] at hmove
    obtain ⟨rfl, rfl⟩ := hmove
    have hnode : (s.pc t).pushes = some node := by rw [hpc]; rfl
    refine ⟨l, rfl, h.change rfl (h.holds.congr fun a ha => ?_) h.nodup ?_ ?_ ?_ ?_ ?_ nofun⟩
    · -- the node is not on the stack
      have hne : a ≠ node := ne_of_mem_of_not_mem ha (h.notMem t node hnode)
      simp only [State.setPc, Function.update_of_ne hne]
    · intro t' ht a hp
      exact ⟨h.notMem t' a hp, Function.update_of_ne (h.pushes_ne hnode ht hp) _ _⟩
    · intro t' ht a hheld hmem
      have hne : a ≠ node := fun heq => h.own t node hnode t' ht (heq ▸ hheld)
      exact ⟨hmem, Function.update_of_ne hne _ _⟩
    · rintro _ ⟨⟩
      exact ⟨h.notMem t node hnode, h.own t node hnode⟩
    · rintro _ ⟨⟩ t' ht hp
      exact h.pushes_ne hnode ht hp rfl
    · rintro _ _ ⟨⟩
      exact Function.update_self _ _ _
  | pushCas node oldTop =>
    have hnode : (s.pc t).pushes = some node := by rw [hpc]; rfl
    simp only [hpc] at hmove
    split_ifs at hmove with htop
    · obtain ⟨rfl, rfl⟩ := Prod.mk.inj (Option.some.inj hmove)
      have hlinked := h.linked t node oldTop hpc
      have hlist : IsList id (fun a => some (s.next a)) (some node) (node :: l) :=
        ⟨rfl, _, rfl, by rw [id, hlinked, ← htop]; exact h.holds⟩
      have hnodup := List.nodup_cons.mpr ⟨h.notMem t node hnode, h.nodup⟩
      refine ⟨node :: l, rfl, h.change rfl hlist hnodup ?_ ?_ nofun nofun nofun nofun⟩
      · intro t' ht n hp
        exact ⟨List.not_mem_cons_of_ne_of_not_mem (h.pushes_ne hnode ht hp) (h.notMem t' n hp), rfl⟩
      · intro t' ht a hheld hmem
        refine ⟨(List.mem_cons.mp hmem).resolve_left fun heq => ?_, rfl⟩
        exact h.own t node hnode t' ht (heq ▸ hheld)
    · obtain ⟨rfl, rfl⟩ := Prod.mk.inj (Option.some.inj hmove)
      refine ⟨l, rfl, h.change rfl h.holds h.nodup hlink hpop ?_ ?_ nofun nofun⟩
      · rintro _ ⟨⟩
        exact ⟨h.notMem t node hnode, h.own t node hnode⟩
      · rintro _ ⟨⟩ t' ht hp
        exact h.pushes_ne hnode ht hp rfl
  | popRead =>
    simp only [hpc] at hmove
    cases htop : s.top with
    | none =>
      simp only [htop, Option.some.injEq, Prod.mk.injEq] at hmove
      obtain ⟨rfl, rfl⟩ := hmove
      have hlist := h.holds
      rw [State.Holds, htop, isList_none] at hlist
      subst hlist
      exact ⟨[], rfl, h.change rfl h.holds h.nodup hlink hpop nofun nofun nofun nofun⟩
    | some a =>
      simp only [htop, Option.some.injEq, Prod.mk.injEq] at hmove
      obtain ⟨rfl, rfl⟩ := hmove
      obtain ⟨l', rfl, -⟩ := holds_some h.holds htop
      refine ⟨a :: l', rfl, h.change rfl h.holds h.nodup hlink hpop nofun ?_ nofun nofun⟩
      rintro _ ⟨⟩ t' ht hp
      exact h.notMem t' a hp List.mem_cons_self
  | popNext a =>
    simp only [hpc, Option.some.injEq, Prod.mk.injEq] at hmove
    obtain ⟨rfl, rfl⟩ := hmove
    refine ⟨l, rfl, h.change rfl h.holds h.nodup hlink hpop nofun ?_ nofun ?_⟩
    · rintro _ ⟨⟩ t' ht hp
      exact h.own t' a hp t (Ne.symm ht) (by rw [hpc]; rfl)
    · rintro _ _ ⟨⟩ _
      rfl
  | popCas a newTop =>
    simp only [hpc] at hmove
    split_ifs at hmove with htop
    · obtain ⟨rfl, rfl⟩ := Prod.mk.inj (Option.some.inj hmove)
      obtain ⟨l', rfl, hlist⟩ := holds_some h.holds htop
      rw [h.read t a newTop hpc List.mem_cons_self] at hlist
      have hnodup := (List.nodup_cons.mp h.nodup).2
      refine ⟨l', by simp [replay, apply], h.change rfl hlist hnodup ?_ ?_ nofun nofun nofun nofun⟩
      · exact fun t' _ n hp => ⟨fun hmem => h.notMem t' n hp (List.mem_cons_of_mem a hmem), rfl⟩
      · exact fun t' _ n _ hmem => ⟨List.mem_cons_of_mem a hmem, rfl⟩
    · obtain ⟨rfl, rfl⟩ := Prod.mk.inj (Option.some.inj hmove)
      exact ⟨l, rfl, h.change rfl h.holds h.nodup hlink hpop nofun nofun nofun nofun⟩

theorem Inv.call_push (h : Inv s l) {node : ℕ} (hnode : node ∉ l) (hheld : ∀ t', (s.pc t').holds ≠ some node) :
    Inv (s.setPc t (.pushRead node)) l := by
  refine h.change rfl h.holds h.nodup (fun t' _ a hp => ⟨h.notMem t' a hp, rfl⟩) (fun _ _ _ _ hmem => ⟨hmem, rfl⟩) ?_ ?_
    nofun nofun
  · rintro _ ⟨⟩
    exact ⟨hnode, fun t' _ => hheld t'⟩
  · rintro _ ⟨⟩ t' _ hp
    exact hheld t' (Pc.holds_of_pushes hp)

theorem Inv.call_pop (h : Inv s l) : Inv (s.setPc t .popRead) l :=
  h.change rfl h.holds h.nodup (fun t' _ a hp => ⟨h.notMem t' a hp, rfl⟩) (fun _ _ _ _ hmem => ⟨hmem, rfl⟩) nofun nofun
    nofun nofun

theorem Inv.write (h : Inv s l) {node : ℕ} (hnode : node ∉ l) (hpushes : ∀ t, (s.pc t).pushes ≠ some node)
    (link : Option ℕ) : Inv { s with next := Function.update s.next node link } l := by
  have hne : ∀ a ∈ l, a ≠ node := fun a ha => ne_of_mem_of_not_mem ha hnode
  exact
    { holds := h.holds.congr fun a ha => by simp only [Function.update_of_ne (hne a ha)]
      nodup := h.nodup
      notMem := h.notMem
      own := h.own
      linked := fun t n oldTop hp => by
        have hn : n ≠ node := fun heq => hpushes t (heq ▸ congrArg Pc.pushes hp)
        exact (Function.update_of_ne hn _ _).trans (h.linked t n oldTop hp)
      read := fun t a newTop hp hmem =>
        (Function.update_of_ne (hne a hmem) _ _).trans (h.read t a newTop hp hmem) }

theorem step_inv (h : Inv s l) {a : Action} (hcareful : Careful s a) {e : Option Effect}
    (hstep : step s a = some (s', e)) : ∃ l', replay l e.toList = some l' ∧ Inv s' l' := by
  cases a with
  | push t node =>
    simp only [step, Option.ite_none_right_eq_some, Option.some.injEq, Prod.mk.injEq] at hstep
    obtain ⟨-, rfl, rfl⟩ := hstep
    exact ⟨l, rfl, h.call_push (hcareful.1 l h.holds) hcareful.2⟩
  | pop t =>
    simp only [step, Option.ite_none_right_eq_some, Option.some.injEq, Prod.mk.injEq] at hstep
    obtain ⟨-, rfl, rfl⟩ := hstep
    exact ⟨l, rfl, h.call_pop⟩
  | move t => exact move_inv h hstep
  | write node link =>
    obtain ⟨rfl, rfl⟩ := Prod.mk.inj (Option.some.inj hstep)
    exact ⟨l, rfl, h.write (hcareful.1 l h.holds) hcareful.2 link⟩

theorem replay_append (l : List ℕ) (es fs : List Effect) :
    replay l (es ++ fs) = (replay l es).bind fun l => replay l fs := by
  induction es generalizing l with
  | nil => rfl
  | cons e es ih =>
    rw [List.cons_append, replay, replay]
    cases apply l e with
    | none => rfl
    | some l' => exact ih l'

theorem run_inv {as : List Action} {es : List Effect} (h : Inv s l) (hcareful : AllCareful s as)
    (hrun : run s as = some (s', es)) : ∃ l', replay l es = some l' ∧ Inv s' l' := by
  induction as generalizing s l es with
  | nil =>
    obtain ⟨rfl, rfl⟩ : s = s' ∧ [] = es := by simpa [run] using hrun
    exact ⟨l, rfl, h⟩
  | cons a as ih =>
    rw [run, Option.bind_eq_some_iff] at hrun
    obtain ⟨⟨s₁, e⟩, hstep, hrun⟩ := hrun
    obtain ⟨⟨s₂, es'⟩, hrun₂, heq⟩ := Option.map_eq_some_iff.mp hrun
    obtain ⟨rfl, rfl⟩ := Prod.mk.inj heq
    obtain ⟨l₁, hreplay, h₁⟩ := step_inv h hcareful.1 hstep
    obtain ⟨l₂, hreplay₂, h₂⟩ := ih h₁ (hcareful.2 _ hstep) hrun₂
    exact ⟨l₂, by rw [replay_append, hreplay, Option.bind_some, hreplay₂], h₂⟩

/-- **The lock-free stack.** In any interleaving in which no node is pushed while it is on the stack or in the hands of
a thread, the operations have the results of a stack, in the order in which they complete, and the nodes that can be
reached are those of that stack. -/
theorem run_linearizable {as : List Action} {es : List Effect} (hcareful : AllCareful .init as)
    (hrun : run .init as = some (s, es)) : ∃ l, replay [] es = some l ∧ s.Holds l := by
  obtain ⟨l, hreplay, h⟩ := run_inv inv_init hcareful hrun
  exact ⟨l, hreplay, h.holds⟩

/-- Pops are careful, as the accesses of the threads are. -/
theorem allCareful_of_pops {as : List Action} (h : ∀ a ∈ as, ∃ t, a = .move t ∨ a = .pop t) : AllCareful s as := by
  induction as generalizing s with
  | nil => trivial
  | cons a as ih =>
    obtain ⟨⟨t, rfl | rfl⟩, has⟩ := List.forall_mem_cons.mp h
    · exact ⟨trivial, fun _ _ => ih has⟩
    · exact ⟨trivial, fun _ _ => ih has⟩

/-- Two threads push at the same time, and one of them pops. The exchange of the first push fails, and it goes round its
loop again. -/
theorem run_linearizable_twoThreads : ∃ (s : State) (l : List ℕ),
    run .init (.push 0 7 :: .push 1 8 :: [0, 1, 0, 1, 1, 0, 0, 0, 0].map .move ++ .pop 1 :: [1, 1, 1].map .move) =
      some (s, [.push 8, .push 7, .pop (some 7)]) ∧
    replay [] [.push 8, .push 7, .pop (some 7)] = some l ∧ s.Holds l := by
  have hempty : ∀ {s : State} {n : ℕ}, s.top = none → ∀ l, s.Holds l → n ∉ l := by
    intro s n htop l hl
    rw [State.Holds, htop, isList_none] at hl
    simp [hl]
  have hcareful : AllCareful .init
      (.push 0 7 :: .push 1 8 :: [0, 1, 0, 1, 1, 0, 0, 0, 0].map .move ++ .pop 1 :: [1, 1, 1].map .move) := by
    refine ⟨⟨hempty rfl, nofun⟩, ?_⟩
    rintro _ ⟨⟩
    refine ⟨⟨hempty rfl, fun t => ?_⟩, fun _ _ => allCareful_of_pops (by simp)⟩
    by_cases ht : t = 0 <;> simp [State.init, Pc.holds, ht]
  obtain ⟨l, hl⟩ := run_linearizable hcareful rfl
  exact ⟨_, l, rfl, hl⟩

/-- Thread 1 pushes the node 2 again while thread 0 is about to take it off: the node 1 is popped twice. -/
example : ∃ (s : State) (es : List Effect),
    run .init ([.push 0 1, .move 0, .move 0, .move 0, .push 0 2, .move 0, .move 0, .move 0, .pop 0, .move 0, .move 0,
      .pop 1, .move 1, .move 1, .move 1, .pop 1, .move 1, .move 1, .move 1, .push 1 2, .move 1, .move 1, .move 1,
      .move 0, .pop 0, .move 0, .move 0, .move 0]) = some (s, es) ∧ replay [] es = none :=
  ⟨_, _, rfl, rfl⟩

/-! ## Progress -/

/-- An action of one of the first `n` threads. -/
def Action.By (n : ℕ) : Action → Prop
  | .push t _ | .pop t | .move t => t < n
  | .write _ _ => True

def Action.isMove : Action → Bool
  | .move _ => true
  | _ => false

def Action.isCall : Action → Bool
  | .push _ _ | .pop _ => true
  | _ => false

/-- The accesses after which a thread is done if the top stays. A thread that took another node for the top has to go
round its loop once more. -/
def Pc.left (top : Option ℕ) : Pc → ℕ
  | .idle => 0
  | .pushRead _ | .popRead => 3
  | .pushLink _ oldTop => if top = oldTop then 2 else 5
  | .pushCas _ oldTop => if top = oldTop then 1 else 4
  | .popNext oldTop => if top = some oldTop then 2 else 5
  | .popCas oldTop _ => if top = some oldTop then 1 else 4

theorem Pc.left_le (top top' : Option ℕ) (pc : Pc) : pc.left top' ≤ pc.left top + 3 := by
  cases pc with
  | idle | pushRead | popRead => exact Nat.le_add_right _ _
  | pushLink | pushCas | popNext | popCas =>
    simp only [Pc.left]
    split_ifs <;> omega

/-- The accesses that are left to the first `n` threads. -/
def State.left (n : ℕ) (s : State) : ℕ := ∑ t ∈ Finset.range n, (s.pc t).left s.top

theorem sum_step {n c : ℕ} {f g : ℕ → ℕ} (ht : t < n) (hself : g t + 1 ≤ f t) (hother : ∀ t', t' ≠ t → g t' ≤ f t' + c) :
    ∑ t ∈ Finset.range n, g t + 1 ≤ ∑ t ∈ Finset.range n, f t + (n - 1) * c := by
  have hmem : t ∈ Finset.range n := Finset.mem_range.mpr ht
  have hrest : ∑ t' ∈ (Finset.range n).erase t, g t' ≤ ∑ t' ∈ (Finset.range n).erase t, f t' + (n - 1) * c := by
    calc ∑ t' ∈ (Finset.range n).erase t, g t'
        ≤ ∑ t' ∈ (Finset.range n).erase t, (f t' + c) :=
          Finset.sum_le_sum fun t' ht' => hother t' (Finset.ne_of_mem_erase ht')
      _ = ∑ t' ∈ (Finset.range n).erase t, f t' + (n - 1) * c := by
          rw [Finset.sum_add_distrib, Finset.sum_const, Finset.card_erase_of_mem hmem, Finset.card_range, smul_eq_mul]
  rw [← Finset.add_sum_erase _ _ hmem, ← Finset.add_sum_erase _ _ hmem]
  omega

/-- An access brings its thread forward, and throws others back only if it completes an operation. -/
theorem move_left {n : ℕ} {e : Option Effect} (ht : t < n) (hmove : move s t = some (s', e)) :
    s'.left n + 1 ≤ s.left n + (n - 1) * (3 * e.toList.length) := by
  have key : ∀ pc, s'.pc = Function.update s.pc t pc → pc.left s'.top + 1 ≤ (s.pc t).left s.top →
      (s'.top = s.top ∨ e.toList.length = 1) → s'.left n + 1 ≤ s.left n + (n - 1) * (3 * e.toList.length) := by
    intro pc hpc hself htop
    refine sum_step ht ?_ fun t' ht' => ?_
    · rwa [hpc, Function.update_self]
    · rw [hpc, Function.update_of_ne ht']
      rcases htop with htop | hlen
      · rw [htop]
        exact Nat.le_add_right _ _
      · rw [hlen]
        exact Pc.left_le _ _ _
  rw [move] at hmove
  cases hpc : s.pc t with
  | idle => simp [hpc] at hmove
  | pushRead node =>
    simp only [hpc, Option.some.injEq, Prod.mk.injEq] at hmove
    obtain ⟨rfl, rfl⟩ := hmove
    exact key _ rfl (by simp [hpc, Pc.left]) (.inl rfl)
  | pushLink node oldTop =>
    simp only [hpc, Option.some.injEq, Prod.mk.injEq] at hmove
    obtain ⟨rfl, rfl⟩ := hmove
    refine key _ rfl ?_ (.inl rfl)
    by_cases htop : s.top = oldTop <;> simp [hpc, Pc.left, htop]
  | pushCas node oldTop =>
    simp only [hpc] at hmove
    split_ifs at hmove with htop
    · obtain ⟨rfl, rfl⟩ := Prod.mk.inj (Option.some.inj hmove)
      exact key _ rfl (by simp [hpc, Pc.left, htop]) (.inr rfl)
    · obtain ⟨rfl, rfl⟩ := Prod.mk.inj (Option.some.inj hmove)
      exact key _ rfl (by simp [hpc, Pc.left, htop]) (.inl rfl)
  | popRead =>
    simp only [hpc] at hmove
    cases htop : s.top with
    | none =>
      simp only [htop, Option.some.injEq, Prod.mk.injEq] at hmove
      obtain ⟨rfl, rfl⟩ := hmove
      exact key _ rfl (by simp [hpc, Pc.left]) (.inl rfl)
    | some a =>
      simp only [htop, Option.some.injEq, Prod.mk.injEq] at hmove
      obtain ⟨rfl, rfl⟩ := hmove
      exact key _ rfl (by simp [hpc, Pc.left, htop]) (.inl rfl)
  | popNext a =>
    simp only [hpc, Option.some.injEq, Prod.mk.injEq] at hmove
    obtain ⟨rfl, rfl⟩ := hmove
    refine key _ rfl ?_ (.inl rfl)
    by_cases htop : s.top = some a <;> simp [hpc, Pc.left, htop]
  | popCas a newTop =>
    simp only [hpc] at hmove
    split_ifs at hmove with htop
    · obtain ⟨rfl, rfl⟩ := Prod.mk.inj (Option.some.inj hmove)
      exact key _ rfl (by simp [hpc, Pc.left, htop]) (.inr rfl)
    · obtain ⟨rfl, rfl⟩ := Prod.mk.inj (Option.some.inj hmove)
      exact key _ rfl (by simp [hpc, Pc.left, htop]) (.inl rfl)

theorem call_left {n : ℕ} (pc : Pc) (ht : t < n) (hidle : s.pc t = .idle) (hpc : pc.left s.top = 3) :
    (s.setPc t pc).left n = s.left n + 3 := by
  have hmem : t ∈ Finset.range n := Finset.mem_range.mpr ht
  have hrest : ∑ t' ∈ (Finset.range n).erase t, (Function.update s.pc t pc t').left s.top =
      ∑ t' ∈ (Finset.range n).erase t, (s.pc t').left s.top :=
    Finset.sum_congr rfl fun t' ht' => by rw [Function.update_of_ne (Finset.ne_of_mem_erase ht')]
  rw [State.left, State.left, State.setPc_top, State.setPc_pc, ← Finset.add_sum_erase _ _ hmem,
    ← Finset.add_sum_erase _ _ hmem, hrest, Function.update_self, hpc, hidle, Pc.left]
  omega

theorem run_left {n : ℕ} {as : List Action} {es : List Effect} (hthreads : ∀ a ∈ as, a.By n)
    (hrun : run s as = some (s', es)) :
    as.countP Action.isMove + s'.left n ≤
      s.left n + 3 * as.countP Action.isCall + (n - 1) * (3 * es.length) := by
  induction as generalizing s es with
  | nil =>
    obtain ⟨rfl, rfl⟩ : s = s' ∧ [] = es := by simpa [run] using hrun
    simp
  | cons a as ih =>
    obtain ⟨ha, has⟩ := List.forall_mem_cons.mp hthreads
    rw [run, Option.bind_eq_some_iff] at hrun
    obtain ⟨⟨s₁, e⟩, hstep, hrun⟩ := hrun
    obtain ⟨⟨s₂, es'⟩, hrun₂, heq⟩ := Option.map_eq_some_iff.mp hrun
    obtain ⟨rfl, rfl⟩ := Prod.mk.inj heq
    have hrest : _ ≤ s₁.left n + _ + _ := ih has hrun₂
    cases a with
    | push t node =>
      simp only [step, Option.ite_none_right_eq_some, Option.some.injEq, Prod.mk.injEq] at hstep
      obtain ⟨hidle, rfl, rfl⟩ := hstep
      rw [call_left (t := t) (.pushRead node) ha hidle rfl] at hrest
      rw [List.countP_cons_of_neg Bool.false_ne_true, List.countP_cons_of_pos rfl]
      exact hrest.trans (by simp; omega)
    | pop t =>
      simp only [step, Option.ite_none_right_eq_some, Option.some.injEq, Prod.mk.injEq] at hstep
      obtain ⟨hidle, rfl, rfl⟩ := hstep
      rw [call_left (t := t) .popRead ha hidle rfl] at hrest
      rw [List.countP_cons_of_neg Bool.false_ne_true, List.countP_cons_of_pos rfl]
      exact hrest.trans (by simp; omega)
    | move t =>
      have hmove := move_left ha hstep
      rw [List.countP_cons_of_pos rfl, List.countP_cons_of_neg Bool.false_ne_true]
      simp only [List.length_append, Nat.mul_add] at hrest ⊢
      omega
    | write node link =>
      obtain ⟨rfl, rfl⟩ := Prod.mk.inj (Option.some.inj hstep)
      rw [List.countP_cons_of_neg Bool.false_ne_true, List.countP_cons_of_neg Bool.false_ne_true]
      exact hrest

/-- **Progress.** In any run of `n` threads, the accesses are at most three for each call, and three for each other
thread and each completed operation: an exchange fails only if another thread has completed an operation. -/
theorem run_lock_free {n : ℕ} {as : List Action} {es : List Effect} (hthreads : ∀ a ∈ as, a.By n)
    (hrun : run .init as = some (s, es)) :
    as.countP Action.isMove ≤ 3 * as.countP Action.isCall + 3 * ((n - 1) * es.length) := by
  have h := run_left hthreads hrun
  have hinit : State.init.left n = 0 := Finset.sum_eq_zero fun _ _ => rfl
  rw [hinit, Nat.mul_left_comm] at h
  omega

theorem run_lock_free_twoThreads :
    ([.push 0 7, .push 1 8, .move 0, .move 1, .move 0, .move 1, .move 1, .move 0] : List Action).countP Action.isMove ≤
      3 * 2 + 3 * ((2 - 1) * 1) :=
  run_lock_free (n := 2) (by simp [Action.By]) (rfl : run .init _ = some (_, [.push 8]))

end SneppxAlg.LockfreeStack
