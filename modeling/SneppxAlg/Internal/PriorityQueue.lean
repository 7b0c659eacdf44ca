import Mathlib.Algebra.Order.Group.Multiset
import SneppxAlg.Lib.HeapOrder

/-!
# `pqueue.c`: the priority queue

A heap in an array of fixed capacity. `default_compare` is positive when its first argument is the
smaller one, so that the names of `pq_sift_down` notwithstanding the smallest priority is at the
root.

`SNEPPX_pq_create` asks for `initial_capacity * sizeof(SNEPPXPQElement)` bytes. The product is a
`size_t` and wraps around, and then the block that `SNEPPX_malloc` returns has fewer elements than
the capacity says. A push that writes behind the block has no defined behaviour, which is `none`
here. Indices below the size of a queue are so small that the arithmetic on them does not wrap.
-/

namespace SneppxAlg.PriorityQueue

open Lib.HeapOrder

/-- `SNEPPXPQElement`; pointers are addresses. -/
structure Element where
  priority : UInt64
  data : UInt64
  deriving DecidableEq

/-- `sizeof(SNEPPXPQElement)`. -/
def elementSize : ℕ := 16

/-- `SNEPPXPriorityQueue`, with the number of elements that the block `heap` has room for. -/
structure Queue where
  heap : ℕ → Element
  room : ℕ
  capacity : ℕ
  size : ℕ

def defaultCompare (a b : UInt64) : ℤ := (if a < b then 1 else 0) - if a > b then 1 else 0

/-- `SNEPPX_pq_create`, when both blocks are granted. -/
def pqCreate (initialCapacity : UInt64) : Queue :=
  let capacity := if initialCapacity = 0 then 16 else initialCapacity.toNat
  { heap := fun _ => ⟨0, 0⟩
    room := capacity * elementSize % 2 ^ 64 / elementSize
    capacity := capacity
    size := 0 }

def pqSiftUp (heap : ℕ → Element) (idx : ℕ) : ℕ → Element :=
  if 0 < idx then
    let parent := (idx - 1) / 2
    if defaultCompare (heap parent).priority (heap idx).priority ≥ 0 then heap
    else pqSiftUp (exchange heap parent idx) parent
  else heap
termination_by idx
decreasing_by omega

/-- The local variable `largest` of `pq_sift_down` after both tests. -/
def largest (heap : ℕ → Element) (size idx : ℕ) : ℕ :=
  let left := 2 * idx + 1
  let right := 2 * idx + 2
  let l := if left < size ∧ defaultCompare (heap left).priority (heap idx).priority > 0 then left
    else idx
  if right < size ∧ defaultCompare (heap right).priority (heap l).priority > 0 then right else l

theorem largest_cases (heap : ℕ → Element) (size idx : ℕ) :
    largest heap size idx = idx ∨ idx < largest heap size idx ∧ largest heap size idx < size := by
  unfold largest
  dsimp only
  split_ifs <;> omega

def pqSiftDown (heap : ℕ → Element) (size idx : ℕ) : ℕ → Element :=
  if largest heap size idx = idx then heap
  else pqSiftDown (exchange heap idx (largest heap size idx)) size (largest heap size idx)
termination_by size - idx
decreasing_by
  have := largest_cases heap size idx
  omega

/-- What a call returns: the status of a push, the element of a pop or a peek. -/
inductive Out where
  | done
  | failed
  | item (e : Element)
  deriving DecidableEq

def pqPush (q : Queue) (priority data : UInt64) : Option (Out × Queue) :=
  if q.size ≥ q.capacity then some (.failed, q)
  else if q.size < q.room then
    let heap := Function.update q.heap q.size ⟨priority, data⟩
    some (.done, { q with heap := pqSiftUp heap q.size, size := q.size + 1 })
  else none

def pqPop (q : Queue) : Out × Queue :=
  if q.size = 0 then (.failed, q)
  else
    let heap := Function.update q.heap 0 (q.heap (q.size - 1))
    let size := q.size - 1
    (.item (q.heap 0), { q with heap := if size > 0 then pqSiftDown heap size 0 else heap, size })

def pqPeek (q : Queue) : Out := if q.size = 0 then .failed else .item (q.heap 0)

def pqHeapify (q : Queue) (idx : ℕ) : Queue :=
  if idx ≥ q.size then q
  else { q with heap := pqSiftUp (pqSiftDown q.heap q.size idx) idx }

/-! ## Runs -/

inductive Op where
  | push (priority data : UInt64)
  | pop
  | peek
  | heapify (idx : ℕ)
  deriving DecidableEq

def step (q : Queue) : Op → Option (Out × Queue)
  | .push priority data => pqPush q priority data
  | .pop => some (pqPop q)
  | .peek => some (pqPeek q, q)
  | .heapify idx => some (.done, pqHeapify q idx)

/-- The calls in order, with what each of them returned. -/
def run (q : Queue) : List Op → Option (List (Op × Out) × Queue)
  | [] => some ([], q)
  | op :: ops => do
    let (out, q) ← step q op
    let (log, q) ← run q ops
    some ((op, out) :: log, q)

def pushed : List (Op × Out) → Multiset Element
  | [] => 0
  | (.push priority data, .done) :: log => ⟨priority, data⟩ ::ₘ pushed log
  | _ :: log => pushed log

/-- The elements that the pops returned. -/
def popped : List (Op × Out) → Multiset Element
  | [] => 0
  | (.pop, .item e) :: log => e ::ₘ popped log
  | _ :: log => popped log

def Element.rank (e : Element) : ℕ := e.priority.toNat

def Queue.items (q : Queue) : Multiset Element := Lib.HeapOrder.items q.heap q.size

/-- `e` has the least priority of all elements stored. -/
def IsLeast (q : Queue) (e : Element) : Prop :=
  e ∈ q.items ∧ ∀ x ∈ q.items, e.priority ≤ x.priority

/-- What one call is to do. -/
def Meets (q : Queue) : Op → Out → Queue → Prop
  | .push priority data, out, q' =>
    (out = .failed ∧ q.size = q.capacity ∧ q' = q) ∨
      (out = .done ∧ q.size < q.capacity ∧ q'.items = ⟨priority, data⟩ ::ₘ q.items)
  | .pop, out, q' =>
    (out = .failed ∧ q.items = 0 ∧ q' = q) ∨
      ∃ e, out = .item e ∧ IsLeast q e ∧ q'.items = q.items.erase e
  | .peek, out, q' =>
    q' = q ∧ ((out = .failed ∧ q.items = 0) ∨ ∃ e, out = .item e ∧ IsLeast q e)
  | .heapify _, _, q' => q'.items = q.items

/-- After the calls `ops` the array is a heap that holds what was pushed and not popped, and any
further call does what it is to do. -/
def Conforms (q₀ : Queue) (ops : List Op) : Prop :=
  ∃ log q, run q₀ ops = some (log, q) ∧ Ordered Element.rank q.heap q.size ∧
    q.items + popped log = pushed log ∧ ∀ op, ∃ out q', step q op = some (out, q') ∧ Meets q op out q'

/-! ## The sifts -/

section Sift

variable {heap : ℕ → Element} {size idx i j : ℕ}

theorem defaultCompare_nonneg_iff {a b : UInt64} : defaultCompare a b ≥ 0 ↔ a.toNat ≤ b.toNat := by
  simp only [defaultCompare, gt_iff_lt, UInt64.lt_iff_toNat_lt]
  split_ifs <;> omega

theorem defaultCompare_pos_iff {a b : UInt64} : defaultCompare a b > 0 ↔ a.toNat < b.toNat := by
  simp only [defaultCompare, gt_iff_lt, UInt64.lt_iff_toNat_lt]
  split_ifs <;> omega

theorem pqSiftUp_spec (hr : Rising Element.rank heap size idx) (hidx : idx < size) :
    Ordered Element.rank (pqSiftUp heap idx) size ∧
      Lib.HeapOrder.items (pqSiftUp heap idx) size = Lib.HeapOrder.items heap size := by
  induction heap, idx using pqSiftUp.induct with
  | case1 heap idx hpos parent hcmp =>
    rw [pqSiftUp, if_pos hpos, if_pos hcmp]
    exact ⟨hr.ordered fun _ => defaultCompare_nonneg_iff.mp hcmp, rfl⟩
  | case2 heap idx hpos parent hcmp ih =>
    have hlt : (heap idx).rank < (heap parent).rank :=
      not_le.mp fun hle => hcmp (defaultCompare_nonneg_iff.mpr hle)
    have hp : parent < idx := parent_lt hpos
    have hih := ih (hr.exchange hpos hidx hlt) (hp.trans hidx)
    rw [pqSiftUp, if_pos hpos, if_neg hcmp]
    exact ⟨hih.1, hih.2.trans (items_exchange (hp.trans hidx) hidx)⟩
  | case3 heap idx hpos =>
    rw [pqSiftUp, if_neg hpos]
    exact ⟨hr.ordered fun h => absurd h hpos, rfl⟩

/-- `largest` is a node below `idx` with the smallest priority, unless none is smaller than `idx`. -/
theorem largest_spec (heap : ℕ → Element) (size idx : ℕ) :
    (largest heap size idx = idx ∧
        ∀ i, 0 < i → i < size → parent i = idx → (heap idx).rank ≤ (heap i).rank) ∨
      (0 < largest heap size idx ∧ largest heap size idx < size ∧
        parent (largest heap size idx) = idx ∧
        (heap (largest heap size idx)).rank < (heap idx).rank ∧
        ∀ i, 0 < i → i < size → parent i = idx →
          (heap (largest heap size idx)).rank ≤ (heap i).rank) := by
  -- a node below `idx` is `left` or `right`
  have hchild : ∀ {P : ℕ → Prop}, (2 * idx + 1 < size → P (2 * idx + 1)) →
      (2 * idx + 2 < size → P (2 * idx + 2)) → ∀ i, 0 < i → i < size → parent i = idx → P i := by
    intro P hl hr i hi0 hi hp
    rcases eq_child_of_parent hi0 hp with rfl | rfl
    · exact hl hi
    · exact hr hi
  simp only [largest, defaultCompare_pos_iff]
  split_ifs with h₁ h₂ h₃
  · exact .inr ⟨by omega, h₂.1, parent_right idx, h₂.2.trans h₁.2,
      hchild (fun _ => h₂.2.le) fun _ => le_rfl⟩
  · exact .inr ⟨by omega, h₁.1, parent_left idx, h₁.2,
      hchild (fun _ => le_rfl) fun h => not_lt.mp fun hlt => h₂ ⟨h, hlt⟩⟩
  · have hleft : 2 * idx + 1 < size → (heap idx).rank ≤ (heap (2 * idx + 1)).rank :=
      fun h => not_lt.mp fun hlt => h₁ ⟨h, hlt⟩
    exact .inr ⟨by omega, h₃.1, parent_right idx, h₃.2,
      hchild (fun h => h₃.2.le.trans (hleft h)) fun _ => le_rfl⟩
  · exact .inl ⟨rfl, hchild (fun h => not_lt.mp fun hlt => h₁ ⟨h, hlt⟩)
      fun h => not_lt.mp fun hlt => h₃ ⟨h, hlt⟩⟩

theorem pqSiftDown_spec (hs : Sinking Element.rank heap size idx) (hidx : idx < size) :
    Ordered Element.rank (pqSiftDown heap size idx) size ∧
      Lib.HeapOrder.items (pqSiftDown heap size idx) size = Lib.HeapOrder.items heap size := by
  induction heap, idx using pqSiftDown.induct size with
  | case1 heap idx heq =>
    rw [pqSiftDown, if_pos heq]
    rcases largest_spec heap size idx with ⟨-, hle⟩ | ⟨hpos, -, hparent, -⟩
    · exact ⟨hs.ordered hle, rfl⟩
    · rw [heq] at hparent hpos
      exact absurd hparent (parent_lt hpos).ne
  | case2 heap idx hne ih =>
    rw [pqSiftDown, if_neg hne]
    rcases largest_spec heap size idx with ⟨heq, -⟩ | ⟨hpos, hlt, hparent, hsmall, hmin⟩
    · exact absurd heq hne
    · have hih := ih (hs.exchange hlt hparent hpos hsmall hmin) hlt
      exact ⟨hih.1, hih.2.trans (items_exchange hidx hlt)⟩

theorem pqSiftUp_of_ordered (ho : Ordered Element.rank heap size) (hidx : idx < size) :
    pqSiftUp heap idx = heap := by
  rw [pqSiftUp]
  split_ifs with hpos
  · exact if_pos (defaultCompare_nonneg_iff.mpr (ho idx hpos hidx))
  · rfl

theorem pqSiftDown_of_ordered (ho : Ordered Element.rank heap size) :
    pqSiftDown heap size idx = heap := by
  rw [pqSiftDown]
  refine if_pos ?_
  rcases largest_spec heap size idx with ⟨heq, -⟩ | ⟨hpos, hlt, hparent, hsmall, -⟩
  · exact heq
  · have hle := ho _ hpos hlt
    rw [hparent] at hle
    exact absurd hsmall hle.not_gt

end Sift

/-! ## One call -/

/-- The block of the queue has room for its capacity, and the elements in it form a heap. -/
structure Good (q : Queue) : Prop where
  ordered : Ordered Element.rank q.heap q.size
  size_le : q.size ≤ q.capacity
  room_eq : q.room = q.capacity

theorem isLeast_root {q : Queue} (hq : Ordered Element.rank q.heap q.size) (hpos : q.size ≠ 0) :
    IsLeast q (q.heap 0) := by
  refine ⟨mem_items.mpr ⟨0, by omega, rfl⟩, fun x hx => ?_⟩
  obtain ⟨i, hi, rfl⟩ := mem_items.mp hx
  exact UInt64.le_iff_toNat_le.mpr (hq.root_le i hi)

theorem items_eq_zero {q : Queue} (h : q.size = 0) : q.items = 0 := by
  rw [Queue.items, h, items_zero]

/-- A new element in the last place is out of order at most with the node above it. -/
theorem rising_update {heap : ℕ → Element} {n : ℕ} (ho : Ordered Element.rank heap n) (e : Element) :
    Rising Element.rank (Function.update heap n e) (n + 1) n := by
  constructor
  · intro i hi0 hi hin
    have hp : parent i < i := parent_lt hi0
    rw [Function.update_of_ne hin, Function.update_of_ne (by omega)]
    exact ho i hi0 (by omega)
  · intro _ i hi0 hi hp
    have hlt : parent i < i := parent_lt hi0
    omega

theorem items_update_succ {heap : ℕ → Element} {n : ℕ} (e : Element) :
    Lib.HeapOrder.items (Function.update heap n e) (n + 1) = e ::ₘ Lib.HeapOrder.items heap n := by
  rw [items_succ, Function.update_self, items_congr fun i hi => Function.update_of_ne hi.ne ..]

/-- The root is out of order at most with the nodes below it. -/
theorem sinking_update {heap : ℕ → Element} {n : ℕ} (ho : Ordered Element.rank heap (n + 1))
    (e : Element) : Sinking Element.rank (Function.update heap 0 e) n 0 := by
  constructor
  · intro i hi0 hi hp
    rw [Function.update_of_ne hp, Function.update_of_ne hi0.ne']
    exact ho i hi0 (by omega)
  · intro h
    exact absurd h (lt_irrefl 0)

/-- The last element takes the place of the root. -/
theorem items_update_root {heap : ℕ → Element} {n : ℕ} :
    heap 0 ::ₘ Lib.HeapOrder.items (Function.update heap 0 (heap n)) n =
      Lib.HeapOrder.items heap (n + 1) := by
  rw [← items_exchange (Nat.succ_pos n) (Nat.lt_succ_self n), items_succ, exchange_right,
    items_congr fun i hi => ?_]
  rw [exchange, Function.update_of_ne hi.ne]

variable {q q' : Queue} {op : Op} {out : Out} {ops : List Op} {log : List (Op × Out)}

theorem pqPush_spec (hq : Good q) (priority data : UInt64) :
    (q.size = q.capacity ∧ pqPush q priority data = some (.failed, q)) ∨
      ∃ q', q.size < q.capacity ∧ pqPush q priority data = some (.done, q') ∧ Good q' ∧
        q'.items = ⟨priority, data⟩ ::ₘ q.items := by
  unfold pqPush
  by_cases hfull : q.size ≥ q.capacity
  · exact .inl ⟨le_antisymm hq.size_le hfull, if_pos hfull⟩
  · have hlt : q.size < q.capacity := not_le.mp hfull
    have hsift := pqSiftUp_spec (rising_update hq.ordered ⟨priority, data⟩) (Nat.lt_succ_self q.size)
    refine .inr ⟨_, hlt, (if_neg hfull).trans (if_pos (hq.room_eq ▸ hlt)),
      ⟨hsift.1, hlt, hq.room_eq⟩, ?_⟩
    exact hsift.2.trans (items_update_succ _)

theorem pqPop_spec (hq : Good q) :
    (q.items = 0 ∧ pqPop q = (.failed, q)) ∨
      ∃ q', pqPop q = (.item (q.heap 0), q') ∧ Good q' ∧ IsLeast q (q.heap 0) ∧
        q.items = q.heap 0 ::ₘ q'.items := by
  unfold pqPop
  by_cases hzero : q.size = 0
  · exact .inl ⟨items_eq_zero hzero, if_pos hzero⟩
  · refine .inr ⟨_, if_neg hzero, ?_⟩
    obtain ⟨n, hn⟩ := Nat.exists_eq_add_one_of_ne_zero hzero
    have ho : Ordered Element.rank q.heap (n + 1) := hn ▸ hq.ordered
    have hle : n ≤ q.capacity := by
      have := hq.size_le
      omega
    have hitems : q.items = Lib.HeapOrder.items q.heap (n + 1) := by rw [Queue.items, hn]
    simp only [hn, Nat.add_sub_cancel]
    by_cases hpos : n > 0
    · have hsift := pqSiftDown_spec (sinking_update ho (q.heap n)) hpos
      rw [if_pos hpos]
      refine ⟨⟨hsift.1, hle, hq.room_eq⟩, isLeast_root hq.ordered hzero, ?_⟩
      rw [hitems, ← items_update_root, ← hsift.2]
      rfl
    · obtain rfl : n = 0 := by omega
      refine ⟨⟨fun i _ hi => absurd hi (Nat.not_lt_zero i), hle, hq.room_eq⟩,
        isLeast_root hq.ordered hzero, ?_⟩
      rw [hitems, items_succ]
      rfl

theorem pqHeapify_of_good (hq : Good q) (idx : ℕ) : pqHeapify q idx = q := by
  unfold pqHeapify
  by_cases hidx : idx ≥ q.size
  · exact if_pos hidx
  · rw [if_neg hidx, pqSiftDown_of_ordered hq.ordered,
      pqSiftUp_of_ordered hq.ordered (not_le.mp hidx)]

/-- Every call of a good queue does what it is to do and leaves a good queue, in which the elements
pushed are there and the elements popped are not. -/
theorem step_spec (hq : Good q) (op : Op) :
    ∃ out q', step q op = some (out, q') ∧ Meets q op out q' ∧ Good q' ∧
      q'.items + popped [(op, out)] = pushed [(op, out)] + q.items := by
  cases op with
  | push priority data =>
    rcases pqPush_spec hq priority data with ⟨hfull, heq⟩ | ⟨q', hlt, heq, hgood, hitems⟩
    · exact ⟨.failed, q, heq, .inl ⟨rfl, hfull, rfl⟩, hq, by simp [popped, pushed]⟩
    · exact ⟨.done, q', heq, .inr ⟨rfl, hlt, hitems⟩, hgood, by simp [popped, pushed, hitems]⟩
  | pop =>
    rcases pqPop_spec hq with ⟨hzero, heq⟩ | ⟨q', heq, hgood, hleast, hitems⟩
    · exact ⟨.failed, q, congrArg some heq, .inl ⟨rfl, hzero, rfl⟩, hq, by simp [popped, pushed]⟩
    · refine ⟨.item (q.heap 0), q', congrArg some heq, .inr ⟨_, rfl, hleast, ?_⟩, hgood, ?_⟩
      · rw [hitems, Multiset.erase_cons_head]
      · rw [hitems, add_comm]
        simp [popped, pushed]
  | peek =>
    refine ⟨pqPeek q, q, rfl, ⟨rfl, ?_⟩, hq, by simp [popped, pushed]⟩
    unfold pqPeek
    by_cases hzero : q.size = 0
    · exact .inl ⟨if_pos hzero, items_eq_zero hzero⟩
    · exact .inr ⟨_, if_neg hzero, isLeast_root hq.ordered hzero⟩
  | heapify idx =>
    have heq : pqHeapify q idx = q := pqHeapify_of_good hq idx
    refine ⟨.done, q, by rw [step, heq], rfl, hq, by simp [popped, pushed]⟩

/-! ## Whole runs -/

theorem pushed_cons (x : Op × Out) (log : List (Op × Out)) :
    pushed (x :: log) = pushed [x] + pushed log := by
  rcases x with ⟨_ | _ | _ | _, _ | _ | _⟩ <;> simp [pushed]

theorem popped_cons (x : Op × Out) (log : List (Op × Out)) :
    popped (x :: log) = popped [x] + popped log := by
  rcases x with ⟨_ | _ | _ | _, _ | _ | _⟩ <;> simp [popped]

theorem run_spec (hq : Good q) (ops : List Op) :
    ∃ log q', run q ops = some (log, q') ∧ Good q' ∧ q'.items + popped log = pushed log + q.items := by
  induction ops generalizing q with
  | nil => exact ⟨[], q, rfl, hq, by simp [popped, pushed]⟩
  | cons op ops ih =>
    obtain ⟨out, q₁, hstep, -, hgood₁, hitems₁⟩ := step_spec hq op
    obtain ⟨log, q₂, hrun, hgood₂, hitems₂⟩ := ih hgood₁
    refine ⟨(op, out) :: log, q₂, by simp [run, hstep, hrun], hgood₂, ?_⟩
    calc q₂.items + popped ((op, out) :: log)
        = (q₂.items + popped log) + popped [(op, out)] := by
          rw [popped_cons, add_comm (popped [(op, out)]), add_assoc]
      _ = pushed log + (q₁.items + popped [(op, out)]) := by rw [hitems₂, add_assoc]
      _ = pushed ((op, out) :: log) + q.items := by
          rw [hitems₁, pushed_cons (op, out) log, ← add_assoc, add_comm (pushed log)]

theorem conforms_of_good (hq : Good q) (hempty : q.items = 0) (ops : List Op) : Conforms q ops := by
  obtain ⟨log, q', hrun, hgood, hitems⟩ := run_spec hq ops
  refine ⟨log, q', hrun, hgood.ordered, by simpa [hempty] using hitems, fun op => ?_⟩
  obtain ⟨out, q'', hstep, hmeets, -, -⟩ := step_spec hgood op
  exact ⟨out, q'', hstep, hmeets⟩

theorem good_pqCreate {n : UInt64} (hn : n.toNat * elementSize < 2 ^ 64) : Good (pqCreate n) := by
  refine ⟨fun i _ hi => absurd hi (Nat.not_lt_zero i), Nat.zero_le _, ?_⟩
  unfold pqCreate
  dsimp only
  split_ifs
  · rfl
  · rw [Nat.mod_eq_of_lt hn, elementSize, Nat.mul_div_cancel _ (by decide)]

/-! ## Blocks that are too short -/

theorem room_lt_capacity {n : UInt64} (hn : 2 ^ 64 ≤ n.toNat * elementSize) :
    (pqCreate n).room < (pqCreate n).capacity := by
  have hne : n ≠ 0 := by
    rintro rfl
    simp at hn
  have hmod : n.toNat * elementSize % 2 ^ 64 < n.toNat * elementSize :=
    (Nat.mod_lt _ (Nat.two_pow_pos 64)).trans_le hn
  simp only [pqCreate, if_neg hne]
  exact Nat.div_lt_of_lt_mul (Nat.mul_comm _ _ ▸ hmod)

/-- More pushes than the block has room for write behind it. -/
theorem run_push_eq_none {q : Queue} (hcap : q.room < q.capacity) {es : List (UInt64 × UInt64)}
    (hsize : q.size ≤ q.room) (hlen : q.room < q.size + es.length) :
    run q (es.map fun e => .push e.1 e.2) = none := by
  induction es generalizing q with
  | nil => exact absurd hlen (by simpa using hsize)
  | cons e es ih =>
    have hfull : ¬ q.size ≥ q.capacity := by omega
    by_cases hroom : q.size < q.room
    · let q₁ : Queue := { q with
        heap := pqSiftUp (Function.update q.heap q.size ⟨e.1, e.2⟩) q.size, size := q.size + 1 }
      have hlen₁ : q₁.room < q₁.size + es.length := by
        rw [List.length_cons] at hlen
        change q.room < q.size + 1 + es.length
        omega
      have hstep : step q (.push e.1 e.2) = some (.done, q₁) := by
        rw [step, pqPush, if_neg hfull, if_pos hroom]
      have hih := ih (q := q₁) hcap hroom hlen₁
      simp [run, hstep, hih]
    · simp [run, step, pqPush, if_neg hfull, if_neg hroom]

/-- **The queue keeps its contract for every sequence of calls exactly if the size of its block, in
bytes, does not wrap around.** -/
theorem queueConforms_iff (n : UInt64) :
    (∀ ops, Conforms (pqCreate n) ops) ↔ n.toNat * elementSize < 2 ^ 64 := by
  constructor
  · intro h
    by_contra hn
    have hcap : (pqCreate n).room < (pqCreate n).capacity := room_lt_capacity (not_lt.mp hn)
    obtain ⟨log, q, hrun, -⟩ := h ((List.replicate ((pqCreate n).room + 1) (0, 0)).map
      fun e => .push e.1 e.2)
    rw [run_push_eq_none hcap (Nat.zero_le _) (by rw [List.length_replicate]; omega)] at hrun
    cases hrun
  · intro hn ops
    exact conforms_of_good (good_pqCreate hn) rfl ops

/-- A capacity of `2 ^ 60 + 1` gives a block of one element. -/
theorem not_conforms_two_pushes :
    ¬ Conforms (pqCreate 1152921504606846977) [.push 5 0, .push 3 0] := by
  have hroom : (pqCreate 1152921504606846977).room = 1 := by decide
  have hcap : (pqCreate 1152921504606846977).capacity = 1152921504606846977 := by decide
  rintro ⟨log, q, hrun, -⟩
  rw [show [Op.push 5 0, .push 3 0] = [(5, 0), (3, 0)].map fun e => Op.push e.1 e.2 from rfl,
    run_push_eq_none (by omega) (Nat.zero_le _) (by rw [hroom]; decide)] at hrun
  cases hrun

end SneppxAlg.PriorityQueue
