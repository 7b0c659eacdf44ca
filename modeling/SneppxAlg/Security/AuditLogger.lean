import SneppxAlg.Lib.Bytes
import SneppxAlg.Lib.GuardedRun

/-!
# The audit log

`security/ui/audit_logger.c`. Each entry carries a CRC over its other fields, and the log carries a
chain value that folds the CRCs of all entries in their order. `SNEPPX_audit_verify_chain` computes
both again. `SNEPPX_audit_log` and `SNEPPX_audit_clear` keep them (`Consistent`). Two operations do
not: `SNEPPX_audit_purge` drops entries and leaves the chain value (the helper
`audit_rebuild_chain` is not called), and `SNEPPX_audit_sign_entry` writes its signature over the
CRC. Runs in which they change nothing verify in every state (`run_verifies`).
-/

namespace SneppxAlg.Audit

open Lib.Bytes Lib.GuardedRun

/-! ## Checksums -/

def crcBit (crc : UInt32) : UInt32 := (crc >>> 1) ^^^ (0xEDB88320 &&& -(crc &&& 1))

/-- One byte: the inner loop, eight times. -/
def crcByte (crc : UInt32) (b : UInt8) : UInt32 := crcBit^[8] (crc ^^^ b.toUInt32)

/-- `audit_crc32`. -/
def auditCrc32 (data : List UInt8) : UInt32 := ~~~(data.foldl crcByte 0xFFFFFFFF)

/-! ## The log -/

/-- `SNEPPX_AUDIT_MAX_ENTRIES`. -/
def maxEntries : Nat := 1024

/-- `SNEPPX_AUDIT_DESC_LEN`. -/
def descLen : Nat := 256

structure AuditEntry where
  timestamp : UInt64
  eventType : Int32
  description : List UInt8
  relatedAddress : UInt64
  crc : UInt32
deriving DecidableEq

/-- `entries` holds the first `entry_count` entries. -/
structure AuditLogger where
  entries : List AuditEntry
  enabled : Bool
  chainCrc : UInt32
deriving DecidableEq

/-- The memory of an entry up to its `crc`. The four bytes of padding in front of `related_address`
are zero: the entries are zeroed by `init` and no operation writes there. -/
def AuditEntry.bytes (e : AuditEntry) : List UInt8 :=
  leBytes 8 e.timestamp.toNat ++ leBytes 4 e.eventType.toUInt32.toNat ++ e.description ++
    List.replicate 4 0 ++ leBytes 8 e.relatedAddress.toNat

def AuditEntry.checksum (e : AuditEntry) : UInt32 := auditCrc32 e.bytes

def link (chain crc : UInt32) : UInt32 := auditCrc32 (leBytes 4 chain.toNat) ^^^ crc

/-- `strncpy` of a text into a zeroed field of `n + 1` bytes; the last byte is never written. -/
def strncpyField (n : Nat) (text : List UInt8) : List UInt8 :=
  let copied := (text.takeWhile (· ≠ 0)).take n
  copied ++ List.replicate (n + 1 - copied.length) 0

/-- `SNEPPX_audit_init`. -/
def auditInit : AuditLogger := { entries := [], enabled := true, chainCrc := 0 }

/-- The entry that `SNEPPX_audit_log` stores. -/
def newEntry (now : UInt64) (eventType : Int32) (text : List UInt8) (relatedAddress : UInt64) :
    AuditEntry :=
  let e : AuditEntry :=
    { timestamp := now
      eventType := eventType
      description := strncpyField (descLen - 1) text
      relatedAddress := relatedAddress
      crc := 0 }
  { e with crc := e.checksum }

/-- `SNEPPX_audit_log`; `description` is `none` for a null pointer and `now` is the reading of the
clock. -/
def auditLog (a : AuditLogger) (now : UInt64) (eventType : Int32)
    (description : Option (List UInt8)) (relatedAddress : UInt64) : AuditLogger :=
  match description with
  | none => a
  | some text =>
    if ¬ a.enabled ∨ maxEntries ≤ a.entries.length then a
    else
      let e := newEntry now eventType text relatedAddress
      { a with entries := a.entries ++ [e], chainCrc := link a.chainCrc e.crc }

/-- `SNEPPX_audit_purge`: the entries that are kept move to the front. -/
def auditPurge (a : AuditLogger) (beforeTimestamp : UInt64) : AuditLogger :=
  { a with entries := a.entries.filter (fun e => beforeTimestamp ≤ e.timestamp) }

/-- The four-byte words of a key, xored. -/
def keyWord (key : Vector UInt8 32) : UInt32 :=
  key.toList.zipIdx.foldl (fun sig p => sig ^^^ (p.1.toUInt32 <<< (p.2 % 4 * 8).toUInt32)) 0

/-- `SNEPPX_audit_sign_entry`. -/
def auditSignEntry (a : AuditLogger) (index : Int) (key : Option (Vector UInt8 32)) :
    AuditLogger :=
  match key with
  | none => a
  | some key =>
    if index < 0 ∨ a.entries.length ≤ index then a
    else
      { a with
        entries := a.entries.modify index.toNat fun e => { e with crc := keyWord key ^^^ e.crc } }

/-- `SNEPPX_audit_clear`. -/
def auditClear (a : AuditLogger) : AuditLogger := { a with entries := [], chainCrc := 0 }

/-- The loop of `SNEPPX_audit_verify_chain`; `none` is the early return. -/
def verifyLoop : List AuditEntry → UInt32 → Option UInt32
  | [], chain => some chain
  | e :: es, chain => if e.checksum ≠ e.crc then none else verifyLoop es (link chain e.checksum)

/-- `SNEPPX_audit_verify_chain`. -/
def verifyChain (a : AuditLogger) : Nat :=
  match verifyLoop a.entries 0 with
  | none => 0
  | some chain => if chain = a.chainCrc then 1 else 0

/-! ## Runs -/

inductive Op where
  | log (now : UInt64) (eventType : Int32) (description : Option (List UInt8))
      (relatedAddress : UInt64)
  | purge (beforeTimestamp : UInt64)
  | signEntry (index : Int) (key : Option (Vector UInt8 32))
  | clear

def step (a : AuditLogger) : Op → AuditLogger
  | .log now eventType description relatedAddress =>
    auditLog a now eventType description relatedAddress
  | .purge beforeTimestamp => auditPurge a beforeTimestamp
  | .signEntry index key => auditSignEntry a index key
  | .clear => auditClear a

def run (a : AuditLogger) (ops : List Op) : AuditLogger := ops.foldl step a

/-- The checksums and the chain value fit the entries. -/
structure Consistent (a : AuditLogger) : Prop where
  checksums : ∀ e ∈ a.entries, e.crc = e.checksum
  chain : a.chainCrc = a.entries.foldl (fun chain e => link chain e.crc) 0

theorem verifyLoop_eq_some {es : List AuditEntry} {chain chain' : UInt32} :
    verifyLoop es chain = some chain' ↔
      (∀ e ∈ es, e.crc = e.checksum) ∧
        es.foldl (fun chain e => link chain e.crc) chain = chain' := by
  induction es generalizing chain with
  | nil => simp [verifyLoop]
  | cons e es ih =>
    by_cases he : e.crc = e.checksum
    · rw [verifyLoop, if_neg (by simp [he]), ih]
      simp [he]
    · rw [verifyLoop, if_pos (Ne.symm he)]
      simp [he]

/-- What a positive check says. -/
theorem verifyChain_eq_one {a : AuditLogger} : verifyChain a = 1 ↔ Consistent a := by
  constructor
  · intro h
    unfold verifyChain at h
    split at h
    · simp at h
    · next chain hloop =>
      obtain ⟨hsums, hfold⟩ := verifyLoop_eq_some.mp hloop
      split_ifs at h with hchain
      exact ⟨hsums, by rw [← hchain, hfold]⟩
  · intro h
    rw [verifyChain, verifyLoop_eq_some.mpr ⟨h.checksums, h.chain.symm⟩]
    exact if_pos rfl

theorem checksum_newEntry (now : UInt64) (eventType : Int32) (text : List UInt8)
    (relatedAddress : UInt64) :
    (newEntry now eventType text relatedAddress).crc =
      (newEntry now eventType text relatedAddress).checksum := rfl

theorem consistent_init : Consistent auditInit := ⟨by simp [auditInit], rfl⟩

theorem auditLog_consistent {a : AuditLogger} (h : Consistent a) (now : UInt64)
    (eventType : Int32) (description : Option (List UInt8)) (relatedAddress : UInt64) :
    Consistent (auditLog a now eventType description relatedAddress) := by
  unfold auditLog
  split
  · exact h
  · next text =>
    split_ifs
    · exact h
    · refine ⟨fun e he => ?_, by simp [← h.chain]⟩
      rcases List.mem_append.mp he with he | he
      · exact h.checksums e he
      · rw [List.mem_singleton.mp he]
        exact checksum_newEntry now eventType text relatedAddress

/-- The operations that leave the entries and their checksums as they are: a purge that drops no
entry, and a signature whose words cancel. -/
def Keeps (a : AuditLogger) : Op → Prop
  | .purge beforeTimestamp => ∀ e ∈ a.entries, beforeTimestamp ≤ e.timestamp
  | .signEntry index (some key) =>
    0 ≤ index → index < a.entries.length → keyWord key = 0
  | _ => True

theorem modify_id_of {α : Type*} {f : α → α} (hf : ∀ x, f x = x) (l : List α) (i : ℕ) :
    l.modify i f = l := by
  have hid : f = id := funext hf
  rw [hid, List.modify_id]

theorem step_consistent {a : AuditLogger} {op : Op} (h : Consistent a) (hk : Keeps a op) :
    Consistent (step a op) := by
  cases op with
  | log now eventType description relatedAddress => exact auditLog_consistent h _ _ _ _
  | purge beforeTimestamp =>
    have hfilter : a.entries.filter (fun e => beforeTimestamp ≤ e.timestamp) = a.entries :=
      List.filter_eq_self.mpr (by simpa [Keeps] using hk)
    simp only [step, auditPurge, hfilter]
    exact h
  | signEntry index key =>
    cases key with
    | none => exact h
    | some key =>
      simp only [step, auditSignEntry]
      split_ifs with hindex
      · exact h
      · obtain ⟨h0, h1⟩ := not_or.mp hindex
        have hword : keyWord key = 0 := hk (not_lt.mp h0) (not_le.mp h1)
        rw [modify_id_of (fun e => by simp [hword])]
        exact h
  | clear => exact ⟨by simp [step, auditClear], rfl⟩

/-- In a run of such operations the check succeeds in every state. -/
theorem run_verifies (ops : List Op) (hk : Guarded step Keeps auditInit ops) :
    ∀ pre post, ops = pre ++ post → verifyChain (run auditInit pre) = 1 := by
  rintro pre post rfl
  have hpre := hk.of_append
  exact verifyChain_eq_one.mpr (hpre.invariant (fun _ _ => step_consistent) consistent_init)

/-- Two events; the first is logged at time 5 and the second at time 9. -/
def twoEvents : List Op :=
  [.log 5 0 (some [97]) 0, .log 9 1 (some [98]) 16]

theorem run_verifies_twoEvents :
    Guarded step Keeps auditInit (twoEvents ++ [.purge 5]) ∧
      ∀ pre post, twoEvents ++ [.purge 5] = pre ++ post →
        verifyChain (run auditInit pre) = 1 := by
  have h : Guarded step Keeps auditInit (twoEvents ++ [.purge 5]) :=
    ⟨trivial, trivial, by simp [step, auditLog, auditInit, newEntry, maxEntries, Keeps], trivial⟩
  exact ⟨h, run_verifies _ h⟩

/-- A purge that drops the first event leaves the chain value of both. -/
theorem not_verifies_purge : verifyChain (run auditInit (twoEvents ++ [.purge 7])) ≠ 1 := by
  decide +kernel

end SneppxAlg.Audit
