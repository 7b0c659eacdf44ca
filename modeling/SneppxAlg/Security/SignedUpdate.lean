import Mathlib.Data.Prod.Lex
import SneppxAlg.Lib.Bytes
import SneppxAlg.Lib.GuardedRun

/-!
# Signed updates

`security/updates/signed_update.c`: a verifier with a current and a minimal version. `check` should
accept authentic updates only, and `apply` should move the current version forward to accepted ones
only.

`apply` tests the version and nothing else, and `check` compares the stored hash with the hash of
the version, the chunk count and the timestamp: it neither looks at the signature nor at the
chunks. The versions are safe: no step moves the current version back or below the minimum, unless
it is set from outside. `run_protected_iff` says which runs keep the whole promise.

The hash (BLAKE3) and the signature scheme (Ed25519) are variables; nothing is assumed about them.
-/

namespace SneppxAlg.Updates

open Lib.Bytes Lib.GuardedRun

abbrev Hash := Vector UInt8 32

abbrev Signature := Vector UInt8 64

structure Version where
  major : UInt32
  minor : UInt32
  patch : UInt32
deriving DecidableEq

structure UpdateChunk where
  chunkIndex : UInt32
  chunkHash : Hash
  chunkSize : UInt32
deriving DecidableEq

/-- `SNEPPX_MAX_UPDATE_CHUNKS`. -/
abbrev maxUpdateChunks : Nat := 256

structure SignedUpdate where
  version : Version
  signature : Signature
  updateHash : Hash
  chunks : Vector UpdateChunk maxUpdateChunks
  chunkCount : Int32
  timestamp : UInt64

/-- The verifier, with the history of applied updates, which is a global of the file. -/
structure UpdateVerifier where
  current : Version
  minAllowed : Version
  rollbackProtectionEnabled : Bool
  verificationEnabled : Bool
  history : List (Version × UInt64)

/-- `SNEPPX_UPDATE_HISTORY_MAX`. -/
def historyMax : Nat := 10

/-- `SNEPPX_update_verifier_init`. -/
def verifierInit : UpdateVerifier :=
  { current := ⟨1, 0, 0⟩
    minAllowed := ⟨1, 0, 0⟩
    rollbackProtectionEnabled := true
    verificationEnabled := true
    history := [] }

/-! ## Versions -/

/-- The three comparisons of `rollback_check` and `check`. -/
def Version.older (a b : Version) : Bool :=
  a.major < b.major || (a.major == b.major && a.minor < b.minor) ||
    (a.major == b.major && a.minor == b.minor && a.patch < b.patch)

/-- The place of a version in the lexicographic order. -/
def Version.place (v : Version) : ℕ ×ₗ ℕ ×ₗ ℕ :=
  toLex (v.major.toNat, toLex (v.minor.toNat, v.patch.toNat))

theorem older_iff (a b : Version) : a.older b = true ↔ a.place < b.place := by
  simp only [Version.older, Version.place, Prod.Lex.toLex_lt_toLex, Bool.or_eq_true,
    Bool.and_eq_true, decide_eq_true_eq, beq_iff_eq, UInt32.lt_iff_toNat_lt, UInt32.toNat_inj]
  tauto

theorem not_older_iff (a b : Version) : a.older b = false ↔ b.place ≤ a.place := by
  rw [← not_lt, ← older_iff, Bool.not_eq_true]

section

variable (blake3 : List UInt8 → Hash)

/-! ## Operations -/

/-- `SNEPPX_update_verifier_rollback_check`. -/
def rollbackCheck (uv : UpdateVerifier) (target : Version) : Int :=
  if ¬ uv.rollbackProtectionEnabled then 0
  else if target.older uv.current then 1
  else if target.older uv.minAllowed then 1
  else 0

/-- What `check` and `sign_update` hash: version, chunk count and timestamp. -/
def SignedUpdate.message (u : SignedUpdate) : List UInt8 :=
  leBytes 4 u.version.major.toNat ++ leBytes 4 u.version.minor.toNat ++
    leBytes 4 u.version.patch.toNat ++ leBytes 4 u.chunkCount.toUInt32.toNat ++
    leBytes 8 u.timestamp.toNat

/-- `SNEPPX_update_verifier_check`. -/
def check (uv : UpdateVerifier) (u : SignedUpdate) : Bool :=
  if ¬ uv.verificationEnabled then true
  else if uv.rollbackProtectionEnabled ∧
      (rollbackCheck uv u.version ≠ 0 ∨ u.version.older uv.minAllowed) then false
  else blake3 u.message == u.updateHash

/-- `SNEPPX_update_verifier_apply`; `now` is the reading of the clock. -/
def apply (uv : UpdateVerifier) (u : SignedUpdate) (now : UInt64) : UpdateVerifier :=
  if rollbackCheck uv u.version ≠ 0 then uv
  else
    { uv with
      current := u.version
      history :=
        if uv.history.length < historyMax then uv.history ++ [(u.version, now)]
        else uv.history }

inductive Op where
  | setMinVersion (v : Version)
  | setCurrentVersion (v : Version)
  | check (u : SignedUpdate)
  | apply (u : SignedUpdate) (now : UInt64)
  | rollbackCheck (target : Version)

def step (uv : UpdateVerifier) : Op → UpdateVerifier
  | .setMinVersion v => { uv with minAllowed := v }
  | .setCurrentVersion v => { uv with current := v }
  | .check _ => uv
  | .apply u now => apply uv u now
  | .rollbackCheck _ => uv

/-! ## The promise -/

variable (ed25519Verify : Vector UInt8 32 → Hash → Signature → Bool) (publicKey : Vector UInt8 32)

/-- `SNEPPX_update_verifier_verify_signature` returns 0. -/
def verifySignature (u : SignedUpdate) : Prop :=
  ed25519Verify publicKey u.updateHash u.signature = true

def SignedUpdate.chunkData (u : SignedUpdate) : List UpdateChunk :=
  u.chunks.toList.take u.chunkCount.toNatClampNeg

/-- The hashed message determines the version, the timestamp and the chunk data. -/
def Covered (u : SignedUpdate) : Prop :=
  ∀ u' : SignedUpdate, u'.message = u.message →
    u'.version = u.version ∧ u'.timestamp = u.timestamp ∧ u'.chunkData = u.chunkData

/-- The signature verifies for a hash that covers version, timestamp and chunk data. -/
structure Authentic (u : SignedUpdate) : Prop where
  signed : verifySignature ed25519Verify publicKey u
  hashed : u.updateHash = blake3 u.message
  covered : Covered u

/-- What one step has to respect. -/
structure Protected (uv : UpdateVerifier) (op : Op) : Prop where
  applied : (step uv op).current ≠ uv.current →
    ∃ u now, op = .apply u now ∧ check blake3 uv u = true
  accepted : ∀ u, op = .check u → check blake3 uv u = true →
    Authentic blake3 ed25519Verify publicKey u
  forward : uv.current.place ≤ (step uv op).current.place
  above : (step uv op).current ≠ uv.current →
    (step uv op).minAllowed.place ≤ (step uv op).current.place

/-- The steps that keep the promise: only updates with their own hash are applied, what passes
`check` is signed and has no chunks, and the current version is not set from outside. -/
def Keeps (uv : UpdateVerifier) : Op → Prop
  | .setMinVersion _ => True
  | .setCurrentVersion v => v = uv.current
  | .check u => rollbackCheck uv u.version ≠ 0 ∨ u.updateHash ≠ blake3 u.message ∨
      (verifySignature ed25519Verify publicKey u ∧ u.chunkCount ≤ 0)
  | .apply u _ => rollbackCheck uv u.version ≠ 0 ∨ u.version = uv.current ∨
      u.updateHash = blake3 u.message
  | .rollbackCheck _ => True

/-! ## When the promise is kept -/

/-- Verification and rollback protection are on. -/
structure Enabled (uv : UpdateVerifier) : Prop where
  rollback : uv.rollbackProtectionEnabled = true
  verification : uv.verificationEnabled = true

theorem step_enabled {uv : UpdateVerifier} (op : Op) (h : Enabled uv) : Enabled (step uv op) := by
  cases op with
  | apply u now =>
    simp only [step, apply]
    split_ifs <;> exact ⟨h.rollback, h.verification⟩
  | setMinVersion v => exact ⟨h.rollback, h.verification⟩
  | setCurrentVersion v => exact ⟨h.rollback, h.verification⟩
  | check u => exact h
  | rollbackCheck target => exact h

theorem enabled_init : Enabled verifierInit := ⟨rfl, rfl⟩

theorem rollbackCheck_eq_zero {uv : UpdateVerifier} (h : Enabled uv) (target : Version) :
    rollbackCheck uv target = 0 ↔
      uv.current.place ≤ target.place ∧ uv.minAllowed.place ≤ target.place := by
  rw [← not_older_iff, ← not_older_iff]
  unfold rollbackCheck
  rw [if_neg (by simp [h.rollback])]
  cases target.older uv.current <;> cases target.older uv.minAllowed <;> simp

/-- What `check` looks at. -/
theorem check_iff {uv : UpdateVerifier} (h : Enabled uv) (u : SignedUpdate) :
    check blake3 uv u = true ↔
      rollbackCheck uv u.version = 0 ∧ u.updateHash = blake3 u.message := by
  unfold check
  rw [if_neg (by simp [h.verification])]
  by_cases hroll : rollbackCheck uv u.version = 0
  · have hmin : u.version.older uv.minAllowed = false :=
      (not_older_iff _ _).mpr ((rollbackCheck_eq_zero h _).mp hroll).2
    rw [if_neg (by simp [hroll, hmin]), beq_iff_eq, eq_comm]
    simp [hroll]
  · simp [h.rollback, hroll]

theorem leBytes_uint32 {a b : UInt32} (h : leBytes 4 a.toNat = leBytes 4 b.toNat) : a = b := by
  have hmod : a.toNat % 2 ^ 32 = b.toNat % 2 ^ 32 := leBytes_inj h
  rw [Nat.mod_eq_of_lt a.toNat_lt, Nat.mod_eq_of_lt b.toNat_lt] at hmod
  exact UInt32.toNat_inj.mp hmod

theorem message_inj {u u' : SignedUpdate} (h : u'.message = u.message) :
    u'.version = u.version ∧ u'.chunkCount = u.chunkCount ∧ u'.timestamp = u.timestamp := by
  obtain ⟨h, htime⟩ := List.append_inj h (by simp)
  obtain ⟨h, hcount⟩ := List.append_inj h (by simp)
  obtain ⟨h, hpatch⟩ := List.append_inj h (by simp)
  obtain ⟨hmajor, hminor⟩ := List.append_inj h (by simp)
  have htime : u'.timestamp.toNat % 2 ^ 64 = u.timestamp.toNat % 2 ^ 64 := leBytes_inj htime
  rw [Nat.mod_eq_of_lt (UInt64.toNat_lt _), Nat.mod_eq_of_lt (UInt64.toNat_lt _)] at htime
  refine ⟨?_, Int32.toBitVec_inj.mp (congrArg UInt32.toBitVec (leBytes_uint32 hcount)), UInt64.toNat_inj.mp htime⟩
  have hmajor := leBytes_uint32 hmajor
  have hminor := leBytes_uint32 hminor
  have hpatch := leBytes_uint32 hpatch
  cases hv : u.version
  cases hv' : u'.version
  simp_all

/-- The update with another first chunk. -/
def SignedUpdate.tamper (u : SignedUpdate) : SignedUpdate :=
  { u with chunks := u.chunks.set 0 { u.chunks[0] with chunkSize := u.chunks[0].chunkSize + 1 } }

theorem toNatClampNeg_eq_zero {n : Int32} : n.toNatClampNeg = 0 ↔ n ≤ 0 := by
  rw [Int32.le_iff_toInt_le, Int32.toNatClampNeg, Int.toNat_eq_zero]
  rfl

theorem chunkData_tamper {u : SignedUpdate} (h : ¬ u.chunkCount ≤ 0) :
    u.tamper.chunkData ≠ u.chunkData := by
  intro heq
  have hcount : 0 < u.chunkCount.toNatClampNeg :=
    Nat.pos_of_ne_zero fun hzero => h (toNatClampNeg_eq_zero.mp hzero)
  have hhead := congrArg (fun l => l[0]?) heq
  simp only [SignedUpdate.chunkData, SignedUpdate.tamper, List.getElem?_take, hcount, if_true,
    Vector.getElem?_toList, Vector.getElem?_set_self (by decide : 0 < maxUpdateChunks),
    Vector.getElem?_eq_getElem (by decide : 0 < maxUpdateChunks), Option.some.injEq] at hhead
  have hsize := congrArg UpdateChunk.chunkSize hhead
  simp at hsize

/-- The message covers an update exactly if the update has no chunks. -/
theorem covered_iff (u : SignedUpdate) : Covered u ↔ u.chunkCount ≤ 0 := by
  constructor
  · intro h
    by_contra hcount
    exact chunkData_tamper hcount (h u.tamper rfl).2.2
  · intro h u' hmsg
    obtain ⟨hversion, hcount, htime⟩ := message_inj hmsg
    refine ⟨hversion, htime, ?_⟩
    have hzero : u.chunkCount.toNatClampNeg = 0 := toNatClampNeg_eq_zero.mpr h
    simp [SignedUpdate.chunkData, hcount, hzero]

/-- One step keeps the promise exactly if it is one of those. -/
theorem protected_iff {uv : UpdateVerifier} (h : Enabled uv) (op : Op) :
    Protected blake3 ed25519Verify publicKey uv op ↔
      Keeps blake3 ed25519Verify publicKey uv op := by
  cases op with
  | setMinVersion v =>
    refine iff_of_true ⟨fun hne => absurd rfl hne, ?_, le_rfl, fun hne => absurd rfl hne⟩ trivial
    intro u heq
    cases heq
  | rollbackCheck target =>
    refine iff_of_true ⟨fun hne => absurd rfl hne, ?_, le_rfl, fun hne => absurd rfl hne⟩ trivial
    intro u heq
    cases heq
  | setCurrentVersion v =>
    constructor
    · intro hp
      by_contra hne
      obtain ⟨u, now, heq, -⟩ := hp.applied hne
      cases heq
    · intro hv
      have hsame : (step uv (.setCurrentVersion v)).current = uv.current := hv
      refine ⟨fun hne => absurd hsame hne, ?_, hsame ▸ le_rfl, fun hne => absurd hsame hne⟩
      intro u heq
      cases heq
  | check u =>
    have hcheck := check_iff blake3 h u
    constructor
    · intro hp
      by_cases hroll : rollbackCheck uv u.version = 0
      · by_cases hhash : u.updateHash = blake3 u.message
        · have hauth := hp.accepted u rfl (hcheck.mpr ⟨hroll, hhash⟩)
          exact Or.inr (Or.inr ⟨hauth.signed, (covered_iff u).mp hauth.covered⟩)
        · exact Or.inr (Or.inl hhash)
      · exact Or.inl hroll
    · intro hk
      refine ⟨fun hne => absurd rfl hne, ?_, le_rfl, fun hne => absurd rfl hne⟩
      intro u' heq haccept
      cases heq
      obtain ⟨hroll, hhash⟩ := hcheck.mp haccept
      rcases hk with hk | hk | ⟨hsigned, hcount⟩
      · exact absurd hroll hk
      · exact absurd hhash hk
      · exact ⟨hsigned, hhash, (covered_iff u).mpr hcount⟩
  | apply u now =>
    have hcheck := check_iff blake3 h u
    by_cases hroll : rollbackCheck uv u.version = 0
    · have hstep : (step uv (.apply u now)).current = u.version := by simp [step, apply, hroll]
      have hmin : (step uv (.apply u now)).minAllowed = uv.minAllowed := by
        simp [step, apply, hroll]
      obtain ⟨hforward, habove⟩ := (rollbackCheck_eq_zero h u.version).mp hroll
      constructor
      · intro hp
        by_cases hsame : u.version = uv.current
        · exact Or.inr (Or.inl hsame)
        · obtain ⟨u', now', heq, haccept⟩ := hp.applied (by rw [hstep]; exact hsame)
          cases heq
          exact Or.inr (Or.inr (hcheck.mp haccept).2)
      · intro hk
        refine ⟨fun hne => ⟨u, now, rfl, ?_⟩, ?_, by rw [hstep]; exact hforward,
          fun _ => by rw [hstep, hmin]; exact habove⟩
        · rcases hk with hk | hk | hk
          · exact absurd hroll hk
          · exact absurd (hstep.trans hk) hne
          · exact hcheck.mpr ⟨hroll, hk⟩
        · intro u' heq
          cases heq
    · have hstep : step uv (.apply u now) = uv := by simp [step, apply, hroll]
      refine iff_of_true ⟨?_, ?_, by rw [hstep], ?_⟩ (Or.inl hroll)
      · intro hne
        exact absurd (by rw [hstep]) hne
      · intro u' heq
        cases heq
      · intro hne
        exact absurd (by rw [hstep]) hne

/-- A run keeps the promise in all its steps exactly if it is made of those. -/
theorem run_protected_iff (ops : List Op) :
    Guarded step (Protected blake3 ed25519Verify publicKey) verifierInit ops ↔
      Guarded step (Keeps blake3 ed25519Verify publicKey) verifierInit ops :=
  guarded_congr (fun _ op => step_enabled op)
    (fun _ op h => protected_iff blake3 ed25519Verify publicKey h op) enabled_init

/-- An update to version 2.0.0 with one chunk and with its own hash. -/
def oneChunk : SignedUpdate :=
  let u : SignedUpdate :=
    { version := ⟨2, 0, 0⟩
      signature := Vector.replicate 64 0
      updateHash := Vector.replicate 32 0
      chunks := Vector.replicate maxUpdateChunks ⟨0, Vector.replicate 32 0, 16⟩
      chunkCount := 1
      timestamp := 1000 }
  { u with updateHash := blake3 u.message }

end

/-- `check` accepts an update whose chunks the hash does not cover, for every hash function and
every signature scheme. -/
theorem not_protected_oneChunk :
    ¬ ∃ blake3 ed25519Verify publicKey,
      Guarded step (Protected blake3 ed25519Verify publicKey) verifierInit
        [.check (oneChunk blake3)] := by
  rintro ⟨blake3, ed25519Verify, publicKey, h⟩
  have hkeeps := (protected_iff blake3 ed25519Verify publicKey enabled_init _).mp h.1
  rcases hkeeps with hroll | hhash | ⟨-, hcount⟩
  · exact hroll rfl
  · exact hhash rfl
  · have hone : (oneChunk blake3).chunkCount = 1 := rfl
    rw [hone] at hcount
    exact absurd hcount (by decide)

end SneppxAlg.Updates
