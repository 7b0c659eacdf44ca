import SneppxAlg.Lib.GuardedRun
import SneppxAlg.Security.KeyVault

/-!
# The lock of a vault

The lock flag belongs to the vault, the master key to the process. A vault that has been unlocked
with a key and locked again should open for that key only. Two calls break this: `unlock` with a
null key opens any vault, and `init` of any vault forgets the master key, so that the next key
given is taken for it.

`Keeps` excludes the two: no `init` while a master key is set, and no `unlock` of a locked vault
with a null key while one is set. In every run of such calls the locked vault stays `Sealed` until
its key is presented (`run_lockHolds`).
-/

namespace SneppxAlg.Vault

open Lib.GuardedRun

/-- A vault that was unlocked with a master key and then locked serves a key only after an `unlock`
with the same master key. -/
def LockHolds (log : List Entry) : Prop :=
  ∀ (v : VaultId) (m : KeyData) (l₁ l₂ l₃ l₄ : List Entry) (e₁ e₂ e₃ : Entry)
    (keyId : Option KeyId) (keyOut : Bool),
    log = l₁ ++ e₁ :: (l₂ ++ e₂ :: (l₃ ++ e₃ :: l₄)) →
    e₁.call = .unlock (some v) (some m) → e₁.result.ret = 0 →
    e₂.call = .lock (some v) →
    e₃.call = .getKey (some v) keyId keyOut → e₃.result.ret = 0 →
    ∃ e ∈ l₃, e.call = .unlock (some v) (some m) ∧ e.result.ret = 0

/-- The calls that neither forget a master key nor go around it. -/
def Keeps (s : State) : Call → Prop
  | .init (some _) => s.globals.masterKeySet = false
  | .unlock (some v) none => s.globals.masterKeySet = false ∨ (s.vaults v).isLocked = false
  | _ => True

/-- Every call of a run is such a call, in the state in which it is made. -/
def AllKeep (s : State) (calls : List (Call × Env)) : Prop :=
  Guarded after (fun s c => Keeps s c.1) s calls

/-- The stored master key is `m`. -/
def Known (s : State) (m : KeyData) : Prop :=
  s.globals.masterKeySet = true ∧ s.globals.masterKeyHash = m

/-- `v` is locked and only `m` opens it. -/
def Sealed (s : State) (v : VaultId) (m : KeyData) : Prop :=
  Known s m ∧ (s.vaults v).isLocked = true

section

variable {s : State} {v : VaultId} {m : KeyData} {env : Env} {call : Call}

theorem masterKeyDiffers_eq_false {g : Globals} {key : KeyData} :
    masterKeyDiffers g key = false ↔ key = g.masterKeyHash := by
  have hlen : key.toList.length = g.masterKeyHash.toList.length := by simp
  simp only [masterKeyDiffers, bne_eq_false_iff_eq]
  rw [Lib.Bytes.foldl_or_xor_eq_zero hlen]
  simp [Vector.toList_inj]

/-- What `unlock` does, by the key it is given. -/
theorem unlock_cases (s : State) (v : VaultId) (key : KeyData) :
    (s.globals.masterKeySet = false ∧ Known (unlock s v (some key)).1 key) ∨
    (Known s key ∧ unlock s v (some key) = (setLocked s v false, .ok)) ∨
    (s.globals.masterKeySet = true ∧ key ≠ s.globals.masterKeyHash ∧
      unlock s v (some key) = (s, .error)) := by
  cases hset : s.globals.masterKeySet with
  | false => exact Or.inl ⟨rfl, by simp [unlock, hset, Known, setLocked, State.put]⟩
  | true =>
    cases hd : masterKeyDiffers s.globals key with
    | false =>
      have hkey := masterKeyDiffers_eq_false.mp hd
      exact Or.inr (Or.inl ⟨⟨hset, hkey.symm⟩, by simp [unlock, hset, hd]⟩)
    | true =>
      refine Or.inr (Or.inr ⟨rfl, fun hkey => ?_, by simp [unlock, hset, hd]⟩)
      rw [masterKeyDiffers_eq_false.mpr hkey] at hd
      simp at hd

theorem known_of_unlock (h : (unlock s v (some m)).2.ret = 0) : Known (unlock s v (some m)).1 m := by
  rcases unlock_cases s v m with ⟨-, hk⟩ | ⟨hk, heq⟩ | ⟨-, -, heq⟩
  · exact hk
  · rw [heq]
    exact hk
  · rw [heq] at h
    simp [Result.error] at h

theorem onKey_isLocked (vault : KeyVault) (keyId : KeyId) (f : VaultKey → VaultKey × Result) :
    (vault.onKey keyId f).1.isLocked = vault.isLocked := by
  unfold KeyVault.onKey
  split_ifs with h <;> simp [h]

theorem onKey_of_locked {vault : KeyVault} (h : vault.isLocked = true) (keyId : KeyId)
    (f : VaultKey → VaultKey × Result) : vault.onKey keyId f = (vault, .error) := by
  simp [KeyVault.onKey, h]

theorem generateKey_isLocked (vault : KeyVault) (env : Env) (ttlSeconds : UInt64) :
    (generateKey vault env ttlSeconds).1.isLocked = vault.isLocked := by
  unfold generateKey
  split_ifs <;> rfl

theorem isLocked_put (s : State) (w v : VaultId) {vault : KeyVault}
    (h : vault.isLocked = (s.vaults w).isLocked) :
    ((s.put w vault).vaults v).isLocked = (s.vaults v).isLocked := by
  by_cases hv : v = w
  · subst hv
    simp [State.put, h]
  · simp [State.put, hv]

/-- Storing the vault of an operation that leaves the lock alone keeps a sealed vault sealed. -/
theorem Sealed.after (h : Sealed s v m) {w : VaultId} {r : KeyVault × Result}
    (hr : r.1.isLocked = (s.vaults w).isLocked) : Sealed (s.after w r).1 v m :=
  ⟨h.1, (isLocked_put s w v hr).trans h.2⟩

theorem isLocked_setLocked (s : State) (w v : VaultId) (locked : Bool) :
    ((setLocked s w locked).vaults v).isLocked =
      if v = w then locked else (s.vaults v).isLocked := by
  by_cases hv : v = w
  · subst hv
    simp [setLocked, State.put]
  · simp [setLocked, State.put, hv]

/-- A known master key is never changed. -/
theorem unlock_known (h : Known s m) (w : VaultId) (key : Option KeyData) :
    Known (unlock s w key).1 m := by
  cases key with
  | none => exact h
  | some key =>
    rcases unlock_cases s w key with ⟨hset, -⟩ | ⟨-, heq⟩ | ⟨-, -, heq⟩
    · rw [h.1] at hset
      simp at hset
    · rw [heq]
      exact h
    · rw [heq]
      exact h

theorem step_known (h : Known s m) (hc : Keeps s call) : Known (step s env call).1 m := by
  cases call with
  | init vault =>
    cases vault with
    | none => exact h
    | some w => exact absurd (h.1.symm.trans hc) (by simp)
  | generateKey vault keyId ttl => cases vault <;> cases keyId <;> exact h
  | getKey vault keyId keyOut => cases vault <;> cases keyId <;> cases keyOut <;> exact h
  | rotateKey vault keyId => cases vault <;> cases keyId <;> exact h
  | revokeKey vault keyId => cases vault <;> cases keyId <;> exact h
  | lock vault => cases vault <;> exact h
  | unlock vault key =>
    cases vault with
    | none => exact h
    | some w => exact unlock_known h w key
  | setAutoRotateThreshold n =>
    show Known (setAutoRotateThreshold s n).1 m
    unfold setAutoRotateThreshold
    split_ifs <;> exact h

theorem unlock_sealed (h : Sealed s v m) (w : VaultId) (key : Option KeyData)
    (hc : Keeps s (.unlock (some w) key)) :
    Sealed (unlock s w key).1 v m ∨
      (w = v ∧ key = some m ∧ (unlock s w key).2.ret = 0) := by
  have hknown : Known (unlock s w key).1 m := unlock_known h.1 w key
  cases key with
  | none =>
    refine Or.inl ⟨hknown, ?_⟩
    rcases hc with hset | hopen
    · exact absurd (h.1.1.symm.trans hset) (by simp)
    · have hne : v ≠ w := by
        rintro rfl
        exact absurd (h.2.symm.trans hopen) (by simp)
      exact (isLocked_setLocked s w v false).trans (by rw [if_neg hne, h.2])
  | some key =>
    rcases unlock_cases s w key with ⟨hset, -⟩ | ⟨hk, heq⟩ | ⟨-, -, heq⟩
    · exact absurd (h.1.1.symm.trans hset) (by simp)
    · have hkey : key = m := hk.2.symm.trans h.1.2
      by_cases hw : v = w
      · exact Or.inr ⟨hw.symm, by rw [hkey], by rw [heq]; rfl⟩
      · refine Or.inl ⟨hknown, ?_⟩
        rw [heq, isLocked_setLocked, if_neg hw, h.2]
    · rw [heq]
      exact Or.inl h

/-- A sealed vault stays sealed until its key is presented. -/
theorem step_sealed (h : Sealed s v m) (env : Env) (hc : Keeps s call) :
    Sealed (step s env call).1 v m ∨
      (call = .unlock (some v) (some m) ∧ (step s env call).2.ret = 0) := by
  cases call with
  | init vault =>
    cases vault with
    | none => exact Or.inl h
    | some w => exact absurd (h.1.1.symm.trans hc) (by simp)
  | generateKey vault keyId ttl =>
    cases vault <;> cases keyId <;>
      first | exact Or.inl h | exact Or.inl (h.after (generateKey_isLocked _ _ _))
  | getKey vault keyId keyOut =>
    cases vault <;> cases keyId <;> cases keyOut <;>
      first | exact Or.inl h | exact Or.inl (h.after (onKey_isLocked _ _ _))
  | rotateKey vault keyId =>
    cases vault <;> cases keyId <;>
      first | exact Or.inl h | exact Or.inl (h.after (onKey_isLocked _ _ _))
  | revokeKey vault keyId =>
    cases vault <;> cases keyId <;>
      first | exact Or.inl h | exact Or.inl (h.after (onKey_isLocked _ _ _))
  | lock vault =>
    cases vault with
    | none => exact Or.inl h
    | some w =>
      refine Or.inl ⟨h.1, (isLocked_setLocked s w v true).trans ?_⟩
      rw [h.2, ite_self]
  | unlock vault key =>
    cases vault with
    | none => exact Or.inl h
    | some w =>
      rcases unlock_sealed h w key hc with hs | ⟨rfl, rfl, hret⟩
      · exact Or.inl hs
      · exact Or.inr ⟨rfl, hret⟩
  | setAutoRotateThreshold n =>
    left
    show Sealed (setAutoRotateThreshold s n).1 v m
    unfold setAutoRotateThreshold
    split_ifs <;> exact h

theorem getKey_sealed (h : Sealed s v m) (env : Env) (keyId : Option KeyId) (keyOut : Bool) :
    (step s env (.getKey (some v) keyId keyOut)).2.ret ≠ 0 := by
  cases keyId <;> cases keyOut <;>
    simp [step, State.after, getKey, onKey_of_locked h.2, Result.error]

theorem sealed_of_lock (h : Known s m) (env : Env) (v : VaultId) :
    Sealed (step s env (.lock (some v))).1 v m :=
  ⟨h, (isLocked_setLocked s v v true).trans (if_pos rfl)⟩

/-! ## Runs -/

theorem run_append (s : State) (a b : List (Call × Env)) :
    run s (a ++ b) = ((run (run s a).1 b).1, (run s a).2 ++ (run (run s a).1 b).2) := by
  induction a generalizing s with
  | nil => rfl
  | cons c a ih => simp [run, ih]

theorem run_fst (s : State) (calls : List (Call × Env)) :
    (run s calls).1 = calls.foldl after s := by
  induction calls generalizing s with
  | nil => rfl
  | cons c calls ih => exact ih _

theorem allKeep_append {a b : List (Call × Env)} :
    AllKeep s (a ++ b) ↔ AllKeep s a ∧ AllKeep (run s a).1 b := by
  rw [run_fst]
  exact guarded_append

/-- A log splits where the calls split. -/
theorem run_eq_append {calls : List (Call × Env)} {l₁ l₂ : List Entry} {e : Entry}
    (h : (run s calls).2 = l₁ ++ e :: l₂) :
    ∃ a b, calls = a ++ (e.call, e.env) :: b ∧ (run s a).2 = l₁ ∧
      (step (run s a).1 e.env e.call).2 = e.result ∧
      (run (step (run s a).1 e.env e.call).1 b).2 = l₂ := by
  induction l₁ generalizing s calls with
  | nil =>
    obtain _ | ⟨⟨call, env⟩, calls⟩ := calls
    · simp [run] at h
    · simp only [run, List.nil_append, List.cons.injEq] at h
      obtain ⟨rfl, rfl⟩ := h
      exact ⟨[], calls, rfl, rfl, rfl, rfl⟩
  | cons d l₁ ih =>
    obtain _ | ⟨⟨call, env⟩, calls⟩ := calls
    · simp [run] at h
    · simp only [run, List.cons_append, List.cons.injEq] at h
      obtain ⟨rfl, hrest⟩ := h
      obtain ⟨a, b, rfl, h1, h2, h3⟩ := ih hrest
      exact ⟨(call, env) :: a, b, rfl, by simp [run, h1], h2, h3⟩

theorem run_known (h : Known s m) {calls : List (Call × Env)} (hc : AllKeep s calls) :
    Known (run s calls).1 m := by
  rw [run_fst]
  exact hc.invariant (fun _ _ => step_known) h

/-- Either the key of a sealed vault is presented during a run, or the vault is sealed after it. -/
theorem run_sealed (h : Sealed s v m) {calls : List (Call × Env)} (hc : AllKeep s calls) :
    Sealed (run s calls).1 v m ∨
      ∃ e ∈ (run s calls).2, e.call = .unlock (some v) (some m) ∧ e.result.ret = 0 := by
  induction calls generalizing s with
  | nil => exact Or.inl h
  | cons c calls ih =>
    rcases step_sealed h c.2 hc.1 with hs | hu
    · rcases ih hs hc.2 with hs | ⟨e, he, hu⟩
      · exact Or.inl hs
      · exact Or.inr ⟨e, List.mem_cons_of_mem _ he, hu⟩
    · exact Or.inr ⟨_, List.mem_cons_self, hu⟩

/-- In a run without the two calls the lock holds. -/
theorem run_lockHolds (s : State) (calls : List (Call × Env)) (hc : AllKeep s calls) :
    LockHolds (run s calls).2 := by
  intro v m l₁ l₂ l₃ l₄ e₁ e₂ e₃ keyId keyOut hlog hunlock hret hlock hget hok
  obtain ⟨a₁, b₁, rfl, -, hstep₁, hlog₁⟩ := run_eq_append hlog
  obtain ⟨a₂, b₂, rfl, -, -, hlog₂⟩ := run_eq_append hlog₁
  obtain ⟨a₃, b₃, rfl, hl₃, hstep₃, -⟩ := run_eq_append hlog₂
  obtain ⟨-, -, hc₁⟩ := allKeep_append.mp hc
  obtain ⟨hc₂, hkeep₂, hc₃⟩ := allKeep_append.mp hc₁
  have hc₃ := (allKeep_append.mp hc₃).1
  have hknown : Known (step (run s a₁).1 e₁.env e₁.call).1 m := by
    rw [hunlock] at hstep₁ ⊢
    exact known_of_unlock (by rw [← hret, ← hstep₁]; rfl)
  have hsealed := sealed_of_lock (run_known hknown hc₂) e₂.env v
  rw [← hlock] at hsealed
  rcases run_sealed hsealed hc₃ with hs | he
  · refine absurd ?_ (getKey_sealed hs e₃.env keyId keyOut)
    rw [← hget, hstep₃, hok]
  · rwa [hl₃] at he

end

/-! ## A run that keeps the lock, and one that does not -/

/-- The process before its first call. -/
def fresh : State :=
  { globals :=
      { autoRotateThreshold := autoRotateAccess
        masterKeyHash := Vector.replicate 32 0
        masterKeySet := false }
    vaults := fun _ => { keys := [], isLocked := false } }

/-- The outside of the example runs: a constant generator and a stopped clock. -/
def stillEnv : Env :=
  { now := 1000, later := 1000, randomId := Vector.replicate 16 1,
    randomKey := Vector.replicate 32 2 }

/-- Open a vault with a key, generate one entry, lock, open it with `reopen` and read the entry. -/
def reopenCalls (reopen : Option KeyData) : List (Call × Env) :=
  [ .init (some 0),
    .unlock (some 0) (some (Vector.replicate 32 7)),
    .generateKey (some 0) true 0,
    .lock (some 0),
    .unlock (some 0) reopen,
    .getKey (some 0) (some (Vector.replicate 16 1)) true ].map (·, stillEnv)

theorem run_lockHolds_reopen :
    AllKeep fresh (reopenCalls (some (Vector.replicate 32 7))) ∧
      LockHolds (run fresh (reopenCalls (some (Vector.replicate 32 7)))).2 := by
  have h : AllKeep fresh (reopenCalls (some (Vector.replicate 32 7))) :=
    ⟨rfl, trivial, trivial, trivial, trivial, trivial, trivial⟩
  exact ⟨h, run_lockHolds _ _ h⟩

/-- A null key opens the vault again. -/
theorem not_lockHolds_null : ¬ LockHolds (run fresh (reopenCalls none)).2 := by
  intro h
  obtain ⟨e, he, hcall, -⟩ := h 0 (Vector.replicate 32 7) [_] [_] [_] [] _ _ _
    (some (Vector.replicate 16 1)) true rfl rfl rfl rfl rfl (by decide +kernel)
  rw [List.mem_singleton] at he
  subst he
  simp at hcall

end SneppxAlg.Vault
