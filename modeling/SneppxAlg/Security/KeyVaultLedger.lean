import SneppxAlg.Security.KeyVaultLock

/-!
# What a vault serves

The ledger of a vault is what its log says about each id: when it was generated and for how long,
the key of its last generation or rotation, the reads since then, and whether it was revoked. It is
read off the calls and their results and knows nothing of the table. The table `Tracks` the ledger
through every run (`run_tracks`), so `get_key` serves what the ledger says (`run_serves`).

The deadline of a key is `created_at + ttl_seconds` in 64 bits. When the sum wraps, the key is
refused too early or, if it wraps to 0, never; the true deadline is then beyond the clock, so no
expired key is served.
-/

namespace SneppxAlg.Vault

/-! ## The ledger -/

/-- What the log says about one id. -/
structure Line where
  key : KeyData
  generatedAt : UInt64
  ttl : UInt64
  uses : Nat
  revoked : Bool

/-- The time to live has passed, as a fact about numbers. -/
def Line.Expired (l : Line) (now : UInt64) : Prop :=
  0 < l.ttl ∧ l.generatedAt.toNat + l.ttl.toNat < now.toNat

def Line.rotate (l : Line) (key : KeyData) : Line := { l with key := key, uses := 0 }

def Line.revoke (l : Line) : Line := { l with revoked := true }

/-- A read counts as a use, and the use that reaches the threshold rotates the key. The count is an
`int`. -/
def Line.read (l : Line) (threshold : Int32) (key : KeyData) : Line :=
  if 0 < threshold ∧ threshold ≤ Int32.ofNat (l.uses + 1) then l.rotate key
  else { l with uses := l.uses + 1 }

structure Ledger where
  threshold : Int32
  lines : KeyId → Option Line

def Ledger.amend (L : Ledger) (keyId : KeyId) (f : Line → Line) : Ledger :=
  { L with lines := Function.update L.lines keyId ((L.lines keyId).map f) }

def Ledger.enter (L : Ledger) (keyId : KeyId) (line : Line) : Ledger :=
  { L with lines := Function.update L.lines keyId (some line) }

def Line.generate (env : Env) (ttl : UInt64) : Line :=
  { key := env.randomKey, generatedAt := env.now, ttl := ttl, uses := 0, revoked := false }

/-- The ledger of vault `v` after one more call. Calls that fail do not count. -/
def Ledger.note (v : VaultId) (L : Ledger) (e : Entry) : Ledger :=
  if e.result.ret < 0 then L
  else match e.call with
    | .init w =>
      { threshold := autoRotateAccess, lines := if w = some v then fun _ => none else L.lines }
    | .setAutoRotateThreshold n => { L with threshold := n }
    | .generateKey w _ ttl =>
      match e.result.keyId with
      | some keyId => if w = some v then L.enter keyId (Line.generate e.env ttl) else L
      | none => L
    | .getKey w (some keyId) _ =>
      if w = some v then L.amend keyId (·.read L.threshold e.env.randomKey) else L
    | .rotateKey w (some keyId) =>
      if w = some v then L.amend keyId (·.rotate e.env.randomKey) else L
    | .revokeKey w (some keyId) => if w = some v then L.amend keyId Line.revoke else L
    | _ => L

/-- The ledger of a vault that has just been initialised. -/
def Ledger.blank : Ledger := { threshold := autoRotateAccess, lines := fun _ => none }

/-- The ledger of `v` after a log. -/
def ledger (v : VaultId) (log : List Entry) : Ledger := log.foldl (Ledger.note v) Ledger.blank

/-- The id that a call generates in `v`. -/
def Entry.generated (v : VaultId) (e : Entry) : Option KeyId :=
  match e.call with
  | .generateKey w _ _ => if w = some v ∧ 0 ≤ e.result.ret then e.result.keyId else none
  | _ => none

/-- The ids generated in `v`, in order. -/
def generatedIds (v : VaultId) (log : List Entry) : List KeyId := log.filterMap (Entry.generated v)

/-! ## The table follows the ledger -/

/-- The deadline as it is stored, in 64 bits. -/
def Line.expiresAt (l : Line) : UInt64 := if 0 < l.ttl then l.generatedAt + l.ttl else 0

/-- An entry of the table says what its line says. -/
structure VaultKey.Follows (k : VaultKey) (l : Line) : Prop where
  expiresAt : k.expiresAt = l.expiresAt
  revoked : k.isActive = true → l.revoked = false
  key : k.isActive = true → k.keyData = l.key
  uses : k.isActive = true → k.accessCount = Int32.ofNat l.uses

/-- The table of `v` says what the ledger says. -/
structure Tracks (s : State) (v : VaultId) (L : Ledger) : Prop where
  threshold : s.globals.autoRotateThreshold = L.threshold
  nodup : ((s.vaults v).keys.map VaultKey.id).Nodup
  follows : ∀ k ∈ (s.vaults v).keys, ∃ l, L.lines k.id = some l ∧ k.Follows l

/-- What the loops over the table do. -/
theorem onFirst_cases (keyId : KeyId) (f : VaultKey → VaultKey × Result) (ks : List VaultKey) :
    onFirst keyId f ks = (ks, .error) ∨
    ∃ pre k post, ks = pre ++ k :: post ∧ k.isActive = true ∧ k.id = keyId ∧
      onFirst keyId f ks = (pre ++ (f k).1 :: post, (f k).2) := by
  induction ks with
  | nil => exact Or.inl rfl
  | cons k ks ih =>
    by_cases hk : k.matches keyId = true
    · right
      have hk' := hk
      simp only [VaultKey.matches, Bool.and_eq_true, beq_iff_eq] at hk'
      exact ⟨[], k, ks, rfl, hk'.1, hk'.2, by simp [onFirst, hk]⟩
    · rcases ih with ih | ⟨pre, k', post, rfl, hactive, hid, ih⟩
      · exact Or.inl (by simp [onFirst, hk, ih])
      · exact Or.inr ⟨k :: pre, k', post, rfl, hactive, hid, by simp [onFirst, hk, ih]⟩

section

variable {s : State} {v : VaultId} {L : Ledger} {env : Env}

/-- Replacing one entry and its line keeps the rest. -/
theorem Tracks.replace (h : Tracks s v L) {pre post : List VaultKey} {k k' : VaultKey}
    {f : Line → Line} {locked : Bool} (hkeys : (s.vaults v).keys = pre ++ k :: post)
    (hid : k'.id = k.id) (hf : ∀ l, k.Follows l → k'.Follows (f l)) :
    Tracks (s.put v ⟨pre ++ k' :: post, locked⟩) v (L.amend k.id f) := by
  have hnodup := h.nodup
  have hfollows := h.follows
  rw [hkeys] at hnodup hfollows
  have hvault : ((s.put v ⟨pre ++ k' :: post, locked⟩).vaults v).keys = pre ++ k' :: post := by
    simp [State.put]
  refine ⟨h.threshold, ?_, ?_⟩
  · rw [hvault]
    simpa [hid] using hnodup
  · rw [hvault]
    have hother : ∀ x ∈ pre ++ post, x.id ≠ k.id := by
      intro x hx heq
      rw [List.map_append, List.map_cons, List.nodup_middle, List.nodup_cons] at hnodup
      rw [← List.map_append] at hnodup
      exact hnodup.1 (heq ▸ List.mem_map_of_mem hx)
    intro x hx
    rw [List.perm_middle.mem_iff, List.mem_cons] at hx
    rcases hx with rfl | hx
    · obtain ⟨l, hl, hfol⟩ := hfollows k (by simp)
      exact ⟨f l, by simp [Ledger.amend, hid, hl], hf l hfol⟩
    · obtain ⟨l, hl, hfol⟩ := hfollows x
        (List.perm_middle.mem_iff.mpr (List.mem_cons_of_mem _ hx))
      exact ⟨l, by simp [Ledger.amend, hother x hx, hl], hfol⟩

theorem Tracks.congr (h : Tracks s v L) {s' : State}
    (hthreshold : s'.globals.autoRotateThreshold = s.globals.autoRotateThreshold)
    (hkeys : (s'.vaults v).keys = (s.vaults v).keys) : Tracks s' v L :=
  ⟨hthreshold.trans h.threshold, hkeys ▸ h.nodup, hkeys ▸ h.follows⟩

theorem amend_id (L : Ledger) (keyId : KeyId) : L.amend keyId id = L := by
  simp [Ledger.amend]

/-- Operations on another vault. -/
theorem Tracks.put_of_ne (h : Tracks s v L) {w : VaultId} (hw : w ≠ v) (vault : KeyVault) :
    Tracks (s.put w vault) v L :=
  h.congr rfl (by simp [State.put, hw.symm])

/-- The loops, given what they do to one entry and its line. -/
theorem Tracks.onKey (h : Tracks s v L) (keyId : KeyId) {f : VaultKey → VaultKey × Result}
    {g : Line → Line} (hid : ∀ k, (f k).1.id = k.id)
    (hok : ∀ k l, k.isActive = true → k.Follows l → ¬ (f k).2.ret < 0 → (f k).1.Follows (g l))
    (hbad : ∀ k l, k.Follows l → (f k).2.ret < 0 → (f k).1.Follows l) :
    Tracks (s.put v ((s.vaults v).onKey keyId f).1) v
      (if ((s.vaults v).onKey keyId f).2.ret < 0 then L else L.amend keyId g) := by
  have hself : Tracks (s.put v (s.vaults v)) v L := h.congr rfl (by simp [State.put])
  cases hlocked : (s.vaults v).isLocked with
  | true =>
    rw [onKey_of_locked hlocked]
    exact hself
  | false =>
    rw [KeyVault.onKey, hlocked, if_neg Bool.false_ne_true]
    rcases onFirst_cases keyId f (s.vaults v).keys with heq | ⟨pre, k, post, hkeys, hk, rfl, heq⟩
    · rw [heq]
      exact hself.congr rfl (by simp [State.put])
    · rw [heq]
      dsimp only
      split_ifs with hret
      · rw [← amend_id L k.id]
        exact h.replace hkeys (hid k) fun l hl => hbad k l hl hret
      · exact h.replace hkeys (hid k) fun l hl => hok k l hk hl hret

theorem VaultKey.Follows.access {k : VaultKey} {l : Line} (h : k.Follows l)
    (hk : k.isActive = true) (threshold : Int32) (env : Env) :
    (k.access threshold env).Follows (l.read threshold env.randomKey) := by
  have huses : k.accessCount + 1 = Int32.ofNat (l.uses + 1) := by
    rw [h.uses hk, Int32.ofNat_add]
    rfl
  unfold VaultKey.access Line.read
  simp only [huses]
  split_ifs with hrotate
  · exact ⟨h.expiresAt, h.revoked, fun _ => rfl, fun _ => rfl⟩
  · exact ⟨h.expiresAt, h.revoked, h.key, fun _ => rfl⟩

theorem fetch_tracks (h : Tracks s v L) (keyId : KeyId) (threshold : Int32) (env : Env) :
    Tracks (s.put v (getKey (s.vaults v) threshold env keyId).1) v
      (if (getKey (s.vaults v) threshold env keyId).2.ret < 0 then L
        else L.amend keyId (·.read threshold env.randomKey)) := by
  refine h.onKey keyId (fun k => ?_) (fun k l hk hl hret => ?_) (fun k l hl hret => ?_)
  · simp only [VaultKey.fetch, VaultKey.access]
    split_ifs <;> rfl
  · cases hexp : k.isExpired env.now with
    | true => simp [VaultKey.fetch, hexp, Result.error] at hret
    | false =>
      simp only [VaultKey.fetch, hexp, Bool.false_eq_true, if_false]
      exact hl.access hk threshold env
  · cases hexp : k.isExpired env.now with
    | true =>
      simp only [VaultKey.fetch, hexp, if_true]
      exact ⟨hl.expiresAt, by simp [VaultKey.deactivate], by simp [VaultKey.deactivate],
        by simp [VaultKey.deactivate]⟩
    | false => simp [VaultKey.fetch, hexp] at hret

theorem rotate_tracks (h : Tracks s v L) (keyId : KeyId) (env : Env) :
    Tracks (s.put v (rotateKey (s.vaults v) env keyId).1) v
      (if (rotateKey (s.vaults v) env keyId).2.ret < 0 then L
        else L.amend keyId (·.rotate env.randomKey)) := by
  refine h.onKey keyId (fun k => rfl) (fun k l hk hl hret => ?_) (fun k l hl hret => ?_)
  · exact ⟨hl.expiresAt, hl.revoked, fun _ => rfl, fun _ => rfl⟩
  · simp [Result.ok] at hret

theorem revoke_tracks (h : Tracks s v L) (keyId : KeyId) :
    Tracks (s.put v (revokeKey (s.vaults v) keyId).1) v
      (if (revokeKey (s.vaults v) keyId).2.ret < 0 then L else L.amend keyId Line.revoke) := by
  refine h.onKey keyId (fun k => rfl) (fun k l hk hl hret => ?_) (fun k l hl hret => ?_)
  · exact ⟨hl.expiresAt, by simp [VaultKey.revoke], by simp [VaultKey.revoke],
      by simp [VaultKey.revoke]⟩
  · simp [Result.ok] at hret

theorem generateKey_cases (vault : KeyVault) (env : Env) (ttl : UInt64) :
    generateKey vault env ttl = (vault, .error) ∨
    generateKey vault env ttl =
      ({ vault with keys := vault.keys ++ [VaultKey.generate env ttl] },
        { ret := vault.keys.length, keyId := some env.randomId }) := by
  unfold generateKey
  split_ifs
  · exact Or.inl rfl
  · exact Or.inr rfl

/-- A new entry gets a new line, if its id is new. -/
theorem generate_tracks (h : Tracks s v L) (env : Env) (ttl : UInt64) (locked : Bool)
    (hfresh : L.lines env.randomId = none) :
    Tracks (s.put v ⟨(s.vaults v).keys ++ [VaultKey.generate env ttl], locked⟩) v
      (L.enter env.randomId (Line.generate env ttl)) := by
  have hother : ∀ k ∈ (s.vaults v).keys, k.id ≠ env.randomId := by
    intro k hk heq
    obtain ⟨l, hl, -⟩ := h.follows k hk
    rw [heq, hfresh] at hl
    simp at hl
  refine ⟨h.threshold, ?_, ?_⟩
  · simpa [State.put, VaultKey.generate, List.nodup_append, h.nodup] using hother
  · intro k hk
    simp only [State.put, Function.update_self, List.mem_append, List.mem_singleton] at hk
    rcases hk with hk | rfl
    · obtain ⟨l, hl, hfol⟩ := h.follows k hk
      exact ⟨l, by simp [Ledger.enter, hother k hk, hl], hfol⟩
    · exact ⟨Line.generate env ttl, by simp [Ledger.enter, VaultKey.generate],
        ⟨rfl, fun _ => rfl, fun _ => rfl, fun _ => rfl⟩⟩

/-! ## Runs -/

/-- The log entry of a call. -/
def entry (s : State) (call : Call) (env : Env) : Entry := ⟨call, env, (step s env call).2⟩

theorem init_tracks (h : Tracks s v L) (w : VaultId) :
    Tracks (keyVaultInit s w) v
      { threshold := autoRotateAccess, lines := if some w = some v then fun _ => none else L.lines } := by
  by_cases hw : w = v
  · subst hw
    exact ⟨rfl, by simp [keyVaultInit], by simp [keyVaultInit]⟩
  · have hkeys : ((keyVaultInit s w).vaults v).keys = (s.vaults v).keys := by
      simp [keyVaultInit, Ne.symm hw]
    rw [if_neg (by simpa using hw)]
    exact ⟨rfl, hkeys ▸ h.nodup, hkeys ▸ h.follows⟩

theorem setLocked_tracks (h : Tracks s v L) (w : VaultId) (locked : Bool) :
    Tracks (setLocked s w locked) v L := by
  refine h.congr rfl ?_
  by_cases hw : v = w
  · subst hw
    simp [setLocked, State.put]
  · simp [setLocked, State.put, hw]

theorem unlock_tracks (h : Tracks s v L) (w : VaultId) (key : Option KeyData) :
    Tracks (unlock s w key).1 v L := by
  cases key with
  | none => exact setLocked_tracks h w false
  | some key =>
    unfold unlock
    dsimp only
    split_ifs
    · exact h
    · exact setLocked_tracks h w false
    · have hset : Tracks { s with globals := { s.globals with
          masterKeyHash := key, masterKeySet := true } } v L := h.congr rfl rfl
      exact setLocked_tracks hset w false

/-- A call on `w` that is noted for `v` only if `w` is `v`. -/
theorem Tracks.after (h : Tracks s v L) {w : VaultId} {r : KeyVault × Result} {L' : Ledger}
    (hw : w = v → Tracks (s.put w r.1) v (if r.2.ret < 0 then L else L')) :
    Tracks (s.after w r).1 v
      (if r.2.ret < 0 then L else if some w = some v then L' else L) := by
  by_cases hv : w = v
  · rw [if_pos (congrArg some hv)]
    exact hw hv
  · have hne : some w ≠ some v := fun heq => hv (Option.some.inj heq)
    rw [if_neg hne, ite_self]
    exact h.put_of_ne hv r.1

theorem note_generate_of_ne {w : VaultId} (hw : w ≠ v) (keyId : Bool) (ttl : UInt64) (env : Env)
    (r : Result) : L.note v ⟨.generateKey (some w) keyId ttl, env, r⟩ = L := by
  cases hid : r.keyId <;> simp [Ledger.note, hid, hw]

theorem generateKey_tracks (h : Tracks s v L) (w : VaultId) (env : Env) (ttl : UInt64)
    (hfresh : ∀ keyId, (entry s (.generateKey (some w) true ttl) env).generated v = some keyId →
      L.lines keyId = none) :
    Tracks (step s env (.generateKey (some w) true ttl)).1 v
      (L.note v (entry s (.generateKey (some w) true ttl) env)) := by
  by_cases hw : w = v
  · subst hw
    rcases generateKey_cases (s.vaults w) env ttl with heq | heq
    · have hnote : L.note w (entry s (.generateKey (some w) true ttl) env) = L := by
        simp [Ledger.note, entry, step, State.after, heq, Result.error]
      rw [hnote]
      exact h.congr rfl (by simp [step, State.after, State.put, heq])
    · have hret : ¬ ((s.vaults w).keys.length : Int) < 0 := by omega
      have hnote : L.note w (entry s (.generateKey (some w) true ttl) env) =
          L.enter env.randomId (Line.generate env ttl) := by
        simp [Ledger.note, entry, step, State.after, heq, hret]
      rw [hnote]
      have hnone := hfresh env.randomId
        (by simp [Entry.generated, entry, step, State.after, heq])
      have hgen := generate_tracks h env ttl (s.vaults w).isLocked hnone
      simpa only [step, State.after, heq] using hgen
  · rw [entry, note_generate_of_ne hw]
    exact h.put_of_ne hw _

theorem note_error (v : VaultId) (L : Ledger) (call : Call) (env : Env) :
    L.note v ⟨call, env, .error⟩ = L := by
  simp [Ledger.note, Result.error]

theorem step_tracks (h : Tracks s v L) (env : Env) (call : Call)
    (hfresh : ∀ keyId, (entry s call env).generated v = some keyId → L.lines keyId = none) :
    Tracks (step s env call).1 v (L.note v (entry s call env)) := by
  cases call with
  | init w =>
    cases w with
    | none => exact h
    | some w => exact init_tracks h w
  | generateKey w keyId ttl =>
    cases w with
    | none => exact h
    | some w =>
      cases keyId with
      | false => exact h
      | true => exact generateKey_tracks h w env ttl hfresh
  | getKey w keyId keyOut =>
    cases w with
    | none => cases keyId <;> exact h
    | some w =>
      cases keyId with
      | none => exact h
      | some keyId =>
        cases keyOut with
        | false => exact h
        | true =>
          refine h.after fun hw => ?_
          rw [hw, ← h.threshold]
          exact fetch_tracks h keyId _ env
  | rotateKey w keyId =>
    cases w with
    | none => cases keyId <;> exact h
    | some w =>
      cases keyId with
      | none => exact h
      | some keyId =>
        refine h.after fun hw => ?_
        rw [hw]
        exact rotate_tracks h keyId env
  | revokeKey w keyId =>
    cases w with
    | none => cases keyId <;> exact h
    | some w =>
      cases keyId with
      | none => exact h
      | some keyId =>
        refine h.after fun hw => ?_
        rw [hw]
        exact revoke_tracks h keyId
  | lock w =>
    cases w with
    | none => exact h
    | some w => exact setLocked_tracks h w true
  | unlock w key =>
    cases w with
    | none => exact h
    | some w =>
      have hnote : L.note v (entry s (.unlock (some w) key) env) = L := by
        unfold Ledger.note
        exact ite_self L
      rw [hnote]
      exact unlock_tracks h w key
  | setAutoRotateThreshold n =>
    simp only [entry, step, setAutoRotateThreshold]
    split_ifs with hn
    · rw [note_error]
      exact h
    · exact ⟨rfl, h.nodup, h.follows⟩

/-- What a call can do to a line. -/
inductive Line.Update : (Line → Line) → Prop where
  | keep : Line.Update id
  | read (threshold : Int32) (key : KeyData) : Line.Update (·.read threshold key)
  | rotate (key : KeyData) : Line.Update (·.rotate key)
  | revoke : Line.Update Line.revoke

theorem amend_line (L : Ledger) (i keyId : KeyId) {f : Line → Line} (hf : Line.Update f) :
    ∃ g, Line.Update g ∧ (L.amend i f).lines keyId = (L.lines keyId).map g := by
  by_cases hi : keyId = i
  · subst hi
    exact ⟨f, hf, by simp [Ledger.amend]⟩
  · exact ⟨id, .keep, by simp [Ledger.amend, hi]⟩

theorem note_line {e : Entry} {keyId : KeyId} (hgen : e.generated v ≠ some keyId) :
    (L.note v e).lines keyId = none ∨
      ∃ f, Line.Update f ∧ (L.note v e).lines keyId = (L.lines keyId).map f := by
  have hkeep : ∃ f, Line.Update f ∧ L.lines keyId = (L.lines keyId).map f :=
    ⟨id, .keep, by simp⟩
  obtain ⟨call, env, r⟩ := e
  by_cases hret : r.ret < 0
  · exact Or.inr (by simpa [Ledger.note, hret] using hkeep)
  cases call with
  | init w =>
    by_cases hw : w = some v
    · exact Or.inl (by simp [Ledger.note, hret, hw])
    · exact Or.inr (by simpa [Ledger.note, hret, hw] using hkeep)
  | generateKey w k ttl =>
    right
    cases hid : r.keyId with
    | none => simpa [Ledger.note, hret, hid] using hkeep
    | some i =>
      by_cases hw : w = some v
      · have hi : keyId ≠ i := by
          rintro rfl
          exact hgen (by simp [Entry.generated, hw, hid, not_lt.mp hret])
        simpa [Ledger.note, hret, hid, hw, Ledger.enter, hi] using hkeep
      · simpa [Ledger.note, hret, hid, hw] using hkeep
  | getKey w i k =>
    right
    cases i with
    | none => simpa [Ledger.note, hret] using hkeep
    | some i =>
      by_cases hw : w = some v
      · simpa [Ledger.note, hret, hw] using amend_line L i keyId (.read L.threshold env.randomKey)
      · simpa [Ledger.note, hret, hw] using hkeep
  | rotateKey w i =>
    right
    cases i with
    | none => simpa [Ledger.note, hret] using hkeep
    | some i =>
      by_cases hw : w = some v
      · simpa [Ledger.note, hret, hw] using amend_line L i keyId (.rotate env.randomKey)
      · simpa [Ledger.note, hret, hw] using hkeep
  | revokeKey w i =>
    right
    cases i with
    | none => simpa [Ledger.note, hret] using hkeep
    | some i =>
      by_cases hw : w = some v
      · simpa [Ledger.note, hret, hw] using amend_line L i keyId .revoke
      · simpa [Ledger.note, hret, hw] using hkeep
  | lock w => exact Or.inr (by simpa [Ledger.note, hret] using hkeep)
  | unlock w key => exact Or.inr (by simpa [Ledger.note, hret] using hkeep)
  | setAutoRotateThreshold n => exact Or.inr (by simpa [Ledger.note, hret] using hkeep)

/-- A property of a line that no update ends holds until the line is erased. -/
theorem foldl_note_lasting {P : Line → Prop} (hP : ∀ f l, Line.Update f → P l → P (f l))
    {log : List Entry} {keyId : KeyId} (hgen : keyId ∉ generatedIds v log)
    (h : ∀ l, L.lines keyId = some l → P l) :
    ∀ l, (log.foldl (Ledger.note v) L).lines keyId = some l → P l := by
  induction log generalizing L with
  | nil => exact h
  | cons e log ih =>
    have hne : e.generated v ≠ some keyId := by
      intro heq
      exact hgen (List.mem_filterMap.mpr ⟨e, List.mem_cons_self, heq⟩)
    have hrest : keyId ∉ generatedIds v log := fun hmem =>
      hgen (List.mem_filterMap.mpr (by
        obtain ⟨e', he', heq⟩ := List.mem_filterMap.mp hmem
        exact ⟨e', List.mem_cons_of_mem _ he', heq⟩))
    refine ih hrest fun l hl => ?_
    rcases note_line (L := L) hne with hnone | ⟨f, hf, heq⟩
    · rw [hnone] at hl
      simp at hl
    · rw [heq] at hl
      obtain ⟨l', hl', rfl⟩ := Option.map_eq_some_iff.mp hl
      exact hP f l' hf (h l' hl')

theorem expired_lasting (now : UInt64) (f : Line → Line) (l : Line) (hf : Line.Update f)
    (h : l.Expired now) : (f l).Expired now := by
  cases hf with
  | keep => exact h
  | read threshold key =>
    show (l.read threshold key).Expired now
    unfold Line.read
    split_ifs <;> exact h
  | rotate key => exact h
  | revoke => exact h

theorem revoked_lasting (f : Line → Line) (l : Line) (hf : Line.Update f)
    (h : l.revoked = true) : (f l).revoked = true := by
  cases hf with
  | keep => exact h
  | read threshold key =>
    show (l.read threshold key).revoked = true
    unfold Line.read
    split_ifs <;> exact h
  | rotate key => exact h
  | revoke => rfl

theorem mem_generatedIds {log : List Entry} {keyId : KeyId} {l : Line}
    (h : (ledger v log).lines keyId = some l) : keyId ∈ generatedIds v log := by
  by_contra hgen
  exact foldl_note_lasting (P := fun _ => False) (fun _ _ _ h => h) hgen
    (by simp [Ledger.blank]) l h

theorem ledger_append (v : VaultId) (a b : List Entry) :
    ledger v (a ++ b) = b.foldl (Ledger.note v) (ledger v a) :=
  List.foldl_append

theorem run_snoc (s : State) (calls : List (Call × Env)) (call : Call) (env : Env) :
    run s (calls ++ [(call, env)]) =
      ((step (run s calls).1 env call).1, (run s calls).2 ++ [entry (run s calls).1 call env]) := by
  rw [run_append]
  rfl

/-- The table follows the ledger through every run with distinct ids. -/
theorem run_tracks (s : State) (v : VaultId) (calls : List (Call × Env))
    (hids : (generatedIds v (run (keyVaultInit s v) calls).2).Nodup) :
    Tracks (run (keyVaultInit s v) calls).1 v (ledger v (run (keyVaultInit s v) calls).2) := by
  induction calls using List.reverseRecOn with
  | nil => exact ⟨rfl, by simp [run, keyVaultInit], by simp [run, keyVaultInit]⟩
  | append_singleton calls c ih =>
    obtain ⟨call, env⟩ := c
    rw [run_snoc, generatedIds, List.filterMap_append] at hids
    rw [run_snoc, ledger_append]
    refine step_tracks (ih hids.of_append_left) env call fun keyId hgen => ?_
    by_contra hline
    obtain ⟨l, hl⟩ := Option.ne_none_iff_exists'.mp hline
    exact List.disjoint_of_nodup_append hids (mem_generatedIds hl) (by simp [hgen])

/-! ## What `get_key` serves -/

/-- A key that the code takes as valid has not expired. -/
theorem not_expired_of_follows {k : VaultKey} {l : Line} (h : k.Follows l) {now : UInt64}
    (hk : k.isExpired now = false) : ¬ l.Expired now := by
  rintro ⟨httl, hlt⟩
  have hnow : now.toNat < 2 ^ 64 := now.toNat_lt
  have hpos : 0 < l.ttl.toNat := httl
  have hstored : k.expiresAt.toNat = l.generatedAt.toNat + l.ttl.toNat := by
    rw [h.expiresAt, Line.expiresAt, if_pos httl, UInt64.toNat_add]
    exact Nat.mod_eq_of_lt (by omega)
  have hexp : k.isExpired now = true := by
    simp only [VaultKey.isExpired, Bool.and_eq_true, decide_eq_true_eq, UInt64.lt_iff_toNat_lt]
    exact ⟨by rw [hstored]; simp; omega, by omega⟩
  rw [hk] at hexp
  simp at hexp

/-- A successful `get_key`. -/
theorem getKey_serves (h : Tracks s v L) {env : Env} {keyId : KeyId} {keyOut : Bool}
    (hret : (step s env (.getKey (some v) (some keyId) keyOut)).2.ret = 0) :
    ∃ l, L.lines keyId = some l ∧ l.revoked = false ∧ ¬ l.Expired env.now ∧
      (step s env (.getKey (some v) (some keyId) keyOut)).2.keyOut = some l.key := by
  cases keyOut with
  | false => simp [step, Result.error] at hret
  | true =>
    simp only [step, State.after, getKey] at hret ⊢
    cases hlocked : (s.vaults v).isLocked with
    | true =>
      rw [onKey_of_locked hlocked] at hret
      simp [Result.error] at hret
    | false =>
      rw [KeyVault.onKey, hlocked, if_neg Bool.false_ne_true] at hret ⊢
      rcases onFirst_cases keyId (VaultKey.fetch · s.globals.autoRotateThreshold env)
        (s.vaults v).keys with heq | ⟨pre, k, post, hkeys, hk, rfl, heq⟩
      · rw [heq] at hret
        simp [Result.error] at hret
      · rw [heq] at hret ⊢
        obtain ⟨l, hl, hfol⟩ := h.follows k (by simp [hkeys])
        cases hexp : k.isExpired env.now with
        | true => simp [VaultKey.fetch, hexp, Result.error] at hret
        | false =>
          exact ⟨l, hl, hfol.revoked hk, not_expired_of_follows hfol hexp,
            by simp [VaultKey.fetch, hexp, hfol.key hk]⟩

/-- The id on which a call on `v` works. -/
def Entry.target (v : VaultId) (e : Entry) : Option KeyId :=
  match e.call with
  | .generateKey w _ _ => if w = some v then e.result.keyId else none
  | .getKey w keyId _ => if w = some v then keyId else none
  | .rotateKey w keyId => if w = some v then keyId else none
  | .revokeKey w keyId => if w = some v then keyId else none
  | _ => none

/-- The entries of a vault with other ids. -/
def KeyVault.others (vault : KeyVault) (keyId : KeyId) : List VaultKey :=
  vault.keys.filter (·.id != keyId)

theorem onKey_others (vault : KeyVault) (keyId : KeyId) {f : VaultKey → VaultKey × Result}
    (hid : ∀ k, (f k).1.id = k.id) :
    (vault.onKey keyId f).1.others keyId = vault.others keyId := by
  unfold KeyVault.onKey
  split_ifs
  · rfl
  · rcases onFirst_cases keyId f vault.keys with heq | ⟨pre, k, post, hkeys, -, rfl, heq⟩
    · rw [heq]
    · rw [heq]
      simp [KeyVault.others, hkeys, List.filter_append, hid]

/-- Operations on one id leave the entries of the others alone. -/
theorem step_others (s : State) (v : VaultId) (call : Call) (env : Env) {keyId : KeyId}
    (h : (entry s call env).target v = some keyId) :
    ((step s env call).1.vaults v).others keyId = (s.vaults v).others keyId := by
  cases call with
  | generateKey w k ttl =>
    simp only [Entry.target, entry] at h
    split_ifs at h with hw
    subst hw
    cases k with
    | false => rfl
    | true =>
      simp only [step, State.after] at h ⊢
      rcases generateKey_cases (s.vaults v) env ttl with heq | heq
      · simp [heq, State.put]
      · rw [heq] at h ⊢
        obtain rfl : env.randomId = keyId := by simpa using h
        simp [State.put, KeyVault.others, VaultKey.generate]
  | getKey w k keyOut =>
    simp only [Entry.target, entry] at h
    split_ifs at h with hw
    subst hw
    subst h
    cases keyOut with
    | false => rfl
    | true =>
      simp only [step, State.after, State.put, Function.update_self]
      refine onKey_others _ _ fun k => ?_
      simp only [VaultKey.fetch, VaultKey.access]
      split_ifs <;> rfl
  | rotateKey w k =>
    simp only [Entry.target, entry] at h
    split_ifs at h with hw
    subst hw
    subst h
    simp only [step, State.after, State.put, Function.update_self]
    exact onKey_others _ _ fun k => rfl
  | revokeKey w k =>
    simp only [Entry.target, entry] at h
    split_ifs at h with hw
    subst hw
    subst h
    simp only [step, State.after, State.put, Function.update_self]
    exact onKey_others _ _ fun k => rfl
  | init w => simp [Entry.target, entry] at h
  | lock w => simp [Entry.target, entry] at h
  | unlock w key => simp [Entry.target, entry] at h
  | setAutoRotateThreshold n => simp [Entry.target, entry] at h

/-- The readings of the clock, in order. -/
def readings (calls : List (Call × Env)) : List UInt64 :=
  calls.flatMap fun c => [c.2.now, c.2.later]

/-- What the calls on `v` get from it: a key is served only for an id that is generated, not revoked
and not expired, and then it is the key of the last generation or rotation; a revoked or expired id
is not served again; a call on one id leaves the others alone. -/
structure Serves (s : State) (v : VaultId) (calls : List (Call × Env)) : Prop where
  served : ∀ (l₁ : List Entry) (e : Entry) (l₂ : List Entry) (keyId : KeyId) (keyOut : Bool),
    (run s calls).2 = l₁ ++ e :: l₂ →
    e.call = .getKey (some v) (some keyId) keyOut → e.result.ret = 0 →
    ∃ l : Line, (ledger v l₁).lines keyId = some l ∧ l.revoked = false ∧ ¬ l.Expired e.env.now ∧
      e.result.keyOut = some l.key
  revoked : ∀ (l₁ : List Entry) (e₁ : Entry) (l₂ : List Entry) (e₂ : Entry) (l₃ : List Entry)
    (keyId : KeyId) (keyOut : Bool), (run s calls).2 = l₁ ++ e₁ :: (l₂ ++ e₂ :: l₃) →
    e₁.call = .revokeKey (some v) (some keyId) → e₁.result.ret = 0 →
    e₂.call = .getKey (some v) (some keyId) keyOut → e₂.result.ret ≠ 0
  expired : ∀ (l₁ : List Entry) (e₁ : Entry) (l₂ : List Entry) (e₂ : Entry) (l₃ : List Entry)
    (keyId : KeyId) (keyOut : Bool) (l : Line), (run s calls).2 = l₁ ++ e₁ :: (l₂ ++ e₂ :: l₃) →
    (ledger v l₁).lines keyId = some l → l.Expired e₁.env.now →
    e₂.call = .getKey (some v) (some keyId) keyOut → e₂.result.ret ≠ 0
  others : ∀ (a : List (Call × Env)) (call : Call) (env : Env) (b : List (Call × Env)) (keyId : KeyId),
    calls = a ++ (call, env) :: b →
    (entry (run s a).1 call env).target v = some keyId →
    ((step (run s a).1 env call).1.vaults v).others keyId = ((run s a).1.vaults v).others keyId

theorem revokeKey_line (h : Tracks s v L) {env : Env} {keyId : KeyId}
    (hret : (step s env (.revokeKey (some v) (some keyId))).2.ret = 0) :
    ∃ l, L.lines keyId = some l := by
  simp only [step, State.after, revokeKey, KeyVault.onKey] at hret
  split_ifs at hret with hlocked
  · simp [Result.error] at hret
  · rcases onFirst_cases keyId (fun k => (k.revoke, Result.ok)) (s.vaults v).keys with
      heq | ⟨pre, k, post, hkeys, -, rfl, -⟩
    · rw [heq] at hret
      simp [Result.error] at hret
    · obtain ⟨l, hl, -⟩ := h.follows k (by simp [hkeys])
      exact ⟨l, hl⟩

theorem note_revoke {log : List Entry} {e : Entry} {keyId : KeyId} {l : Line}
    (hcall : e.call = .revokeKey (some v) (some keyId)) (hret : e.result.ret = 0)
    (hline : (ledger v log).lines keyId = some l) :
    (ledger v (log ++ [e])).lines keyId = some l.revoke := by
  simp [ledger_append, Ledger.note, hcall, hret, Ledger.amend, hline]

/-- The table at an entry of the log. -/
theorem tracks_at {calls : List (Call × Env)} {l₁ l₂ : List Entry} {e : Entry}
    (hids : (generatedIds v (run (keyVaultInit s v) calls).2).Nodup)
    (hlog : (run (keyVaultInit s v) calls).2 = l₁ ++ e :: l₂) :
    ∃ σ, Tracks σ v (ledger v l₁) ∧ (step σ e.env e.call).2 = e.result := by
  obtain ⟨a, b, -, hl₁, hstep, -⟩ := run_eq_append hlog
  rw [hlog, generatedIds, List.filterMap_append] at hids
  refine ⟨(run (keyVaultInit s v) a).1, ?_, hstep⟩
  rw [← hl₁]
  exact run_tracks s v a (hl₁ ▸ hids.of_append_left)

theorem notMem_generatedIds {calls : List (Call × Env)} (l₁ l₂ l₃ : List Entry) {keyId : KeyId}
    {l : Line} (hids : (generatedIds v (run (keyVaultInit s v) calls).2).Nodup)
    (hlog : (run (keyVaultInit s v) calls).2 = l₁ ++ (l₂ ++ l₃))
    (hline : (ledger v l₁).lines keyId = some l) : keyId ∉ generatedIds v l₂ := by
  intro hmem
  rw [hlog, generatedIds, List.filterMap_append, List.filterMap_append] at hids
  exact List.disjoint_of_nodup_append hids (mem_generatedIds hline) (List.mem_append_left _ hmem)

theorem now_le {calls : List (Call × Env)} (hclock : (readings calls).Pairwise (· ≤ ·))
    {l₁ l₂ l₃ : List Entry} {e₁ e₂ : Entry}
    (hlog : (run s calls).2 = l₁ ++ e₁ :: (l₂ ++ e₂ :: l₃)) : e₁.env.now ≤ e₂.env.now := by
  obtain ⟨a, b, rfl, -, -, hb⟩ := run_eq_append hlog
  obtain ⟨a', b', rfl, -, -, -⟩ := run_eq_append hb
  simp only [readings, List.flatMap_append, List.flatMap_cons, List.pairwise_append,
    List.pairwise_cons] at hclock
  exact hclock.2.1.2.2 _ (by simp) _ (by simp)

/-- Every run of calls on a vault after its `init`, the ids being distinct and the clock not going
back. -/
theorem run_serves (s : State) (v : VaultId) (calls : List (Call × Env))
    (hids : (generatedIds v (run (keyVaultInit s v) calls).2).Nodup)
    (hclock : (readings calls).Pairwise (· ≤ ·)) : Serves (keyVaultInit s v) v calls := by
  have served : ∀ (l₁ : List Entry) (e : Entry) (l₂ : List Entry) (keyId : KeyId) (keyOut : Bool),
      (run (keyVaultInit s v) calls).2 = l₁ ++ e :: l₂ →
      e.call = .getKey (some v) (some keyId) keyOut → e.result.ret = 0 →
      ∃ l, (ledger v l₁).lines keyId = some l ∧ l.revoked = false ∧ ¬ l.Expired e.env.now ∧
        e.result.keyOut = some l.key := by
    intro l₁ e l₂ keyId keyOut hlog hcall hret
    obtain ⟨σ, hσ, hstep⟩ := tracks_at hids hlog
    rw [← hstep, hcall] at hret ⊢
    exact getKey_serves hσ hret
  refine ⟨served, ?_, ?_, ?_⟩
  · intro l₁ e₁ l₂ e₂ l₃ keyId keyOut hlog hrevoke hok hget hret
    obtain ⟨σ, hσ, hstep⟩ := tracks_at hids hlog
    obtain ⟨l, hline⟩ := revokeKey_line hσ (by rw [← hrevoke, hstep, hok])
    have hgen : keyId ∉ generatedIds v l₂ :=
      notMem_generatedIds (l₁ ++ [e₁]) l₂ (e₂ :: l₃) hids (by rw [hlog]; simp)
        (note_revoke hrevoke hok hline)
    obtain ⟨l', hl', hrevoked, -⟩ := served (l₁ ++ e₁ :: l₂) e₂ l₃ keyId keyOut
      (by rw [hlog]; simp) hget hret
    rw [List.append_cons, ledger_append] at hl'
    have hlast := foldl_note_lasting revoked_lasting hgen
      (fun m hm => by rw [note_revoke hrevoke hok hline] at hm; exact Option.some.inj hm ▸ rfl)
      l' hl'
    rw [hrevoked] at hlast
    simp at hlast
  · intro l₁ e₁ l₂ e₂ l₃ keyId keyOut l hlog hline hexp hget hret
    have hgen : keyId ∉ generatedIds v (e₁ :: l₂) :=
      notMem_generatedIds l₁ (e₁ :: l₂) (e₂ :: l₃) hids (by rw [hlog]; rfl) hline
    obtain ⟨l', hl', -, hnot, -⟩ := served (l₁ ++ e₁ :: l₂) e₂ l₃ keyId keyOut
      (by rw [hlog]; simp) hget hret
    rw [ledger_append] at hl'
    have hlast := foldl_note_lasting (expired_lasting e₁.env.now) hgen
      (fun m hm => by rw [hline] at hm; exact Option.some.inj hm ▸ hexp) l' hl'
    refine hnot ⟨hlast.1, ?_⟩
    exact lt_of_lt_of_le hlast.2 (UInt64.le_iff_toNat_le.mp (now_le hclock hlog))
  · intro a call env b keyId _ htarget
    exact step_others _ v call env htarget

end

/-- Generate a key for an hour, read it, rotate it, read it again and revoke it. -/
def lifeCalls : List (Call × Env) :=
  [ (.unlock (some 0) none, stillEnv),
    (.generateKey (some 0) true 3600, stillEnv),
    (.getKey (some 0) (some stillEnv.randomId) true, stillEnv),
    (.rotateKey (some 0) (some stillEnv.randomId), { stillEnv with randomKey := Vector.replicate 32 3 }),
    (.getKey (some 0) (some stillEnv.randomId) true, { stillEnv with now := 1001, later := 1001 }),
    (.revokeKey (some 0) (some stillEnv.randomId), { stillEnv with now := 1001, later := 1001 }) ]

/-- The key is read as it was generated, and after the rotation as it is then. -/
theorem run_serves_life :
    ((run (keyVaultInit fresh 0) lifeCalls).2.map (fun e => (e.result.ret, e.result.keyOut)) =
      [(0, none), (0, none), (0, some (Vector.replicate 32 2)), (0, none), (0, some (Vector.replicate 32 3)), (0, none)]) ∧
      Serves (keyVaultInit fresh 0) 0 lifeCalls :=
  ⟨by decide +kernel, run_serves fresh 0 lifeCalls (by decide +kernel) (by decide +kernel)⟩

end SneppxAlg.Vault
