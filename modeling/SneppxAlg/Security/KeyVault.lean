import Mathlib.Logic.Function.Basic
import SneppxAlg.Lib.Bytes

/-!
# The key vault

`security/ui/key_vault.c`. A vault is a table of at most 64 keys and a lock flag; the master key
and the threshold for automatic rotation are globals of the process, shared by all vaults.

A call is a `Call` with its arguments, where a pointer that can be null is an `Option`. What the
call takes from outside is an `Env`: the readings of `time` and the contents that
`SNEPPX_random_bytes` leaves in the buffers it is given. Nothing is assumed about the latter,
since the vault does not look at the return code of the generator.
-/

namespace SneppxAlg.Vault

/-- The contents of an `id` field, `SNEPPX_VAULT_ID_LEN` bytes. -/
abbrev KeyId := Vector UInt8 16

/-- The contents of a `key_data` field, `SNEPPX_VAULT_KEY_LEN` bytes. -/
abbrev KeyData := Vector UInt8 32

/-- `SNEPPX_VAULT_MAX_KEYS`. -/
def maxKeys : Nat := 64

/-- `SNEPPX_VAULT_AUTO_ROTATE_ACCESS`. -/
def autoRotateAccess : Int32 := 100

structure VaultKey where
  id : KeyId
  keyData : KeyData
  createdAt : UInt64
  expiresAt : UInt64
  isActive : Bool
  accessCount : Int32
deriving DecidableEq

/-- `keys` holds the first `key_count` entries of the array. -/
structure KeyVault where
  keys : List VaultKey
  isLocked : Bool
deriving DecidableEq

/-- The static variables of the file. -/
structure Globals where
  autoRotateThreshold : Int32
  masterKeyHash : KeyData
  masterKeySet : Bool
deriving DecidableEq

abbrev VaultId := Nat

structure State where
  globals : Globals
  vaults : VaultId → KeyVault

/-- What one call reads from outside: `later` is the second reading of the clock, for the rotation
inside `get_key`. -/
structure Env where
  now : UInt64
  later : UInt64
  randomId : KeyId
  randomKey : KeyData

/-- The return code and what is written to the out parameters. -/
structure Result where
  ret : Int
  keyId : Option KeyId := none
  keyOut : Option KeyData := none
deriving DecidableEq

def Result.error : Result := { ret := -1 }

def Result.ok : Result := { ret := 0 }

/-! ## Operations on one vault -/

/-- The test of the loops: `is_active` and equal ids. -/
def VaultKey.matches (keyId : KeyId) (k : VaultKey) : Bool :=
  k.isActive && k.id == keyId

def VaultKey.isExpired (k : VaultKey) (now : UInt64) : Bool :=
  0 < k.expiresAt && k.expiresAt < now

def VaultKey.rotate (k : VaultKey) (now : UInt64) (key : KeyData) : VaultKey :=
  { k with keyData := key, createdAt := now, accessCount := 0 }

/-- The successful branch of `get_key`: count the access and rotate at the threshold. -/
def VaultKey.access (k : VaultKey) (threshold : Int32) (env : Env) : VaultKey :=
  let k := { k with accessCount := k.accessCount + 1 }
  if 0 < threshold ∧ threshold ≤ k.accessCount then k.rotate env.later env.randomKey else k

def VaultKey.deactivate (k : VaultKey) : VaultKey := { k with isActive := false }

def VaultKey.revoke (k : VaultKey) : VaultKey :=
  { k with isActive := false, keyData := Vector.replicate 32 0 }

/-- The entry that `generate_key` fills. -/
def VaultKey.generate (env : Env) (ttlSeconds : UInt64) : VaultKey :=
  { id := env.randomId
    keyData := env.randomKey
    createdAt := env.now
    expiresAt := if 0 < ttlSeconds then env.now + ttlSeconds else 0
    isActive := true
    accessCount := 0 }

/-- The body of the loop of `get_key`, for the entry at which it stops. -/
def VaultKey.fetch (k : VaultKey) (threshold : Int32) (env : Env) : VaultKey × Result :=
  if k.isExpired env.now then (k.deactivate, .error)
  else (k.access threshold env, { ret := 0, keyOut := some k.keyData })

/-- The loops over the table: `f` is applied to the first entry that matches. -/
def onFirst (keyId : KeyId) (f : VaultKey → VaultKey × Result) :
    List VaultKey → List VaultKey × Result
  | [] => ([], .error)
  | k :: ks =>
    if k.matches keyId then ((f k).1 :: ks, (f k).2)
    else (k :: (onFirst keyId f ks).1, (onFirst keyId f ks).2)

/-- `get_key`, `rotate_key` and `revoke_key` are one loop behind the test of the lock. -/
def KeyVault.onKey (vault : KeyVault) (keyId : KeyId) (f : VaultKey → VaultKey × Result) :
    KeyVault × Result :=
  if vault.isLocked then (vault, .error)
  else
    ({ vault with keys := (onFirst keyId f vault.keys).1 }, (onFirst keyId f vault.keys).2)

/-- `SNEPPX_key_vault_generate_key`, the pointers being valid. -/
def generateKey (vault : KeyVault) (env : Env) (ttlSeconds : UInt64) : KeyVault × Result :=
  if vault.isLocked ∨ maxKeys ≤ vault.keys.length then (vault, .error)
  else
    ({ vault with keys := vault.keys ++ [VaultKey.generate env ttlSeconds] },
      { ret := vault.keys.length, keyId := some env.randomId })

/-- `SNEPPX_key_vault_get_key`, the pointers being valid. -/
def getKey (vault : KeyVault) (threshold : Int32) (env : Env) (keyId : KeyId) :
    KeyVault × Result :=
  vault.onKey keyId (VaultKey.fetch · threshold env)

/-- `SNEPPX_key_vault_rotate_key`, the pointers being valid. -/
def rotateKey (vault : KeyVault) (env : Env) (keyId : KeyId) : KeyVault × Result :=
  vault.onKey keyId fun k => (k.rotate env.now env.randomKey, .ok)

/-- `SNEPPX_key_vault_revoke_key`, the pointers being valid. -/
def revokeKey (vault : KeyVault) (keyId : KeyId) : KeyVault × Result :=
  vault.onKey keyId fun k => (k.revoke, .ok)

/-! ## Calls -/

inductive Call where
  | init (vault : Option VaultId)
  /-- `keyId` is false for a null pointer -/
  | generateKey (vault : Option VaultId) (keyId : Bool) (ttlSeconds : UInt64)
  /-- `keyOut` is false for a null pointer -/
  | getKey (vault : Option VaultId) (keyId : Option KeyId) (keyOut : Bool)
  | rotateKey (vault : Option VaultId) (keyId : Option KeyId)
  | revokeKey (vault : Option VaultId) (keyId : Option KeyId)
  | lock (vault : Option VaultId)
  | unlock (vault : Option VaultId) (masterKey : Option KeyData)
  | setAutoRotateThreshold (accessCount : Int32)
deriving DecidableEq

def State.put (s : State) (v : VaultId) (vault : KeyVault) : State :=
  { s with vaults := Function.update s.vaults v vault }

/-- Store the vault of an operation and return its result. -/
def State.after (s : State) (v : VaultId) (r : KeyVault × Result) : State × Result :=
  (s.put v r.1, r.2)

/-- `SNEPPX_key_vault_init` also resets the globals. -/
def keyVaultInit (s : State) (v : VaultId) : State :=
  { globals :=
      { s.globals with autoRotateThreshold := autoRotateAccess, masterKeySet := false }
    vaults := Function.update s.vaults v { keys := [], isLocked := true } }

/-- The comparison with the stored key, over `i < 32`. -/
def masterKeyDiffers (g : Globals) (masterKey : KeyData) : Bool :=
  (Lib.Bytes.xorBytes masterKey.toList g.masterKeyHash.toList).foldl (· ||| ·) 0 != 0

def setLocked (s : State) (v : VaultId) (locked : Bool) : State :=
  s.put v { s.vaults v with isLocked := locked }

/-- `SNEPPX_key_vault_unlock`: a given key is compared with the stored one if there is one, and
stored if there is none. -/
def unlock (s : State) (v : VaultId) (masterKey : Option KeyData) : State × Result :=
  match masterKey with
  | none => (setLocked s v false, .ok)
  | some key =>
    if s.globals.masterKeySet then
      if masterKeyDiffers s.globals key then (s, .error) else (setLocked s v false, .ok)
    else
      (setLocked { s with globals := { s.globals with
        masterKeyHash := key, masterKeySet := true } } v false, .ok)

/-- `SNEPPX_key_vault_set_auto_rotate_threshold`. -/
def setAutoRotateThreshold (s : State) (accessCount : Int32) : State × Result :=
  if accessCount < 0 then (s, .error)
  else ({ s with globals := { s.globals with autoRotateThreshold := accessCount } }, .ok)

/-- One call. A null vault, id or out pointer is an error that changes nothing. -/
def step (s : State) (env : Env) : Call → State × Result
  | .init (some v) => (keyVaultInit s v, .ok)
  | .generateKey (some v) true ttlSeconds =>
    s.after v (generateKey (s.vaults v) env ttlSeconds)
  | .getKey (some v) (some keyId) true =>
    s.after v (getKey (s.vaults v) s.globals.autoRotateThreshold env keyId)
  | .rotateKey (some v) (some keyId) => s.after v (rotateKey (s.vaults v) env keyId)
  | .revokeKey (some v) (some keyId) => s.after v (revokeKey (s.vaults v) keyId)
  | .lock (some v) => (setLocked s v true, .ok)
  | .unlock (some v) masterKey => unlock s v masterKey
  | .setAutoRotateThreshold n => setAutoRotateThreshold s n
  | _ => (s, .error)

def after (s : State) (c : Call × Env) : State := (step s c.2 c.1).1

/-- A call as it was made, with its result. -/
structure Entry where
  call : Call
  env : Env
  result : Result

/-- The state after a sequence of calls, and the log of the calls. -/
def run (s : State) : List (Call × Env) → State × List Entry
  | [] => (s, [])
  | (call, env) :: calls =>
    let rest := run (step s env call).1 calls
    (rest.1, ⟨call, env, (step s env call).2⟩ :: rest.2)

end SneppxAlg.Vault
