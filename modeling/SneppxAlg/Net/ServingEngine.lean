import SneppxAlg.Lib.CString

/-!
# `serving_engine.c`: model versions, traffic weights and batches

Clock readings, the modification time of the configuration file and its bytes are arguments. A string
in one of the fixed arrays of a model is the list of its bytes before the NUL; the ids of pending
requests are kept as bytes in memory, since their offsets matter. An access outside of an array, and
an `int` sum that overflows, give `none`. Metrics, probes and the HTTP handlers are left out.
-/

namespace SneppxAlg.Serving

open Lib.CString

abbrev Str := List UInt8

/-- `SNEPPX_SERVING_MAX_MODELS`. -/
def maxModels : ℕ := 64

/-- `SNEPPX_SERVING_MAX_VERSIONS`. -/
def maxVersions : ℕ := 8

/-- `SNEPPX_SERVING_MAX_ID_LEN`. -/
def maxIdLen : ℕ := 64

/-- The number of slots of `pending_keys`. -/
def slots : ℕ := 64

/-- `SNEPPX_ServingVersion`. -/
structure Version where
  versionId : Str
  description : Str
  weight : ℤ
  deployedAt : ℤ
deriving DecidableEq

/-- `SNEPPX_ServingModel`; the first `num_versions` versions. -/
structure Model where
  name : Str
  versions : List Version
  active : ℕ
deriving DecidableEq

/-- `SNEPPX_ServingEngine`. -/
structure Engine where
  maxBatchSize : ℤ
  batchTimeoutMs : ℤ
  nWorkers : ℤ
  warmupIters : ℤ
  models : List Model
  pendingKeys : Mem
  pendingCount : ℤ
  pendingFirstMs : ℤ
  batches : ℤ
  configPath : Str
  configMtime : ℤ

/-- `SNEPPX_serving_engine_create`. -/
def engineCreate : Engine where
  maxBatchSize := 8
  batchTimeoutMs := 5
  nWorkers := 1
  warmupIters := 0
  models := []
  pendingKeys := fun _ => 0
  pendingCount := 0
  pendingFirstMs := 0
  batches := 0
  configPath := []
  configMtime := 0

/-- `SNEPPX_serving_engine_configure`. -/
def configure (e : Engine) (maxBatchSize batchTimeoutMs nWorkers warmupIters : ℤ) : Engine :=
  { e with
    maxBatchSize := if maxBatchSize > 0 then maxBatchSize else e.maxBatchSize
    batchTimeoutMs := if batchTimeoutMs ≥ 0 then batchTimeoutMs else e.batchTimeoutMs
    nWorkers := if nWorkers > 0 then nWorkers else e.nWorkers
    warmupIters := if warmupIters ≥ 0 then warmupIters else e.warmupIters }

/-- What `set_str` leaves in an array of `n > 0` bytes. -/
def setStr (n : ℕ) (src : Str) : Str := src.take (n - 1)

/-- `SNEPPX_serving_set_config_path`. -/
def setConfigPath (e : Engine) (path : Str) : Engine :=
  { e with configPath := setStr 512 path, configMtime := 0 }

/-! ## Model registry -/

/-- `model_index`. -/
def modelIndex (e : Engine) (name : Str) : Option ℕ := e.models.findIdx? fun m => m.name == name

/-- `version_index`. -/
def versionIndex (m : Model) (versionId : Str) : Option ℕ :=
  m.versions.findIdx? fun v => v.versionId == versionId

def modifyModel (e : Engine) (i : ℕ) (f : Model → Model) : Engine :=
  { e with models := e.models.modify i f }

/-- All traffic on the version at an index. -/
def Model.promote (m : Model) (i : ℕ) : Model :=
  { m with
    active := i
    versions := m.versions.mapIdx fun j v => { v with weight := if j = i then 100 else 0 } }

/-- The second half of `register_model`: a new version of a model; none where it returns -1. -/
def Model.addVersion (m : Model) (versionId description : Str) (now : ℤ) : Option Model :=
  if m.versions.length ≥ maxVersions then none
  else if (versionIndex m versionId).isSome then none
  else
    let v : Version :=
      { versionId := setStr maxIdLen versionId
        description := setStr 256 description
        weight := if m.versions.length + 1 = 1 then 100 else 0
        deployedAt := now }
    some { m with
      versions := m.versions ++ [v]
      active := if m.versions.length + 1 = 1 then 0 else m.active }

/-- `SNEPPX_serving_register_model`. A new model stays even where its first version is refused. -/
def registerModel (e : Engine) (name versionId description : Str) (now : ℤ) : ℤ × Engine :=
  match modelIndex e name with
  | some i =>
    match (e.models[i]?).bind fun m => m.addVersion versionId description now with
    | some m => (0, modifyModel e i fun _ => m)
    | none => (-1, e)
  | none =>
    if e.models.length ≥ maxModels then (-1, e)
    else
      let m : Model := { name := setStr maxIdLen name, versions := [], active := 0 }
      match m.addVersion versionId description now with
      | some m => (0, { e with models := e.models ++ [m] })
      | none => (-1, { e with models := e.models ++ [m] })

def onVersion (e : Engine) (name versionId : Str) (f : ℕ → Model → Model) : ℤ × Engine :=
  match modelIndex e name with
  | none => (-1, e)
  | some i =>
    match (e.models[i]?).bind fun m => versionIndex m versionId with
    | none => (-1, e)
    | some j => (0, modifyModel e i (f j))

/-- `SNEPPX_serving_set_active_version`. -/
def setActiveVersion (e : Engine) (name versionId : Str) : ℤ × Engine :=
  onVersion e name versionId fun j m => m.promote j

def Model.withWeight (m : Model) (j : ℕ) (weight : ℤ) : Model :=
  { m with versions := m.versions.modify j fun v => { v with weight := weight } }

/-- `SNEPPX_serving_set_weight`. -/
def setWeight (e : Engine) (name versionId : Str) (weight : ℤ) : ℤ × Engine :=
  let weight := if weight < 0 then 0 else weight
  let weight := if weight > 100 then 100 else weight
  onVersion e name versionId fun j m => m.withWeight j weight

/-- The body of `rollback` for a model with at least two versions. -/
def Model.rollback (m : Model) : Model :=
  let versions := m.versions.dropLast
  Model.promote { m with versions := versions } (if m.active ≥ versions.length then 0 else m.active)

/-- `SNEPPX_serving_rollback`. -/
def rollback (e : Engine) (name : Str) : ℤ × Engine :=
  match modelIndex e name with
  | none => (-1, e)
  | some i =>
    match e.models[i]? with
    | none => (-1, e)
    | some m => if m.versions.length < 2 then (-1, e) else (0, modifyModel e i Model.rollback)

/-! ## Routing -/

/-- `fnv1a64`. -/
def fnv1a64 (s : Str) : UInt64 :=
  s.foldl (fun h b => (h ^^^ b.toUInt64) * 1099511628211) 1469598103934665603

/-- A sum of two `int`s. -/
def addInt (a b : ℤ) : Option ℤ := if -2 ^ 31 ≤ a + b ∧ a + b < 2 ^ 31 then some (a + b) else none

/-- The second loop of `route`: the first version at which the running sum `cum` reaches `r`. -/
def routeLoop (r : ℤ) : List Version → ℕ → ℤ → Option (Option ℕ)
  | [], _, _ => some none
  | v :: vs, i, cum => do
    let cum ← addInt cum v.weight
    if r ≤ cum then some (some i) else routeLoop r vs (i + 1) cum

/-- The index of the version that `route` selects for a hash. -/
def routeIndex (m : Model) (h : UInt64) : Option ℕ := do
  let total ← m.versions.foldlM (fun total v => addInt total v.weight) 0
  if total ≤ 0 then some m.active
  else
    let r := h.toNat % total + 1
    let i ← routeLoop r m.versions 0 0
    some (i.getD m.active)

/-- `SNEPPX_serving_route`: the status and `out_version`. -/
def route (e : Engine) (name : Str) (requestId : Option Str) : Option (ℤ × Option Str) :=
  match (modelIndex e name).bind fun i => e.models[i]? with
  | none => some (-1, none)
  | some m => do
    let i ← routeIndex m (fnv1a64 (requestId.getD [48]))
    let v ← m.versions[i]?
    some (0, some (setStr maxIdLen v.versionId))

/-! ## Configuration file -/

/-- The lines that `fgets` reads into a buffer of 512 bytes. -/
def fgetsLines : Str → Str → List Str
  | [], line => if line = [] then [] else [line]
  | b :: content, line =>
    if b = 10 ∨ line.length + 1 = 511 then (line ++ [b]) :: fgetsLines content []
    else fgetsLines content (line ++ [b])

/-- A space or a tab. -/
def isBlank (b : UInt8) : Bool := b == 32 || b == 9

/-- `trim`. -/
def trim (s : Str) : Str :=
  (s.dropWhile isBlank).rdropWhile fun b => isBlank b || b == 13 || b == 10

/-- `isspace`. -/
def isSpace (b : UInt8) : Bool := b == 32 || (9 ≤ b && b ≤ 13)

/-- `isdigit`. -/
def isDigit (b : UInt8) : Bool := 48 ≤ b && b ≤ 57

def decimal (digits : Str) : ℤ := digits.foldl (fun v b => 10 * v + (b.toNat - 48 : ℤ)) 0

/-- `strtol` with base 10 and a 64-bit `long`: none if there are no digits. -/
def strtol (s : Str) : Option ℤ :=
  let s := s.dropWhile isSpace
  let (neg, s) := match s with
    | 45 :: s => (true, s)
    | 43 :: s => (false, s)
    | s => (false, s)
  let digits := s.takeWhile isDigit
  if digits = [] then none
  else
    let v := if neg then -decimal digits else decimal digits
    some (max (-2 ^ 63) (min v (2 ^ 63 - 1)))

/-- `parse_int_scalar`; the value wraps to an `int`. -/
def parseIntScalar (s : Str) (dflt : ℤ) : ℤ :=
  match strtol s with
  | some v => Int.bmod v (2 ^ 32)
  | none => dflt

/-- What a line of the configuration file says. -/
inductive Setting where
  | none
  | maxBatchSize (val : Str)
  | batchTimeoutMs (val : Str)
  | nWorkers (val : Str)
  | warmupIters (val : Str)
  | canary (name : Str) (weight : ℤ)
deriving DecidableEq

def beforeLastDot (s : Str) : Option Str :=
  if (46 : UInt8) ∈ s then some ((s.rdropWhile (· != 46)).dropLast) else none

/-- The key and the value of a line; a value that does not fit into `val` is out of bounds. -/
def parseKeyVal (key val : Str) : Setting :=
  if key = "serving.max_batch_size".toUTF8.toList then .maxBatchSize val
  else if key = "serving.batch_timeout_ms".toUTF8.toList then .batchTimeoutMs val
  else if key = "serving.n_workers".toUTF8.toList then .nWorkers val
  else if key = "serving.warmup_iters".toUTF8.toList then .warmupIters val
  else if key.take 6 = "model.".toUTF8.toList ∧ val ≠ [] then
    match beforeLastDot (key.drop 6) with
    | some name => .canary name (parseIntScalar val (-1))
    | none => .none
  else .none

/-- A line of the configuration file, as `config_reload` takes it apart. -/
def parseLine (line : Str) : Option Setting :=
  let p := (line.takeWhile (· != 0)).dropWhile isBlank
  match p with
  | [] => some .none
  | b :: _ =>
    if b = 35 ∨ b = 10 ∨ b = 13 then some .none
    else
      let p := p.rdropWhile fun b => b == 10 || b == 13
      if (58 : UInt8) ∈ p then
        let key := (p.takeWhile (· != 58)).take 255
        let val := (p.dropWhile (· != 58)).drop 1
        if val.length + 1 > 256 then none else some (parseKeyVal (trim key) (trim val))
      else some .none

/-- The effect of a line, and whether it sets `changed`. -/
def applySetting (e : Engine) : Setting → Engine × Bool
  | .none => (e, false)
  | .maxBatchSize val => ({ e with maxBatchSize := parseIntScalar val e.maxBatchSize }, true)
  | .batchTimeoutMs val => ({ e with batchTimeoutMs := parseIntScalar val e.batchTimeoutMs }, true)
  | .nWorkers val => ({ e with nWorkers := parseIntScalar val e.nWorkers }, true)
  | .warmupIters val => ({ e with warmupIters := parseIntScalar val e.warmupIters }, true)
  | .canary name weight =>
    match modelIndex e name with
    | none => (e, false)
    | some i =>
      if weight ≥ 0 then (modifyModel e i fun m => m.withWeight m.active weight, true)
      else (e, false)

/-- The loop of `config_reload` over the lines of the file. -/
def reloadLoop : List Str → Engine → Bool → Option (Engine × Bool)
  | [], e, changed => some (e, changed)
  | line :: lines, e, changed => do
    let setting ← parseLine line
    let (e, c) := applySetting e setting
    reloadLoop lines e (changed || c)

/-- `SNEPPX_serving_config_reload`, given the modification time (0 if there is no file) and the bytes
of the file, if it opens. -/
def configReload (e : Engine) (mtime : ℤ) (content : Option Str) : Option (ℤ × Engine) :=
  if e.configPath = [] then some (0, e)
  else if mtime = 0 then some (0, e)
  else if mtime = e.configMtime then some (0, e)
  else
    let e := { e with configMtime := mtime }
    match content with
    | none => some (-1, e)
    | some content => do
      let (e, changed) ← reloadLoop (fgetsLines content []) e false
      some (if changed then 1 else 0, e)

/-! ## Dynamic batching -/

/-- The write of `batch_submit`, if there is a free slot. -/
def storeKey (keys : Mem) (count : ℤ) (requestId : Str) : Option Mem :=
  if count < slots then
    if 0 ≤ count then some (writeStr keys (count.toNat * maxIdLen) (setStr maxIdLen requestId))
    else none
  else some keys

/-- `SNEPPX_serving_batch_submit`, with the clock. -/
def batchSubmit (e : Engine) (requestId : CStr) (now : ℤ) : Option (ℤ × Engine) := do
  let first := if e.pendingCount = 0 then now else e.pendingFirstMs
  let keys ← storeKey e.pendingKeys e.pendingCount requestId.bytes
  let count ← addInt e.pendingCount 1
  some (count, { e with pendingKeys := keys, pendingCount := count, pendingFirstMs := first })

def Ready (e : Engine) (now : ℤ) : Prop :=
  e.pendingCount ≥ e.maxBatchSize ∨
    (e.pendingCount > 0 ∧ now - e.pendingFirstMs ≥ e.batchTimeoutMs)

instance (e : Engine) (now : ℤ) : Decidable (Ready e now) :=
  inferInstanceAs (Decidable (_ ∨ _))

/-- The string in a slot of `pending_keys`. -/
def readKey (keys : Mem) (i : ℕ) : Option Str :=
  (readStr keys (i * maxIdLen) ((slots - i) * maxIdLen)).map (setStr maxIdLen)

/-- The move of the ids that `batch_drain` leaves. -/
def shiftKeys (keys : Mem) (n left : ℤ) : Option Mem :=
  if left > 0 then
    if 0 ≤ n ∧ n + left ≤ slots then
      some (moveBytes keys 0 (n.toNat * maxIdLen) (left.toNat * maxIdLen))
    else none
  else some keys

/-- `SNEPPX_serving_batch_drain`, with the clock: the status, `out_ids` and the engine. -/
def batchDrain (e : Engine) (max now : ℤ) : Option (ℤ × List Str × Engine) :=
  if Ready e now then do
    let n := if e.pendingCount > max then max else e.pendingCount
    let ids ← (List.range n.toNat).mapM (readKey e.pendingKeys)
    let left := e.pendingCount - n
    let keys ← shiftKeys e.pendingKeys n left
    some (1, ids, { e with
      pendingKeys := keys
      pendingCount := left
      pendingFirstMs := if left = 0 then 0 else e.pendingFirstMs
      batches := e.batches + 1 })
  else some (0, [], e)

end SneppxAlg.Serving
