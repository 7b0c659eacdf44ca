import Mathlib.Data.List.Iterate
import Mathlib.Data.Vector.Basic
import Mathlib.Logic.Function.Iterate

/-!
# The random bit generator

`security/crypto/c/drbg.c`: a state `V` from which the blocks of an output are hashed, a constant `C`, and
a counter of calls. After each call `V` should have moved on to a value that no call has started from.

It is moved by `V ^= hash(C)`, and `C` never changes. So the next call moves it back, and the third starts
where the first did (`step_involutive`). A sequence of calls keeps its starting values apart only if it has
at most two calls (`separates_iff`).

The hash is an arbitrary function. The generator runs in a state monad that holds the inputs it has been
called on so far. Pointers are taken as given, except for the nonce.
-/

namespace SneppxAlg.Drbg

abbrev Digest := Vector UInt8 32

/-- `uint8_t[SNEPPX_DRBG_SEED_SIZE]`. -/
abbrev Seed := Vector UInt8 48

/-- `SNEPPX_DRBG_MAX_OUTPUT`. -/
def maxOutput : ℕ := 65536

/-- The fields of `SNEPPXHashDRBG` that are read. -/
structure HashDrbg where
  v : Seed
  c : Seed
  reseedCounter : ℕ
  initialized : Bool

/-- What the hash has been called on. -/
abbrev Logged := StateM (List (List UInt8))

variable (hash : List UInt8 → Digest)

/-- `sha256_f`. -/
def sha256F (x : List UInt8) : Logged Digest := do
  modify (x :: ·)
  return hash x

/-- `memcpy(buf, h, 32)`. -/
def overwrite (h : Digest) (buf : Seed) : Seed :=
  Vector.ofFn fun i => if hi : i < 32 then h[i] else buf[i]

def seedBytes (entropy : List UInt8) (nonce : Option (List UInt8)) : List UInt8 :=
  let copied := entropy.take 48
  copied ++ (nonce.getD []).take (48 - copied.length)

def seedBuffer (bytes : List UInt8) : Seed := Vector.ofFn fun i => bytes.getD i 0

/-- `V` and `C` as `SNEPPX_drbg_init` sets them. -/
def initV (entropy : List UInt8) (nonce : Option (List UInt8)) : Seed :=
  overwrite (hash (seedBytes entropy nonce)) (seedBuffer (seedBytes entropy nonce))

def initC (entropy : List UInt8) (nonce : Option (List UInt8)) : Seed :=
  overwrite (hash (initV hash entropy nonce).toList) (Vector.replicate 48 0)

/-- `SNEPPX_drbg_init`. -/
def drbgInit (entropy : List UInt8) (nonce : Option (List UInt8)) : Logged (Option HashDrbg) :=
  if entropy.length < 32 then return none
  else do
    let bytes := seedBytes entropy nonce
    let h ← sha256F hash bytes
    let v := overwrite h (seedBuffer bytes)
    let h ← sha256F hash v.toList
    return some
      { v, c := overwrite h (Vector.replicate 48 0), reseedCounter := 1, initialized := true }

/-- The loop of `SNEPPX_drbg_generate` over the bytes that are still to come. -/
def fill : ℕ → Seed → Logged (List UInt8)
  | 0, _ => return []
  | n + 1, v => do
    let h ← sha256F hash v.toList
    let v := overwrite h v
    let rest ← fill (n + 1 - 32) v
    return v.toList.take (min (n + 1) 32) ++ rest

/-- `v[i] ^= hash[i % 32]`. -/
def mix (h : Digest) (v : Seed) : Seed := Vector.ofFn fun i => v[i] ^^^ h[(i : ℕ) % 32]

/-- `SNEPPX_drbg_generate`: the bytes, if it returns 0, and the state it leaves. -/
def drbgGenerate (ctx : HashDrbg) (outLen : ℕ) : Logged (Option (List UInt8) × HashDrbg) :=
  if !ctx.initialized || maxOutput < outLen then return (none, ctx)
  else if 10000 < ctx.reseedCounter then return (none, ctx)
  else do
    let out ← fill hash outLen ctx.v
    let h ← sha256F hash ctx.c.toList
    return (some out, { ctx with v := mix h ctx.v, reseedCounter := ctx.reseedCounter + 1 })

/-- A call of `SNEPPX_drbg_generate`: the value it starts from, the number of bytes, and the bytes. -/
structure Call where
  start : Seed
  outLen : ℕ
  out : Option (List UInt8)

def generateAll (ctx : HashDrbg) : List ℕ → Logged (List Call)
  | [] => return []
  | n :: rest => do
    let (out, ctx') ← drbgGenerate hash ctx n
    let later ← generateAll ctx' rest
    return ⟨ctx.v, n, out⟩ :: later

/-- A fresh generator and calls that ask it for the given numbers of bytes. -/
def session (entropy : List UInt8) (nonce : Option (List UInt8)) (lengths : List ℕ) :
    Logged (List Call) := do
  match ← drbgInit hash entropy nonce with
  | none => return []
  | some ctx => generateAll hash ctx lengths

/-- The values that the calls which are not refused start from. -/
def starts (calls : List Call) : List Seed := calls.filterMap fun c => c.out.map fun _ => c.start

/-- Two different inputs that the hash has been called on have the same digest. -/
def Collides (inputs : List (List UInt8)) : Prop :=
  ∃ x ∈ inputs, ∃ y ∈ inputs, x ≠ y ∧ hash x = hash y

instance (inputs : List (List UInt8)) : Decidable (Collides hash inputs) :=
  inferInstanceAs (Decidable (∃ x ∈ inputs, ∃ y ∈ inputs, x ≠ y ∧ hash x = hash y))

/-- No two calls start from the same value, unless the hash has collided. -/
def Separates (entropy : List UInt8) (nonce : Option (List UInt8)) (lengths : List ℕ) : Prop :=
  let run := (session hash entropy nonce lengths).run []
  (starts run.1).Nodup ∨ Collides hash run.2

/-! ## The state is moved back and forth -/

variable {hash}

theorem mix_involutive (h : Digest) : Function.Involutive (mix h) := by
  intro v
  ext i hi
  simp [mix, UInt8.xor_assoc]

theorem mix_eq_self_iff {h : Digest} {v : Seed} : mix h v = v ↔ h = Vector.replicate 32 0 := by
  constructor
  · intro heq
    ext i hi
    have hbyte : v[i] ^^^ h[i] = v[i] := by
      calc v[i] ^^^ h[i] = (mix h v)[i] := by simp [mix, Nat.mod_eq_of_lt hi]
        _ = v[i] := by rw [heq]
    have hzero : h[i] = v[i] ^^^ (v[i] ^^^ h[i]) := by
      rw [← UInt8.xor_assoc, UInt8.xor_self, UInt8.zero_xor]
    rw [hzero, hbyte, UInt8.xor_self, Vector.getElem_replicate]
  · rintro rfl
    ext i hi
    simp [mix]

theorem iterate_nodup_iff {α : Type*} {f : α → α} (hf : Function.Involutive f) (a : α) (k : ℕ) :
    (List.iterate f a k).Nodup ↔ k ≤ 1 ∨ k = 2 ∧ f a ≠ a := by
  match k with
  | 0 => simp
  | 1 => simp
  | 2 => simp [eq_comm]
  | k + 3 => simp [hf a]

/-! ## Runs -/

/-- The length of a call that is not refused for it. -/
def fits (n : ℕ) : Bool := decide (n ≤ maxOutput)

/-- The state that a call which is not refused leaves. -/
def HashDrbg.next (hash : List UInt8 → Digest) (ctx : HashDrbg) : HashDrbg :=
  { ctx with v := mix (hash ctx.c.toList) ctx.v, reseedCounter := ctx.reseedCounter + 1 }

variable {ctx : HashDrbg} {n : ℕ}

@[simp] theorem next_v : (ctx.next hash).v = mix (hash ctx.c.toList) ctx.v := by rw [HashDrbg.next]

@[simp] theorem next_c : (ctx.next hash).c = ctx.c := by rw [HashDrbg.next]

@[simp] theorem next_reseedCounter : (ctx.next hash).reseedCounter = ctx.reseedCounter + 1 := by
  rw [HashDrbg.next]

@[simp] theorem next_initialized : (ctx.next hash).initialized = ctx.initialized := by rw [HashDrbg.next]

theorem refused_of_not_accepted (h : ¬ (fits n = true ∧ ctx.reseedCounter ≤ 10000)) :
    fits n = false ∨ 10000 < ctx.reseedCounter := by
  by_cases hn : fits n = true
  · exact Or.inr (Nat.lt_of_not_le fun hcount => h ⟨hn, hcount⟩)
  · exact Or.inl (by simpa using hn)

theorem drbgGenerate_refused (h : fits n = false ∨ 10000 < ctx.reseedCounter)
    (inputs : List (List UInt8)) : (drbgGenerate hash ctx n).run inputs = ((none, ctx), inputs) := by
  unfold drbgGenerate
  split_ifs with h1 h2
  · rfl
  · rfl
  · rcases h with h | h
    · simp [fits] at h
      simp at h1
      omega
    · exact absurd h h2

theorem fill_zero (v : Seed) (inputs : List (List UInt8)) : (fill hash 0 v).run inputs = ([], inputs) := by
  rw [fill]
  rfl

theorem fill_succ (v : Seed) (inputs : List (List UInt8)) :
    (fill hash (n + 1) v).run inputs =
      let v' := overwrite (hash v.toList) v
      let r := (fill hash (n + 1 - 32) v').run (v.toList :: inputs)
      (v'.toList.take (min (n + 1) 32) ++ r.1, r.2) := by
  rw [fill]
  rfl

/-- The bytes of a call. -/
def output (hash : List UInt8 → Digest) (n : ℕ) (v : Seed) : List UInt8 := ((fill hash n v).run []).1

/-- They do not depend on what the hash has been called on before. -/
theorem fill_fst (v : Seed) (inputs : List (List UInt8)) :
    ((fill hash n v).run inputs).1 = output hash n v := by
  unfold output
  generalize ([] : List (List UInt8)) = inputs'
  induction n, v using fill.induct generalizing inputs inputs' with
  | case1 v => rw [fill_zero, fill_zero]
  | case2 n v ih =>
    rw [fill_succ, fill_succ]
    exact congrArg ((overwrite (hash v.toList) v).toList.take (min (n + 1) 32) ++ ·)
      (ih (hash v.toList) _ _)

theorem drbgGenerate_accepted (hinit : ctx.initialized = true) (hn : fits n = true)
    (hcount : ctx.reseedCounter ≤ 10000) (inputs : List (List UInt8)) :
    (drbgGenerate hash ctx n).run inputs =
      ((some (output hash n ctx.v), ctx.next hash),
        ctx.c.toList :: ((fill hash n ctx.v).run inputs).2) := by
  have h1 : ¬ ((!ctx.initialized || decide (maxOutput < n)) = true) := by
    simp only [fits, decide_eq_true_eq] at hn
    simp [hinit, hn]
  rw [drbgGenerate, if_neg h1, if_neg (by omega)]
  rw [← fill_fst ctx.v inputs]
  rfl

theorem generateAll_cons (rest : List ℕ) (inputs : List (List UInt8)) :
    (generateAll hash ctx (n :: rest)).run inputs =
      let r := (drbgGenerate hash ctx n).run inputs
      let later := (generateAll hash r.1.2 rest).run r.2
      (⟨ctx.v, n, r.1.1⟩ :: later.1, later.2) := rfl

theorem starts_cons_some (v : Seed) (out : List UInt8) (calls : List Call) :
    starts (⟨v, n, some out⟩ :: calls) = v :: starts calls := rfl

theorem starts_cons_none (v : Seed) (calls : List Call) : starts (⟨v, n, none⟩ :: calls) = starts calls := rfl

/-- The calls start from `V` and from what it is moved to in turn, until the counter is used up. -/
theorem starts_generateAll (hinit : ctx.initialized = true) (lengths : List ℕ)
    (inputs : List (List UInt8)) :
    starts ((generateAll hash ctx lengths).run inputs).1 =
      List.iterate (mix (hash ctx.c.toList)) ctx.v
        (min (lengths.countP fits) (10001 - ctx.reseedCounter)) := by
  induction lengths generalizing ctx inputs with
  | nil => rfl
  | cons n rest ih =>
    rw [generateAll_cons]
    by_cases haccept : fits n = true ∧ ctx.reseedCounter ≤ 10000
    · obtain ⟨hn, hcount⟩ := haccept
      have hleft : min ((n :: rest).countP fits) (10001 - ctx.reseedCounter) =
          min (rest.countP fits) (10001 - (ctx.reseedCounter + 1)) + 1 := by
        rw [List.countP_cons_of_pos hn]
        omega
      simp only [drbgGenerate_accepted hinit hn hcount]
      rw [hleft, List.iterate, starts_cons_some, @ih (ctx.next hash) (by simpa using hinit), next_v, next_c,
        next_reseedCounter]
    · have hrefused := refused_of_not_accepted haccept
      have hleft : min ((n :: rest).countP fits) (10001 - ctx.reseedCounter) =
          min (rest.countP fits) (10001 - ctx.reseedCounter) := by
        rcases hrefused with hn | hcount
        · rw [List.countP_cons_of_neg (by simp [hn])]
        · omega
      simp only [drbgGenerate_refused hrefused]
      rw [hleft, starts_cons_none]
      exact ih hinit _

/-- Calls that start from the same value give the same bytes, as far as both ask for them. -/
theorem out_generateAll (hinit : ctx.initialized = true) (lengths : List ℕ) (inputs : List (List UInt8)) :
    ∀ c ∈ ((generateAll hash ctx lengths).run inputs).1,
      c.out = none ∨ c.out = some (output hash c.outLen c.start) := by
  induction lengths generalizing ctx inputs with
  | nil => exact fun c hc => absurd hc List.not_mem_nil
  | cons n rest ih =>
    intro c hc
    rw [generateAll_cons] at hc
    by_cases haccept : fits n = true ∧ ctx.reseedCounter ≤ 10000
    · simp only [drbgGenerate_accepted hinit haccept.1 haccept.2] at hc
      rcases List.mem_cons.mp hc with rfl | hmem
      · exact Or.inr rfl
      · exact @ih (ctx.next hash) (by simpa using hinit) _ c hmem
    · simp only [drbgGenerate_refused (refused_of_not_accepted haccept)] at hc
      rcases List.mem_cons.mp hc with rfl | hmem
      · exact Or.inl rfl
      · exact ih hinit _ c hmem

theorem session_run {entropy : List UInt8} (h : 32 ≤ entropy.length) (nonce : Option (List UInt8))
    (lengths : List ℕ) :
    (session hash entropy nonce lengths).run [] =
      (generateAll hash
        { v := initV hash entropy nonce, c := initC hash entropy nonce, reseedCounter := 1,
          initialized := true } lengths).run
        [(initV hash entropy nonce).toList, seedBytes entropy nonce] := by
  rw [session, drbgInit, if_neg (by omega)]
  rfl

/-- For every hash, entropy, nonce and lengths. -/
theorem separates_iff {entropy : List UInt8} (h : 32 ≤ entropy.length) (nonce : Option (List UInt8))
    (lengths : List ℕ) :
    Separates hash entropy nonce lengths ↔
      (lengths.countP fits ≤ 1 ∨
        lengths.countP fits = 2 ∧ hash (initC hash entropy nonce).toList ≠ Vector.replicate 32 0) ∨
      Collides hash ((session hash entropy nonce lengths).run []).2 := by
  have hstarts : (starts ((session hash entropy nonce lengths).run []).1).Nodup ↔
      lengths.countP fits ≤ 1 ∨
        lengths.countP fits = 2 ∧ hash (initC hash entropy nonce).toList ≠ Vector.replicate 32 0 := by
    rw [session_run h, starts_generateAll rfl, iterate_nodup_iff (mix_involutive _), Ne, mix_eq_self_iff]
    dsimp only
    constructor
    · rintro (hle | ⟨htwo, hzero⟩)
      · exact Or.inl (by omega)
      · exact Or.inr ⟨by omega, hzero⟩
    · rintro (hle | ⟨htwo, hzero⟩)
      · exact Or.inl (by omega)
      · exact Or.inr ⟨by omega, hzero⟩
  rw [Separates, hstarts]

/-- Two calls, with a hash that gives ones. -/
theorem separates_twoCalls :
    Separates (fun _ => Vector.replicate 32 1) (List.replicate 32 0x12) none [64, 16] :=
  (separates_iff (by decide) none [64, 16]).mpr (Or.inl (Or.inr ⟨by decide, by decide⟩))

/-- A hash that gives the first byte and one, 32 times. -/
def countUp (x : List UInt8) : Digest := Vector.replicate 32 (x.headD 0 + 1)

theorem inputs_oneByte (hinit : ctx.initialized = true) (hcount : ctx.reseedCounter ≤ 10000)
    (rest : List ℕ) (inputs : List (List UInt8)) :
    ((generateAll hash ctx (1 :: rest)).run inputs).2 =
      ((generateAll hash (ctx.next hash) rest).run (ctx.c.toList :: ctx.v.toList :: inputs)).2 := by
  have hfill : ((fill hash 1 ctx.v).run inputs).2 = ctx.v.toList :: inputs := by
    simp only [fill_succ, Nat.reduceAdd, Nat.reduceSub, fill_zero]
  rw [generateAll_cons, drbgGenerate_accepted hinit rfl hcount, hfill]

/-- The third call starts where the first did. -/
theorem not_separates_threeCalls :
    ¬ Separates countUp (List.replicate 32 0x12) none [1, 1, 1] := by
  rw [separates_iff (by decide), session_run (by decide), inputs_oneByte rfl (by decide),
    inputs_oneByte rfl (by simp), inputs_oneByte rfl (by simp)]
  rintro (hfew | hcollides)
  · revert hfew
    decide
  · revert hcollides
    decide +kernel

end SneppxAlg.Drbg
