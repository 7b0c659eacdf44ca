import SneppxAlg.Drivers.ZkBignum
import Mathlib.Data.ZMod.Basic
import Mathlib.GroupTheory.OrderOfElement
import Mathlib.Tactic.ReduceModChar

/-!
# `zk_proof.c`: proofs of knowledge of a logarithm

The group is that of the units modulo `2 ^ 255 - 19`, with 2 as the base. A public key is a power of
2, and a proof is a power `R` of 2 with a random exponent, followed by the response to the challenge
that the hash of `R`, of the key and of the message is.

`verify_prove` says that the verifier accepts what the prover computes. It needs the exactness of the
arithmetic and that exponents count modulo `2 ^ 255 - 20`; the latter is a computation, the modulus
need not be known to be prime.

The hash is a parameter. A pointer that is checked but not optional is taken as present, and the
prover's reduced challenge, which it does not use, is left out.
-/

namespace SneppxAlg.Zk

open Lib.WordArray

/-! ## Bytes -/

/-- The four bytes that `bn_store` writes for a word. -/
def wordBytes (v : UInt32) : List UInt8 :=
  [v.toUInt8, (v >>> 8).toUInt8, (v >>> 16).toUInt8, (v >>> 24).toUInt8]

def bnLoad (b : List UInt8) : Words := fun i =>
  (b.getD (4 * i) 0).toUInt32 ||| (b.getD (4 * i + 1) 0).toUInt32 <<< 8 |||
    (b.getD (4 * i + 2) 0).toUInt32 <<< 16 ||| (b.getD (4 * i + 3) 0).toUInt32 <<< 24

def bnStore (x : Words) : List UInt8 := ((List.range BNW).map x).flatMap wordBytes

/-! ## The generator -/

/-- `g_rng`. -/
structure Rng where
  g0 : UInt32
  g1 : UInt32
  g2 : UInt32
  g3 : UInt32
  deriving DecidableEq

/-- The value that `g_rng` has at the start of the program. -/
def Rng.start : Rng := ⟨0x9E3779B9, 0x243F6A88, 0xB7E15162, 0x1B873593⟩

def rngSeed (t : UInt32) (g : Rng) : Rng where
  g0 := g.g0 ^^^ t
  g1 := g.g1 ^^^ (t * 2654435761 + 1)
  g2 := g.g2 ^^^ (t ^^^ 0x85EBCA6B)
  g3 := g.g3 ^^^ (t * 40503 + 7)

/-- `rng_u32`: the state that it leaves; it returns the first word of it. -/
def rngU32 (g : Rng) : Rng :=
  let s := g.g3 ^^^ g.g3 <<< 11
  let s := s ^^^ s >>> 8
  let r := g.g0
  ⟨r ^^^ (s ^^^ s >>> 19 ^^^ r >>> 5), r, g.g1, g.g2⟩

/-- The words that the generator returns next. -/
def draw : ℕ → Rng → List UInt32
  | 0, _ => []
  | n + 1, g => (rngU32 g).g0 :: draw n (rngU32 g)

/-- `bn_rand_mod`, given up after `fuel` turns: the number, and the state of the generator. -/
def bnRandMod (m : Words) : ℕ → Rng → Option (Words × Rng)
  | 0, _ => none
  | fuel + 1, g =>
    let buf := (draw BNW g).flatMap wordBytes
    let g := rngU32^[BNW] g
    let r := bnMod (widen (bnLoad buf)) m
    if hiBit r BNW ≥ 0 ∧ bnCmp r m < 0 then some (r, g) else bnRandMod m fuel g

/-! ## The protocol -/

/-- `ZK_P`. -/
def zkP : Words := fun i =>
  [0xFFFFFFED, 0xFFFFFFFF, 0xFFFFFFFF, 0xFFFFFFFF, 0xFFFFFFFF, 0xFFFFFFFF, 0xFFFFFFFF,
    0x7FFFFFFF].getD i 0

/-- `ZK_G`. -/
def zkG : Words := fun i => [2].getD i 0

/-- The variables of the file: `ZK_ORD` and `g_rng`. -/
structure State where
  ord : Words
  rng : Rng

def State.start : State := ⟨fun _ => 0, Rng.start⟩

def zkInit (time : UInt32) (s : State) : State :=
  { ord := bnSub zkP (bnSetU32 1), rng := rngSeed time s.rng }

/-- The secret exponent, from the first 32 bytes of the secret. -/
def secretExponent (s : State) (secret : List UInt8) : Words :=
  bnMod (widen (bnLoad ((secret.take 32).rightpad 32 0))) s.ord

def zkKeygen (s : State) (secret : List UInt8) : List UInt8 :=
  bnStore (modexp zkG (secretExponent s secret) zkP)

variable (sha256 : List UInt8 → List UInt8)

/-- The challenge for the commitment with the bytes `Rb`. -/
def challenge (Rb pub : List UInt8) (msg : Option (List UInt8)) : Words :=
  bnLoad (sha256 (Rb ++ pub ++ msg.getD []))

def zkProve (s : State) (secret : List UInt8) (pub msg : Option (List UInt8)) (fuel : ℕ) :
    Option (List UInt8 × State) :=
  (bnRandMod s.ord fuel s.rng).map fun (r, rng) =>
    let xr := secretExponent s secret
    let Rb := bnStore (modexp zkG r zkP)
    let e := challenge sha256 Rb (pub.getD []) msg
    let ex := modmul e xr s.ord
    (Rb ++ bnStore (modadd r ex s.ord), { s with rng := rng })

def zkVerify (s : State) (pub : List UInt8) (msg : Option (List UInt8)) (proof : List UInt8) : ℤ :=
  if proof.length ≠ 64 then -1
  else
    let R := bnLoad proof
    let resp := bnLoad (proof.drop 32)
    let er := bnMod (widen (challenge sha256 (bnStore R) pub msg)) s.ord
    let lhs := modexp zkG resp zkP
    let rhs := modmul R (modexp (bnLoad pub) er zkP) zkP
    if bnCmp lhs rhs = 0 then 0 else -1

/-! ## Loads and stores -/

section Bytes

variable {x y : Words}

/-- A byte of a number, put back where it was. -/
theorem testBit_byte (n k j : ℕ) (hk : k ≤ 24) :
    ((n >>> k % 2 ^ 8) <<< k % 2 ^ 32).testBit j = (decide (k ≤ j ∧ j < k + 8) && n.testBit j) := by
  rw [Nat.testBit_mod_two_pow, Nat.testBit_shiftLeft, Nat.testBit_mod_two_pow, Nat.testBit_shiftRight]
  by_cases h : k ≤ j ∧ j < k + 8
  · simp [h, show j < 32 by omega, show j - k < 8 by omega, show k + (j - k) = j by omega]
  · rcases Nat.lt_or_ge j k with hlt | hge
    · simp [show ¬ k ≤ j by omega]
    · simp [h, show ¬ j - k < 8 by omega]

theorem word_of_wordBytes (v : UInt32) :
    v.toUInt8.toUInt32 ||| (v >>> 8).toUInt8.toUInt32 <<< 8 |||
      (v >>> 16).toUInt8.toUInt32 <<< 16 ||| (v >>> 24).toUInt8.toUInt32 <<< 24 = v := by
  have hlt := v.toNat_lt
  apply UInt32.toNat_inj.mp
  apply Nat.eq_of_testBit_eq
  intro j
  have h0 := testBit_byte v.toNat 0 j (by decide)
  have h1 := testBit_byte v.toNat 8 j (by decide)
  have h2 := testBit_byte v.toNat 16 j (by decide)
  have h3 := testBit_byte v.toNat 24 j (by decide)
  have hlow : v.toNat % 2 ^ 8 = (v.toNat >>> 0 % 2 ^ 8) <<< 0 % 2 ^ 32 := by
    simp only [Nat.shiftRight_zero, Nat.shiftLeft_zero]
    omega
  simp only [UInt32.toNat_or, UInt32.toNat_shiftLeft, UInt8.toNat_toUInt32, UInt32.toNat_toUInt8,
    UInt32.toNat_shiftRight, UInt32.reduceToNat, Nat.testBit_or, Nat.reduceMod]
  rw [hlow, h0, h1, h2, h3]
  rcases Nat.lt_or_ge j 32 with hj | hj
  · cases v.toNat.testBit j <;> simp
    omega
  · rw [Nat.testBit_eq_false_of_lt (hlt.trans_le (Nat.pow_le_pow_right (by decide) hj))]
    simp

theorem bnLoad_flatMap (vs : List UInt32) (rest : List UInt8) {i : ℕ} (hi : i < vs.length) :
    bnLoad (vs.flatMap wordBytes ++ rest) i = vs[i] := by
  induction vs generalizing i with
  | nil => simp at hi
  | cons v vs ih =>
    cases i with
    | zero => exact word_of_wordBytes v
    | succ i => exact ih (by simpa using hi)

theorem length_bnStore (x : Words) : (bnStore x).length = 32 := rfl

theorem bnLoad_bnStore (x : Words) (rest : List UInt8) {i : ℕ} (hi : i < BNW) :
    bnLoad (bnStore x ++ rest) i = x i := by
  rw [bnStore, bnLoad_flatMap _ _ (by simpa using hi)]
  simp

theorem value_bnLoad (x : Words) (rest : List UInt8) :
    value (bnLoad (bnStore x ++ rest)) BNW = value x BNW :=
  value_congr fun _ hi => bnLoad_bnStore x rest hi

theorem bnStore_bnLoad (x : Words) (rest : List UInt8) :
    bnStore (bnLoad (bnStore x ++ rest)) = bnStore x := by
  unfold bnStore
  congr 1
  apply List.map_congr_left
  intro i hi
  exact bnLoad_bnStore x rest (List.mem_range.mp hi)

end Bytes

/-! ## The group -/

/-- The modulus. -/
def zkPrime : ℕ := 2 ^ 255 - 19

/-- What exponents count modulo. -/
def zkOrder : ℕ := 2 ^ 255 - 20

theorem value_zkP : value zkP BNW = zkPrime := by decide

theorem value_zkG : value zkG BNW = 2 := by decide

theorem value_zkOrd : value (bnSub zkP (bnSetU32 1)) BNW = zkOrder := by
  have hone : value (bnSetU32 1) BNW = 1 := value_bnSetU32 1
  rw [value_bnSub (by rw [hone, value_zkP]; decide), hone, value_zkP]
  rfl

theorem two_pow_zkOrder : (2 : ZMod zkPrime) ^ zkOrder = 1 := by
  have h : (2 : ZMod (2 ^ 255 - 19)) ^ (2 ^ 255 - 20) = 1 := by reduce_mod_char
  exact h

/-- Exponents of 2 count modulo `zkOrder`. -/
theorem two_pow_congr {a b : ℕ} (h : a ≡ b [MOD zkOrder]) : 2 ^ a ≡ 2 ^ b [MOD zkPrime] := by
  apply (ZMod.natCast_eq_natCast_iff _ _ _).mp
  push_cast
  exact pow_eq_pow_of_modEq h two_pow_zkOrder

/-- The equation that the verifier checks. -/
theorem response_eq {r e x s : ℕ} (h : s ≡ r + e * x [MOD zkOrder]) :
    2 ^ s ≡ 2 ^ r * (2 ^ x) ^ e [MOD zkPrime] := by
  rw [← pow_mul, ← pow_add, Nat.mul_comm x e]
  exact two_pow_congr h

/-! ## Completeness -/

section Complete

variable {s : State}

theorem value_modexp_zkP (b e : Words) :
    value (modexp b e zkP) BNW = value b BNW ^ value e BNW % zkPrime := by
  rw [value_modexp b e (by rw [value_zkP]; decide), value_zkP]

/-- The numbers in what the prover and the verifier compute. -/
theorem response_accepted {r e xr R y resp er : Words} (hord : value s.ord BNW = zkOrder)
    (hR : value R BNW = value (modexp zkG r zkP) BNW)
    (hy : value y BNW = value (modexp zkG xr zkP) BNW)
    (hresp : value resp BNW = value (modadd r (modmul e xr s.ord) s.ord) BNW)
    (her : er = bnMod (widen e) s.ord) :
    value (modexp zkG resp zkP) BNW = value (modmul R (modexp y er zkP) zkP) BNW := by
  have hpos : 0 < value s.ord BNW := by rw [hord]; decide
  have hpos' : 0 < value zkP BNW := by rw [value_zkP]; decide
  rw [value_modmul _ _ hpos', value_modexp_zkP, value_modexp_zkP, hR, hy, value_modexp_zkP,
    value_modexp_zkP, hresp, value_modadd _ _ hpos, value_modmul _ _ hpos, her, value_bnMod _ hpos,
    value_widen, hord, value_zkG, value_zkP]
  generalize value r BNW = r
  generalize value e BNW = e
  generalize value xr BNW = x
  have hmod : (r + e * x % zkOrder) % zkOrder ≡ r + e % zkOrder * x [MOD zkOrder] :=
    calc (r + e * x % zkOrder) % zkOrder ≡ r + e * x % zkOrder [MOD zkOrder] := Nat.mod_modEq _ _
      _ ≡ r + e * x [MOD zkOrder] := Nat.ModEq.add_left r (Nat.mod_modEq _ _)
      _ ≡ r + e % zkOrder * x [MOD zkOrder] :=
        Nat.ModEq.add_left r (Nat.ModEq.mul_right x (Nat.mod_modEq _ _).symm)
  calc 2 ^ ((r + e * x % zkOrder) % zkOrder) % zkPrime
      = 2 ^ r * (2 ^ x) ^ (e % zkOrder) % zkPrime := response_eq hmod
    _ = 2 ^ r % zkPrime * ((2 ^ x % zkPrime) ^ (e % zkOrder) % zkPrime) % zkPrime := by
        rw [Nat.mul_mod, Nat.pow_mod (2 ^ x)]

theorem zkVerify_of_zkProve {secret : List UInt8} {msg : Option (List UInt8)} {fuel : ℕ}
    {proof : List UInt8} {s' : State} (hord : value s.ord BNW = zkOrder)
    (h : zkProve sha256 s secret (some (zkKeygen s secret)) msg fuel = some (proof, s')) :
    zkVerify sha256 s' (zkKeygen s secret) msg proof = 0 := by
  simp only [zkProve, Option.map_eq_some_iff] at h
  obtain ⟨⟨r, rng⟩, -, hproof⟩ := h
  obtain ⟨rfl, rfl⟩ := Prod.mk.inj hproof
  simp only [Option.getD_some]
  set R := modexp zkG r zkP
  set resp := modadd r (modmul (challenge sha256 (bnStore R) (zkKeygen s secret) msg)
    (secretExponent s secret) s.ord) s.ord with hresp
  have hdrop : (bnStore R ++ bnStore resp).drop 32 = bnStore resp :=
    List.drop_left' (length_bnStore R)
  have hlen : (bnStore R ++ bnStore resp).length = 64 := by
    rw [List.length_append, length_bnStore, length_bnStore]
  have hload : ∀ x, value (bnLoad (bnStore x)) BNW = value x BNW := fun x => by
    rw [← List.append_nil (bnStore x), value_bnLoad]
  unfold zkVerify
  rw [if_neg (not_not_intro hlen), hdrop]
  simp only [bnStore_bnLoad]
  rw [if_pos]
  rw [bnCmp_eq_zero]
  exact response_accepted hord (value_bnLoad _ _) (hload _) (hload _) rfl

end Complete

/-! ## The random number -/

section Random

variable {g : Rng} {m : Words}

def Rng.zero : Rng := ⟨0, 0, 0, 0⟩

theorem eq_zero_of_xor_shiftRight {x k : UInt32} (hk : 0 < k.toNat % 32)
    (h : x ^^^ x >>> k = 0) : x = 0 := by
  have heq : x = x >>> k := UInt32.xor_eq_zero_iff.mp h
  have hnat : x.toNat = x.toNat / 2 ^ (k.toNat % 32) := by
    conv_lhs => rw [heq]
    rw [UInt32.toNat_shiftRight, Nat.shiftRight_eq_div_pow]
  apply UInt32.toNat_inj.mp
  by_contra hne
  have hlt : x.toNat / 2 ^ (k.toNat % 32) < x.toNat :=
    Nat.div_lt_self (Nat.pos_of_ne_zero hne) (Nat.one_lt_two_pow hk.ne')
  omega

theorem eq_zero_of_xor_shiftLeft {x : UInt32} (h : x ^^^ x <<< 11 = 0) : x = 0 := by
  have heq : x = x <<< 11 := UInt32.xor_eq_zero_iff.mp h
  have hnat : x.toNat = x.toNat * 2048 % 2 ^ 32 := by
    conv_lhs => rw [heq]
    rw [UInt32.toNat_shiftLeft, Nat.shiftLeft_eq]
    rfl
  have hlt := x.toNat_lt
  apply UInt32.toNat_inj.mp
  change x.toNat = 0
  omega

/-- The generator does not reach the state 0 from another one. -/
theorem rngU32_ne_zero (hg : g ≠ .zero) : rngU32 g ≠ .zero := by
  obtain ⟨g0, g1, g2, g3⟩ := g
  intro h
  obtain ⟨h0, rfl, rfl, rfl⟩ := Rng.mk.inj h
  have hs : (g3 ^^^ g3 <<< 11) ^^^ (g3 ^^^ g3 <<< 11) >>> 8 = 0 := by
    apply eq_zero_of_xor_shiftRight (k := 19) (by decide)
    simpa using h0
  exact hg (by rw [eq_zero_of_xor_shiftLeft (eq_zero_of_xor_shiftRight (by decide) hs)]; rfl)

theorem iterate_rngU32_ne_zero (hg : g ≠ .zero) (n : ℕ) : rngU32^[n] g ≠ .zero := by
  induction n with
  | zero => exact hg
  | succ n ih =>
    rw [Function.iterate_succ_apply']
    exact rngU32_ne_zero ih

theorem length_draw (n : ℕ) (g : Rng) : (draw n g).length = n := by
  induction n generalizing g with
  | zero => rfl
  | succ n ih => simp [draw, ih]

theorem draw_getElem (n : ℕ) (g : Rng) {i : ℕ} (hi : i < (draw n g).length) :
    (draw n g)[i] = (rngU32^[i + 1] g).g0 := by
  induction n generalizing g i with
  | zero => simp [draw] at hi
  | succ n ih =>
    cases i with
    | zero => rfl
    | succ i => exact ih (rngU32 g) (by simpa [draw] using hi)

/-- The words of a block are what the generator returns. -/
theorem bnLoad_draw (g : Rng) {i : ℕ} (hi : i < BNW) :
    bnLoad ((draw BNW g).flatMap wordBytes) i = (rngU32^[i + 1] g).g0 := by
  have hlen : i < (draw BNW g).length := by rwa [length_draw]
  rw [← List.append_nil ((draw BNW g).flatMap wordBytes), bnLoad_flatMap _ _ hlen, draw_getElem]

/-- The multiples of `zkOrder` that a block can hold. -/
def multiple : Fin 3 → Words
  | 0 => fun _ => 0
  | 1 => fun i => if i = 0 then 0xFFFFFFEC else if i = 7 then 0x7FFFFFFF else 0xFFFFFFFF
  | 2 => fun i => if i = 0 then 0xFFFFFFD8 else 0xFFFFFFFF

theorem value_multiple (k : Fin 3) : value (multiple k) BNW = k * zkOrder := by
  fin_cases k <;> decide

/-- A block is rejected if it holds a multiple of `zkOrder`. -/
theorem rejected_block {x : Words} (hm : value m BNW = zkOrder)
    (h : ¬ (hiBit (bnMod (widen x) m) BNW ≥ 0 ∧ bnCmp (bnMod (widen x) m) m < 0)) :
    ∃ k, ∀ i < BNW, x i = multiple k i := by
  have hpos : 0 < value m BNW := by rw [hm]; decide
  have hval : value (bnMod (widen x) m) BNW = value x BNW % zkOrder := by
    rw [value_bnMod _ hpos, value_widen, hm]
  have hlt : value x BNW % zkOrder < zkOrder := Nat.mod_lt _ (by decide)
  have hcmp : bnCmp (bnMod (widen x) m) m < 0 := by
    rw [bnCmp, cmpFrom_spec, hval, hm, if_neg hlt.ne, if_neg hlt.not_gt]
    decide
  have hzero : value x BNW % zkOrder = 0 := by
    rcases hiBit_spec (bnMod (widen x) m) BNW with ⟨h0, -⟩ | ⟨b, hb, -⟩
    · rw [← hval, h0]
    · exact absurd ⟨by omega, hcmp⟩ h
  obtain ⟨k, hk⟩ := Nat.dvd_of_mod_eq_zero hzero
  have hbound : zkOrder * k < zkOrder * 3 := by
    rw [← hk]
    exact (value_lt x BNW).trans (by decide)
  have hk3 : k < 3 := Nat.lt_of_mul_lt_mul_left hbound
  refine ⟨⟨k, hk3⟩, fun i hi => eq_of_value_eq (n := BNW) ?_ hi⟩
  rw [hk, value_multiple, Nat.mul_comm]

/-- After a block that was rejected, the generator is in a state that is known, and the next block is
not rejected. -/
theorem not_rejected_twice (hg : g ≠ .zero) {k : Fin 3}
    (h : ∀ i < BNW, (rngU32^[i + 1] g).g0 = multiple k i) (k' : Fin 3) :
    (rngU32 (rngU32^[BNW] g)).g0 ≠ multiple k' 0 := by
  have hstate : rngU32^[BNW] g =
      ⟨multiple k 7, multiple k 6, multiple k 5, multiple k 4⟩ := by
    rw [← h 7 (by decide), ← h 6 (by decide), ← h 5 (by decide), ← h 4 (by decide)]
    rfl
  have hne := iterate_rngU32_ne_zero hg BNW
  rw [hstate] at hne ⊢
  fin_cases k
  · exact absurd rfl hne
  · fin_cases k' <;> decide
  · fin_cases k' <;> decide

theorem bnRandMod_mono {fuel : ℕ} {x : Words × Rng} (h : bnRandMod m fuel g = some x) (k : ℕ) :
    bnRandMod m (fuel + k) g = some x := by
  induction fuel generalizing g with
  | zero => cases h
  | succ fuel ih =>
    rw [Nat.succ_add]
    simp only [bnRandMod] at h ⊢
    split_ifs at h ⊢
    · exact h
    · exact ih h

/-- A generator that is not in the state 0 gives a number after two blocks at most. -/
theorem bnRandMod_terminates (hm : value m BNW = zkOrder) (hg : g ≠ .zero) :
    ∃ x, ∀ fuel ≥ 2, bnRandMod m fuel g = some x := by
  have htwo : ∃ x, bnRandMod m 2 g = some x := by
    simp only [bnRandMod]
    split_ifs with h₁ h₂
    · exact ⟨_, rfl⟩
    · exact ⟨_, rfl⟩
    · obtain ⟨k, hk⟩ := rejected_block hm h₁
      obtain ⟨k', hk'⟩ := rejected_block hm h₂
      refine absurd ?_ (not_rejected_twice hg (k := k) (fun i hi => ?_) k')
      · rw [← hk' 0 (by decide), bnLoad_draw _ (by decide)]
        rfl
      · rw [← hk i hi, bnLoad_draw g hi]
  obtain ⟨x, hx⟩ := htwo
  refine ⟨x, fun fuel hfuel => ?_⟩
  obtain ⟨k, rfl⟩ := Nat.exists_eq_add_of_le hfuel
  exact bnRandMod_mono hx k

/-- Seeding does not lead to the state 0 from the start. -/
theorem rngSeed_ne_zero (time : UInt32) : rngSeed time .start ≠ .zero := by
  intro h
  obtain ⟨h0, -, h2, -⟩ := Rng.mk.inj h
  have htime : (0x9E3779B9 : UInt32) = time := UInt32.xor_eq_zero_iff.mp h0
  subst htime
  exact absurd h2 (by decide)

end Random

/-- **The verifier accepts what the prover computes,** for every secret and message, whichever number
the generator gives, and from the seeded generator on it always gives one. The arithmetic is exact,
and the response satisfies the equation that is checked. -/
theorem verify_prove :
    (∀ time s₀ rng secret msg fuel proof s',
      let s := { zkInit time s₀ with rng := rng }
      zkProve sha256 s secret (some (zkKeygen s secret)) msg fuel = some (proof, s') →
        zkVerify sha256 s' (zkKeygen s secret) msg proof = 0) ∧
    (∀ time n secret msg,
      let s := { zkInit time .start with rng := rngU32^[n] (zkInit time .start).rng }
      ∃ proof s', ∀ fuel ≥ 2,
        zkProve sha256 s secret (some (zkKeygen s secret)) msg fuel = some (proof, s')) ∧
    (∀ a b, value (mul256 a b) 16 = value a BNW * value b BNW) ∧
    (∀ x m, 0 < value m BNW → value (bnMod x m) BNW = value x 16 % value m BNW) ∧
    (∀ a b m, 0 < value m BNW →
      value (modadd a b m) BNW = (value a BNW + value b BNW) % value m BNW) ∧
    (∀ b e m, 1 < value m BNW →
      value (modexp b e m) BNW = value b BNW ^ value e BNW % value m BNW) ∧
    ∀ r e x s : ℕ, s ≡ r + e * x [MOD 2 ^ 255 - 20] →
      2 ^ s ≡ 2 ^ r * (2 ^ x) ^ e [MOD 2 ^ 255 - 19] := by
  refine ⟨?_, ?_, value_mul256, fun x m hm => value_bnMod x hm, fun a b m hm => value_modadd a b hm,
    fun b e m hm => value_modexp b e hm, fun r e x s h => response_eq h⟩
  · intro time s₀ rng secret msg fuel proof s' s h
    exact zkVerify_of_zkProve sha256 value_zkOrd h
  · intro time n secret msg s
    have hne : s.rng ≠ .zero := iterate_rngU32_ne_zero (rngSeed_ne_zero time) n
    obtain ⟨x, hx⟩ := bnRandMod_terminates (m := s.ord) value_zkOrd hne
    obtain ⟨⟨proof, s'⟩, hproof⟩ :
        ∃ y, zkProve sha256 s secret (some (zkKeygen s secret)) msg 2 = some y := by
      rw [zkProve, hx 2 le_rfl]
      exact ⟨_, rfl⟩
    refine ⟨proof, s', fun fuel hfuel => ?_⟩
    rw [zkProve, hx fuel hfuel, ← hx 2 le_rfl]
    exact hproof

end SneppxAlg.Zk
