import SneppxAlg.Crypto.DilithiumHints
import SneppxAlg.Crypto.DilithiumPacking

/-!
# `dilithium.c`: when signatures verify

Modulo `q`, the verifier's `A z - c t1 2^13` is the signer's `w - c s2 + c t0` (`residue_verify`), so
it recovers the signer's `w1` wherever `w0 - c s2 + c t0` is within the reach of a hint. The signer
bounds `w0 - c s2`, but not `c t0`. With the larger `gamma2` every product `c t0` is small enough;
with the smaller one it is not, and `sign` returns signatures that `verify` refuses.
-/

namespace SneppxAlg.Dilithium

open Lib.Bytes Lib.BitStream Lib.Negacyclic

/-! ## Arithmetic modulo `q` -/

/-- The coefficients of a polynomial modulo `q`. -/
def residue (p : Poly) : Fin 256 → ZMod 8380417 := fun i => (p i : ZMod 8380417)

theorem cast_Q : ((Q : ℤ) : ZMod 8380417) = 0 := by
  rw [ZMod.intCast_zmod_eq_zero_iff_dvd]
  exact dvd_rfl

theorem cast_tmod (a : ℤ) : ((a.tmod Q : ℤ) : ZMod 8380417) = a := by
  have h := Int.mul_tdiv_add_tmod a Q
  calc ((a.tmod Q : ℤ) : ZMod 8380417) = ((Q * a.tdiv Q + a.tmod Q : ℤ) : ZMod 8380417) := by
        rw [Int.cast_add, Int.cast_mul, cast_Q, zero_mul, zero_add]
    _ = a := by rw [h]

theorem residue_polyMul (a b : Poly) : residue (polyMul a b) = conv (residue a) (residue b) := by
  funext j
  have hmod : ((Int.bmod (conv a b j) 8380417 : ℤ) : ZMod 8380417) = (conv a b j : ℤ) := by
    rw [ZMod.intCast_eq_intCast_iff]
    exact Int.bmod_emod
  rw [residue, polyMul, hmod]
  exact map_conv (Int.castRingHom (ZMod 8380417)) a b j

theorem residue_polyAdd (a b : Poly) : residue (polyAdd a b) = residue a + residue b := by
  funext j
  have hreduce (x : ℤ) : ((reduce x : ℤ) : ZMod 8380417) = x := by
    rw [reduce, Int.cast_sub, Int.cast_mul, cast_Q, mul_zero, sub_zero]
  simp only [residue, polyAdd, Pi.add_apply]
  split
  · rw [Int.cast_add, cast_Q, add_zero, hreduce, Int.cast_add]
  · rw [hreduce, Int.cast_add]

theorem mvp_succ (a : ℕ → PolyVec) (v : PolyVec) (k i : ℕ) :
    mvp a v (k + 1) i = polyAdd (mvp a v k i) (polyMul (a i k) (v k)) := by
  simp [mvp, List.range_succ]

theorem residue_mvp (a : ℕ → PolyVec) (v : PolyVec) (k i : ℕ) :
    residue (mvp a v k i) = ∑ j ∈ Finset.range k, conv (residue (a i j)) (residue (v j)) := by
  induction k with
  | zero =>
    funext j
    simp [mvp, residue]
  | succ k ih =>
    rw [Finset.sum_range_succ, ← ih, ← residue_polyMul, ← residue_polyAdd, mvp_succ]

/-- The verifier's polynomial in terms of the signer's. -/
theorem residue_verify {a : ℕ → PolyVec} {s1 s2 t1 t0 y z : PolyVec} {c : Poly} {k i : ℕ}
    (hkey : residue (mvp a s1 k i) + residue (s2 i) =
      (8192 : ZMod 8380417) • residue (t1 i) + residue (t0 i))
    (hz : ∀ j < k, residue (z j) = residue (y j) + residue (polyMul c (s1 j))) :
    residue (mvp a z k i) - (8192 : ZMod 8380417) • residue (polyMul c (t1 i)) =
      residue (mvp a y k i) - residue (polyMul c (s2 i)) + residue (polyMul c (t0 i)) := by
  have hsum : residue (mvp a z k i) =
      residue (mvp a y k i) + conv (residue c) (residue (mvp a s1 k i)) := by
    rw [residue_mvp, residue_mvp, residue_mvp, conv_sum, ← Finset.sum_add_distrib]
    refine Finset.sum_congr rfl fun j hj => ?_
    rw [hz j (Finset.mem_range.mp hj), conv_add, residue_polyMul, conv_left_comm]
  have hmul : conv (residue c) (residue (mvp a s1 k i)) + conv (residue c) (residue (s2 i)) =
      (8192 : ZMod 8380417) • conv (residue c) (residue (t1 i)) +
        conv (residue c) (residue (t0 i)) := by
    rw [← conv_add, hkey, conv_add, conv_smul]
  rw [hsum, residue_polyMul, residue_polyMul, residue_polyMul]
  linear_combination hmul

/-! ## Ranges -/

theorem abs_polyMul_le (a b : Poly) (j : Fin 256) : |polyMul a b j| ≤ 4190208 := by
  have hge := Int.le_bmod (x := conv a b j) (m := 8380417) (by norm_num)
  have hlt := Int.bmod_lt (x := conv a b j) (m := 8380417) (by norm_num)
  rw [polyMul, abs_le]
  omega

theorem polyAdd_range {a b : Poly} {i : Fin 256} (ha : 0 ≤ a i ∧ a i < Q) (hb : |b i| ≤ 4190208) :
    0 ≤ polyAdd a b i ∧ polyAdd a b i < Q := by
  obtain ⟨hb1, hb2⟩ := abs_le.mp hb
  simp only [polyAdd, reduce, Q] at *
  split_ifs <;> omega

theorem mvp_range (a : ℕ → PolyVec) (v : PolyVec) (k i : ℕ) (j : Fin 256) :
    0 ≤ mvp a v k i j ∧ mvp a v k i j < Q := by
  induction k with
  | zero => exact ⟨le_rfl, by norm_num [mvp]⟩
  | succ k ih =>
    rw [mvp_succ]
    exact polyAdd_range ih (abs_polyMul_le _ _ _)

theorem popcount_range (n v : ℕ) : 0 ≤ popcount n v ∧ popcount n v ≤ n := by
  induction n with
  | zero => simp [popcount]
  | succ n ih =>
    have hstep : popcount (n + 1) v = popcount n v + ((v >>> n &&& 1 : ℕ) : ℤ) := by
      simp [popcount, List.range_succ]
    have hbit : v >>> n &&& 1 < 2 := by
      rw [Nat.and_one_is_mod]
      omega
    rw [hstep]
    push_cast
    omega

theorem keyMaterial_inRange (P : Primitives) (rho rhoPrime : List UInt8) (variant : ℤ) :
    (keyMaterial P rho rhoPrime variant).InRange variant := by
  have hcbd (nonce : UInt8) (j : Fin 256) :
      |(if etaOf variant = 2 then cbdEta2 P rhoPrime else cbdEta4 P rhoPrime) nonce j| ≤
        etaOf variant := by
    have hdiff (n x y : ℕ) : |popcount n x - popcount n y| ≤ n := by
      have hx := popcount_range n x
      have hy := popcount_range n y
      rw [abs_le]
      omega
    rcases etaOf_cases variant with h | h
    · rw [h, if_pos rfl]
      exact hdiff 2 _ _
    · rw [h, if_neg (by norm_num)]
      exact hdiff 4 _ _
  have ht (i : ℕ) (j : Fin 256) := polyAdd_range
    (mvp_range (expandA P rho (dimK variant)) (keyMaterial P rho rhoPrime variant).s1
      (dimK variant) i j)
    (b := (keyMaterial P rho rhoPrime variant).s2 i) (by
      refine (hcbd _ j).trans ?_
      rcases etaOf_cases variant with h | h <;> rw [h] <;> norm_num)
  refine ⟨fun i j => hcbd _ j, fun i j => hcbd _ j, fun i j => ?_, fun i j => ?_⟩
  · have := ht i j
    simp only [Q] at this
    simp only [keyMaterial, power2round] at this ⊢
    norm_num at *
    omega
  · have := ht i j
    simp only [Q] at this
    simp only [keyMaterial, power2round] at this ⊢
    norm_num at *
    omega

/-- The challenge has at most `tau` coefficients other than zero, each of them 1 or -1. -/
theorem challengeLoop_norm {tau found : ℕ} {buf : List (UInt8 × UInt8)} {c : Poly}
    (hc : ∑ i, |c i| = found) (hfound : found ≤ tau) :
    ∑ i, |challengeLoop tau buf found c i| ≤ tau := by
  induction buf generalizing found c with
  | nil =>
    rw [challengeLoop, hc]
    exact_mod_cast hfound
  | cons p buf ih =>
    obtain ⟨idx, sign⟩ := p
    rw [challengeLoop]
    split
    · rename_i hlt
      dsimp only
      split
      · rename_i hzero
        set i : Fin 256 := ⟨idx.toNat, idx.toNat_lt⟩
        refine ih ?_ hlt
        have habs : (fun j => |Function.update c i (if sign &&& 1 = 0 then -1 else 1) j|) =
            Function.update (fun j => |c j|) i 1 := by
          funext j
          by_cases hj : j = i
          · subst hj
            rw [Function.update_self, Function.update_self]
            split <;> rfl
          · rw [Function.update_of_ne hj, Function.update_of_ne hj]
        have hsum := Finset.add_sum_erase Finset.univ (fun j => |c j|) (Finset.mem_univ i)
        have hsum' := Finset.sum_update_of_mem (Finset.mem_univ i) (fun j => |c j|) (1 : ℤ)
        rw [habs, hsum', Finset.sdiff_singleton_eq_erase]
        rw [hc] at hsum
        rw [hzero, abs_zero, zero_add] at hsum
        rw [hsum]
        push_cast
        ring
      · exact ih hc hfound
    · rw [hc]
      exact_mod_cast hfound

theorem polyChallenge_norm (P : Primitives) (seed : List UInt8) (tau : ℕ) :
    ∑ i, |polyChallenge P seed tau i| ≤ tau :=
  challengeLoop_norm (by simp) (Nat.zero_le _)

/-- A product with the challenge is as small as its sum over the integers. -/
theorem abs_polyMul_challenge_le {P : Primitives} {seed : List UInt8} {tau : ℕ} {t : Poly}
    (htau : tau ≤ 60) (ht : ∀ j, -4096 ≤ t j ∧ t j < 4096) (j : Fin 256) :
    |polyMul (polyChallenge P seed tau) t j| ≤ tau * 4096 := by
  have hconv : |conv (polyChallenge P seed tau) t j| ≤ tau * 4096 := by
    refine (abs_conv_le (fun i => abs_le.mpr ⟨(ht i).1, (ht i).2.le⟩) j).trans ?_
    exact mul_le_mul_of_nonneg_right (polyChallenge_norm P seed tau) (by norm_num)
  have hbound := abs_le.mp hconv
  have htau' : (tau : ℤ) ≤ 60 := by exact_mod_cast htau
  rw [polyMul, Int.bmod_eq_of_le_mul_two (by push_cast; omega) (by push_cast; omega)]
  exact hconv

/-! ## The signer and the verifier -/

theorem mvp_congr {a : ℕ → PolyVec} {v v' : PolyVec} {k : ℕ} (h : ∀ j < k, v j = v' j) (i : ℕ) :
    mvp a v k i = mvp a v' k i := by
  induction k with
  | zero => simp [mvp]
  | succ k ih =>
    rw [mvp_succ, mvp_succ, ih fun j hj => h j (by omega), h k (by omega)]

theorem residue_keyMaterial (P : Primitives) (rho rhoPrime : List UInt8) (variant : ℤ) (i : ℕ) :
    residue (mvp (expandA P rho (dimK variant)) (keyMaterial P rho rhoPrime variant).s1
        (dimK variant) i) + residue ((keyMaterial P rho rhoPrime variant).s2 i) =
      (8192 : ZMod 8380417) • residue ((keyMaterial P rho rhoPrime variant).t1 i) +
        residue ((keyMaterial P rho rhoPrime variant).t0 i) := by
  rw [← residue_polyAdd]
  funext j
  simp only [residue, keyMaterial, power2round, Pi.add_apply, Pi.smul_apply, smul_eq_mul]
  push_cast
  ring

/-- An attempt of `sign` with a generated key. -/
def keyAttempt (P : Primitives) (rho rhoPrime : Vector UInt8 32) (m : List UInt8) (y : PolyVec)
    (variant : ℤ) : Attempt :=
  attempt P (readSecretKey P (keygen P rho rhoPrime variant).2 variant) m y variant

/-- All coefficients of an attempt are within the reach of their hints. -/
def InReach (A : Attempt) (variant : ℤ) : Prop :=
  ∀ i < dimK variant, ∀ j, Reaches (gamma2Of variant) (A.w1 i j) (A.hintIn i j)

/-- Another encoding of the same length that the hash does not tell apart from the given one. -/
def SecondPreimage (P : Primitives) (m enc : List UInt8) : Prop :=
  ∃ e, e ≠ enc ∧ e.length = enc.length ∧
    (P.sha512 (m ++ e)).take 32 = (P.sha512 (m ++ enc)).take 32

section

variable {P : Primitives} {rho rhoPrime : Vector UInt8 32} {variant : ℤ} {m : List UInt8}
  {y : PolyVec} {sig : List UInt8}

structure Attempt.Accepted (A : Attempt) (variant : ℤ) : Prop where
  z : ¬ Exceeds (dimK variant) A.z (gamma1Of variant - betaOf variant)
  r0 : ¬ Exceeds (dimK variant) (fun i j => A.w0 i j - A.cs2 i j)
    (gamma2Of variant - betaOf variant)

theorem signAttempt_eq_some {S : Signer} (h : signAttempt P S m y variant = some sig) :
    (attempt P S m y variant).Accepted variant ∧
      sig = packSignature (attempt P S m y variant).z ((attempt P S m y variant).hint variant)
        (attempt P S m y variant).cSeed variant := by
  unfold signAttempt at h
  dsimp only at h
  split_ifs at h with hz hw0 hr0
  exact ⟨⟨hz, hr0⟩, (Option.some.inj h).symm⟩

theorem not_exceeds_iff {k : ℕ} {v : PolyVec} {bound : ℤ} :
    ¬ Exceeds k v bound ↔ ∀ i < k, ∀ j, -bound ≤ v i j ∧ v i j ≤ bound := by
  unfold Exceeds
  push Not
  exact forall₃_congr fun i _ j => and_comm

theorem dvd_sub_of_cast_eq {x v : ℤ} (h : (x : ZMod 8380417) = v) : Q ∣ x - v := by
  rw [show Q = ((8380417 : ℕ) : ℤ) from rfl, ← ZMod.intCast_zmod_eq_zero_iff_dvd, Int.cast_sub, h,
    sub_self]

/-- What the verifier rounds is, modulo `q`, the signer's `w1` and the argument of the hint. -/
theorem dvd_diff {i : ℕ} (hi : i < dimK variant) (j : Fin 256) :
    let K := keyMaterial P rho.toList rhoPrime.toList variant
    let A := keyAttempt P rho rhoPrime m y variant
    let c := polyChallenge P A.cSeed (tauOf variant)
    let diff := mvp (expandA P rho.toList (dimK variant)) A.z (dimK variant) i j -
      (polyMul c (K.t1 i) j * 8192).tmod Q
    Q ∣ (diff.tmod Q + Q).tmod Q -
      (A.w1 i j * (2 * gamma2Of variant) + A.hintIn i j) := by
  intro K A c diff
  have hK := keyMaterial_inRange P rho.toList rhoPrime.toList variant
  obtain ⟨-, hs2, ht0⟩ := readSecretKey_keygen hK hi
  have hz : ∀ j < dimK variant, residue (A.z j) = residue (y j) + residue (polyMul c (K.s1 j)) := by
    intro j hj
    funext x
    have hs1 := (readSecretKey_keygen hK hj).1
    simp only [A, keyAttempt, attempt, residue, Pi.add_apply, hs1, Int.cast_add]
    rfl
  have hver := congrFun (residue_verify
    (residue_keyMaterial P rho.toList rhoPrime.toList variant i) hz) j
  simp only [residue, Pi.add_apply, Pi.sub_apply, Pi.smul_apply, smul_eq_mul] at hver
  -- the signer's `w`, rounded
  have hw := (decomposeScalar_spec (isGamma2_gamma2Of variant)
    (mvp (expandA P rho.toList (dimK variant)) y (dimK variant) i j)).dvd
  have ha : (readSecretKey P (keygen P rho rhoPrime variant).2 variant).a =
      expandA P rho.toList (dimK variant) := by
    rw [readSecretKey, take_secretKey]
  have hround : ((mvp (expandA P rho.toList (dimK variant)) y (dimK variant) i j : ℤ) :
      ZMod 8380417) = ((A.w1 i j * (2 * gamma2Of variant) + A.w0 i j : ℤ) : ZMod 8380417) := by
    rw [← sub_eq_zero, ← Int.cast_sub, ZMod.intCast_zmod_eq_zero_iff_dvd]
    simp only [A, keyAttempt, attempt, ha]
    exact hw
  apply dvd_sub_of_cast_eq
  have hcs2 : A.cs2 i j = polyMul c (K.s2 i) j := by
    simp only [A, keyAttempt, attempt, hs2]
    rfl
  have hct0 : A.ct0 i j = polyMul c (K.t0 i) j := by
    simp only [A, keyAttempt, attempt, ht0]
    rfl
  rw [cast_tmod, Int.cast_add, cast_tmod, cast_Q, add_zero]
  simp only [diff]
  rw [Int.cast_sub, cast_tmod, Int.cast_mul]
  simp only [Attempt.hintIn, hcs2, hct0]
  rw [hround] at hver
  push_cast at hver ⊢
  linear_combination hver

theorem tauOf_le (variant : ℤ) : tauOf variant ≤ 60 := by
  unfold tauOf
  split_ifs <;> norm_num

theorem abs_hintIn_le (hA : (keyAttempt P rho rhoPrime m y variant).Accepted variant) {i : ℕ}
    (hi : i < dimK variant) (j : Fin 256) :
    |(keyAttempt P rho rhoPrime m y variant).hintIn i j| ≤
      gamma2Of variant - betaOf variant + tauOf variant * 4096 := by
  have hK := keyMaterial_inRange P rho.toList rhoPrime.toList variant
  have hr0 := not_exceeds_iff.mp hA.r0 i hi j
  have hct0 : |(keyAttempt P rho rhoPrime m y variant).ct0 i j| ≤ tauOf variant * 4096 := by
    apply abs_polyMul_challenge_le (tauOf_le variant)
    rw [(readSecretKey_keygen hK hi).2.2]
    exact hK.t0 i
  exact (abs_add_le _ _).trans (add_le_add (abs_le.mpr hr0) hct0)

/-- The verifier's `w1`, computed from the unpacked key and signature. -/
def verifierW1 (P : Primitives) (rho rhoPrime : Vector UInt8 32) (A : Attempt) (variant : ℤ) :
    PolyVec :=
  recomputeW1 (expandA P rho.toList (dimK variant))
    (keyMaterial P rho.toList rhoPrime.toList variant).t1 A.z (A.hint variant)
    (polyChallenge P A.cSeed (tauOf variant)) variant

/-- The verifier recovers a coefficient of `w1` exactly when it is within reach. -/
theorem verifierW1_eq_iff (hA : (keyAttempt P rho rhoPrime m y variant).Accepted variant) {i : ℕ}
    (hi : i < dimK variant) (j : Fin 256) :
    verifierW1 P rho rhoPrime (keyAttempt P rho rhoPrime m y variant) variant i j =
        (keyAttempt P rho rhoPrime m y variant).w1 i j ↔
      Reaches (gamma2Of variant) ((keyAttempt P rho rhoPrime m y variant).w1 i j)
        ((keyAttempt P rho rhoPrime m y variant).hintIn i j) := by
  have hw := decomposeScalar_spec (isGamma2_gamma2Of variant)
    (mvp (readSecretKey P (keygen P rho rhoPrime variant).2 variant).a y (dimK variant) i j)
  have hlt : |(keyAttempt P rho rhoPrime m y variant).hintIn i j| < 3 * gamma2Of variant := by
    refine (abs_hintIn_le hA hi j).trans_lt ?_
    unfold gamma2Of betaOf tauOf
    split_ifs <;> norm_num
  exact useHintScalar_makeHintScalar (isGamma2_gamma2Of variant) hw.nonneg hw.lt hlt
    (dvd_diff hi j)

theorem inReach_iff (hA : (keyAttempt P rho rhoPrime m y variant).Accepted variant) :
    InReach (keyAttempt P rho rhoPrime m y variant) variant ↔
      ∀ i < dimK variant, verifierW1 P rho rhoPrime (keyAttempt P rho rhoPrime m y variant) variant i =
        (keyAttempt P rho rhoPrime m y variant).w1 i := by
  refine forall₂_congr fun i hi => ?_
  rw [funext_iff]
  exact forall_congr' fun j => (verifierW1_eq_iff hA hi j).symm

/-- With the larger `gamma2` every attempt is within reach. -/
theorem inReach_of_ne_two (hA : (keyAttempt P rho rhoPrime m y variant).Accepted variant)
    (hv : variant ≠ 2) : InReach (keyAttempt P rho rhoPrime m y variant) variant := by
  intro i hi j
  have hle := abs_hintIn_le hA hi j
  have hbound : gamma2Of variant - betaOf variant + tauOf variant * 4096 < 2 * gamma2Of variant := by
    unfold gamma2Of betaOf tauOf
    rw [if_neg hv]
    split_ifs <;> norm_num
  have habs := abs_lt.mp (hle.trans_lt hbound)
  exact ⟨Or.inl habs.2.le, Or.inl habs.1⟩

theorem length_cSeed : (keyAttempt P rho rhoPrime m y variant).cSeed.length = 32 := by
  rw [show (keyAttempt P rho rhoPrime m y variant).cSeed = challengeSeed P m _ variant from rfl,
    challengeSeed, List.length_take, P.length_sha512]
  rfl

theorem hint_fits (A : Attempt) (i : ℕ) : FitsBits 1 (A.hint variant i) := by
  intro j
  simp only [Attempt.hint, makeHintScalar]
  split <;> norm_num

/-- The verifier accepts the signature of an attempt exactly when the hash of what it recovers is
the challenge. -/
theorem verify_packSignature (hA : (keyAttempt P rho rhoPrime m y variant).Accepted variant) :
    verify P (packSignature (keyAttempt P rho rhoPrime m y variant).z
        ((keyAttempt P rho rhoPrime m y variant).hint variant)
        (keyAttempt P rho rhoPrime m y variant).cSeed variant) m
        (keygen P rho rhoPrime variant).1 variant = true ↔
      (keyAttempt P rho rhoPrime m y variant).cSeed =
        challengeSeed P m
          (verifierW1 P rho rhoPrime (keyAttempt P rho rhoPrime m y variant) variant) variant := by
  set A := keyAttempt P rho rhoPrime m y variant with hAdef
  have hK := keyMaterial_inRange P rho.toList rhoPrime.toList variant
  have hc : A.cSeed.length = 32 := length_cSeed
  have hbeta : 0 < betaOf variant := by
    unfold betaOf tauOf
    split_ifs <;> norm_num
  have hz := not_exceeds_iff.mp hA.z
  have hunpack (i : ℕ) (hi : i < dimK variant) :
      unpackZ ((packSignature A.z (A.hint variant) A.cSeed variant).drop (i * zBytes variant))
        (gamma1Of variant) = A.z i :=
    unpackZ_packSignature variant hi fun j => by
      have := hz i hi j
      omega
  have hexc : ¬ Exceeds (dimK variant) (fun i => unpackZ
      ((packSignature A.z (A.hint variant) A.cSeed variant).drop (i * zBytes variant))
        (gamma1Of variant)) (gamma1Of variant - betaOf variant) := by
    rw [not_exceeds_iff]
    intro i hi j
    rw [hunpack i hi]
    exact hz i hi j
  unfold verify
  dsimp only
  rw [length_packSignature _ _ _ hc, if_neg (lt_irrefl _), if_neg hexc,
    cSeed_packSignature _ _ _ hc, take_publicKey, decide_eq_true_eq]
  have hw1 : w1Encode (recomputeW1 (expandA P rho.toList (dimK variant))
      (fun i => unpack10bit ((keygen P rho rhoPrime variant).1.drop (32 + i * 320)))
      (fun i => unpackZ ((packSignature A.z (A.hint variant) A.cSeed variant).drop
        (i * zBytes variant)) (gamma1Of variant))
      (readHint (packSignature A.z (A.hint variant) A.cSeed variant)
        (dimK variant * zBytes variant))
      (polyChallenge P A.cSeed (tauOf variant)) variant) variant =
        w1Encode (verifierW1 P rho rhoPrime A variant) variant := by
    apply w1Encode_congr
    intro i hi
    funext j
    simp only [verifierW1, recomputeW1]
    rw [mvp_congr hunpack, unpack10bit_publicKey hK hi,
      readHint_packSignature variant hi (hint_fits A i)]
  rw [challengeSeed, hw1]
  rfl

theorem w1_fits (A : PolyVec) (hA : ∀ i j, 0 ≤ A i j ∧ A i j < highs (gamma2Of variant)) (i : ℕ) :
    FitsBits (if gamma2Of variant = (Q - 1) / 32 then 4 else 6) (A i) := by
  intro j
  have hj := hA i j
  rcases isGamma2_gamma2Of variant with hg | hg
  · rw [if_neg (by rw [hg]; norm_num)]
    rw [hg] at hj
    norm_num [highs] at hj ⊢
    omega
  · rw [if_pos hg]
    rw [hg] at hj
    norm_num [highs] at hj ⊢
    omega

/-- One attempt: its signature verifies when all coefficients are within reach, and otherwise only
by a collision of the hash. -/
theorem verify_attempt (hA : (keyAttempt P rho rhoPrime m y variant).Accepted variant) :
    (InReach (keyAttempt P rho rhoPrime m y variant) variant →
        (keyAttempt P rho rhoPrime m y variant).cSeed = challengeSeed P m
          (verifierW1 P rho rhoPrime (keyAttempt P rho rhoPrime m y variant) variant) variant) ∧
      ((keyAttempt P rho rhoPrime m y variant).cSeed = challengeSeed P m
          (verifierW1 P rho rhoPrime (keyAttempt P rho rhoPrime m y variant) variant) variant →
        InReach (keyAttempt P rho rhoPrime m y variant) variant ∨
          SecondPreimage P m (w1Encode (keyAttempt P rho rhoPrime m y variant).w1 variant)) := by
  set A := keyAttempt P rho rhoPrime m y variant with hAdef
  have hseed : A.cSeed = challengeSeed P m A.w1 variant := rfl
  refine ⟨fun hreach => ?_, fun hverify => ?_⟩
  · rw [hseed, challengeSeed, challengeSeed,
      w1Encode_congr fun i hi => ((inReach_iff hA).mp hreach i hi).symm]
  · by_cases henc : w1Encode (verifierW1 P rho rhoPrime A variant) variant = w1Encode A.w1 variant
    · left
      rw [inReach_iff hA]
      intro i hi
      refine w1Encode_inj ?_ ?_ henc hi
      · exact w1_fits _ fun i j => useHintScalar_range (isGamma2_gamma2Of variant) _ _
      · refine w1_fits _ fun i j => ?_
        have hw := decomposeScalar_spec (isGamma2_gamma2Of variant)
          (mvp (readSecretKey P (keygen P rho rhoPrime variant).2 variant).a y (dimK variant) i j)
        exact ⟨hw.nonneg, hw.lt⟩
    · right
      exact ⟨_, henc, length_w1Encode _ _ _, (hseed.symm.trans hverify).symm⟩

/-- **Signatures verify.** Whatever the key, the message and the random words, a signature that
`sign` returns stems from one of its attempts; `verify` accepts it if the attempt is within the reach
of the hints, as it is in every variant but 2, and otherwise only if the hash collides. -/
theorem sign_verify {rand : ℕ → ℕ → Fin 256 → UInt32}
    (hs : sign P m (keygen P rho rhoPrime variant).2 rand variant = some sig) :
    ∃ n < 1000,
      signAttempt P (readSecretKey P (keygen P rho rhoPrime variant).2 variant) m
          (mask variant (rand n)) variant = some sig ∧
        (variant ≠ 2 ∨ InReach (keyAttempt P rho rhoPrime m (mask variant (rand n)) variant) variant →
          verify P sig m (keygen P rho rhoPrime variant).1 variant = true) ∧
        (verify P sig m (keygen P rho rhoPrime variant).1 variant = true →
          InReach (keyAttempt P rho rhoPrime m (mask variant (rand n)) variant) variant ∨
            SecondPreimage P m
              (w1Encode (keyAttempt P rho rhoPrime m (mask variant (rand n)) variant).w1 variant)) := by
  obtain ⟨n, hn, hsome⟩ := List.exists_of_findSome?_eq_some hs
  obtain ⟨hA, hsig⟩ := signAttempt_eq_some hsome
  obtain ⟨henough, honly⟩ := verify_attempt hA
  refine ⟨n, List.mem_range.mp hn, hsome, ?_, ?_⟩
  · intro hreach
    have hreach : InReach (keyAttempt P rho rhoPrime m (mask variant (rand n)) variant) variant :=
      hreach.elim (inReach_of_ne_two hA) id
    rw [hsig]
    exact (verify_packSignature hA).mpr (henough hreach)
  · intro hverify
    rw [hsig] at hverify
    exact honly ((verify_packSignature hA).mp hverify)

end

/-! ## A signature that is refused

Primitives for which `c` has its 39 ones in the first places, `t0` has the coefficients 4095 in its
first polynomial, and `w` is the second polynomial of the mask. -/

def steep : Primitives where
  drbg _ nonce n b :=
    if n = 640 then (if b % 2 = 0 then UInt8.ofNat (b / 2) else 1)
    else if n = 12288 then
      if b < 768 then (if b % 3 = 0 then 0xFF else if b % 3 = 1 then 0x0F else 0)
      else if b = 768 then 1 else 0
    else if nonce = [0] ∧ b = 0 then 1 else 0
  sha512 x := List.replicate 64 (if x = w1Encode 0 2 then 0 else 1)
  length_sha512 _ := List.length_replicate

/-- Words for a mask that is zero but for the coefficient `v` in one place. -/
def steepWords (v : ℕ) (_ i : ℕ) (j : Fin 256) : UInt32 :=
  UInt32.ofNat (131072 + if i = 1 ∧ j = 100 then v else 0)

/-- The first polynomial of `t0`. -/
def plateau : Poly := fun _ => 4095

def steepChallenge : Poly := fun j => if (j : ℕ) < 39 then 1 else 0

/-- Bytes that count up fill the places of the challenge in order. -/
theorem challengeLoop_range {tau found n : ℕ} (htau : tau ≤ 256) (hfound : found ≤ tau)
    (hn : tau ≤ found + n) :
    challengeLoop tau ((List.range' found n).map fun i => (UInt8.ofNat i, 1)) found
        (fun j => if (j : ℕ) < found then 1 else 0) =
      fun j : Fin 256 => if (j : ℕ) < tau then 1 else 0 := by
  induction n generalizing found with
  | zero => rw [show found = tau by omega]; rfl
  | succ n ih =>
    rw [List.range'_succ, List.map_cons, challengeLoop]
    split
    · rename_i hlt
      have hidx : (UInt8.ofNat found).toNat = found := UInt8.toNat_ofNat_of_lt' (hlt.trans_le htau)
      have hstep : Function.update (fun j : Fin 256 => if (j : ℕ) < found then (1 : ℤ) else 0)
          ⟨found, by omega⟩ 1 = fun j : Fin 256 => if (j : ℕ) < found + 1 then 1 else 0 := by
        funext j
        by_cases hj : j = ⟨found, by omega⟩
        · subst hj
          simp
        · have hne : (j : ℕ) ≠ found := fun h => hj (Fin.ext h)
          have hiff : (j : ℕ) < found + 1 ↔ (j : ℕ) < found := by omega
          simp [Function.update_of_ne hj, hiff]
      simp only [hidx, lt_irrefl, if_false, if_true]
      rw [show (if (1 : UInt8) &&& 1 = 0 then (-1 : ℤ) else 1) = 1 from rfl, hstep]
      exact ih hlt (by omega)
    · rw [show found = tau by omega]

theorem polyChallenge_steep (seed : List UInt8) : polyChallenge steep seed 39 = steepChallenge := by
  have hbytes : ((List.range 320).map fun i => (steep.drbg seed [] 640 (2 * i),
      steep.drbg seed [] 640 (2 * i + 1))) =
        (List.range' 0 320).map fun i => (UInt8.ofNat i, 1) := by
    rw [← List.range_eq_range']
    apply List.map_congr_left
    intro i _
    simp [steep]
  rw [polyChallenge, hbytes]
  exact challengeLoop_range (by norm_num) (by norm_num) (by norm_num)

/-- The three bytes of coefficient `e` of the matrix. -/
theorem drbg_steep (rho : List UInt8) (e : ℕ) :
    steep.drbg rho [] (4 * 4 * 256 * 3) (3 * e) = (if e < 256 then 255 else if e = 256 then 1 else 0) ∧
      steep.drbg rho [] (4 * 4 * 256 * 3) (3 * e + 1) = (if e < 256 then 15 else 0) ∧
      steep.drbg rho [] (4 * 4 * 256 * 3) (3 * e + 2) = 0 := by
  have hbytes (b : ℕ) : steep.drbg rho [] (4 * 4 * 256 * 3) b =
      if b < 768 then (if b % 3 = 0 then 0xFF else if b % 3 = 1 then 0x0F else 0)
      else if b = 768 then 1 else 0 := rfl
  rw [hbytes, hbytes, hbytes, Nat.mul_mod_right, Nat.mul_add_mod, Nat.mul_add_mod]
  by_cases h : e < 256
  · have h0 : 3 * e < 768 := by omega
    have h1 : 3 * e + 1 < 768 := by omega
    have h2 : 3 * e + 2 < 768 := by omega
    simp [h, h0, h1, h2]
  · have h0 : ¬ 3 * e < 768 := by omega
    have h1 : ¬ 3 * e + 1 < 768 := by omega
    have h2 : ¬ 3 * e + 2 < 768 := by omega
    have h256 : 3 * e = 768 ↔ e = 256 := by omega
    have h1' : ¬ 3 * e + 1 = 768 := by omega
    have h2' : ¬ 3 * e + 2 = 768 := by omega
    simp [h, h0, h1, h2, h256, h1', h2']

theorem expandA_steep (rho : List UInt8) (i j : ℕ) :
    expandA steep rho 4 i j =
      if i * 4 + j = 0 then plateau else if i * 4 + j = 1 then Pi.single 0 1 else 0 := by
  funext c
  have hc := c.isLt
  obtain ⟨h1, h2, h3⟩ := drbg_steep rho ((i * 4 + j) * 256 + c)
  have hbyte : UInt8.toNat 255 = 255 ∧ UInt8.toNat 15 = 15 ∧ UInt8.toNat 1 = 1 ∧
      UInt8.toNat 0 = 0 := ⟨rfl, rfl, rfl, rfl⟩
  simp only [expandA, h1, h2, h3]
  generalize i * 4 + j = idx
  rcases Nat.lt_trichotomy idx 1 with h | rfl | h
  · have hlt : idx * 256 + (c : ℕ) < 256 := by omega
    have h0 : idx = 0 := by omega
    simp only [if_pos hlt, if_pos h0, hbyte]
    norm_num [plateau]
  · have hge : ¬ 1 * 256 + (c : ℕ) < 256 := by omega
    have h0 : ¬ (1 : ℕ) = 0 := one_ne_zero
    simp only [if_neg hge, if_neg h0, if_pos]
    by_cases hc0 : c = 0
    · subst hc0
      simp only [Fin.val_zero, add_zero, one_mul, if_pos, Pi.single_eq_same, hbyte]
      norm_num
    · have hne : ¬ 1 * 256 + (c : ℕ) = 256 := by
        intro h
        exact hc0 (Fin.ext (by simp; omega))
      simp only [if_neg hne, Pi.single_eq_of_ne hc0, hbyte]
      norm_num
  · have hge : ¬ idx * 256 + (c : ℕ) < 256 := by omega
    have hne : ¬ idx * 256 + (c : ℕ) = 256 := by omega
    have h0 : ¬ idx = 0 := by omega
    have h1 : ¬ idx = 1 := by omega
    simp only [if_neg hge, if_neg hne, if_neg h0, if_neg h1, hbyte]
    norm_num

theorem cbdEta2_steep (seed : List UInt8) (nonce : UInt8) :
    cbdEta2 steep seed nonce = if nonce = 0 then Pi.single 0 1 else 0 := by
  have hseed : cbdEta2 steep seed nonce = cbdEta2 steep [] nonce := rfl
  rw [hseed]
  split
  · rename_i h
    subst h
    funext j
    revert j
    decide +kernel
  · rename_i h
    funext j
    simp [cbdEta2, steep, h, popcount]

theorem polyMul_of_range {a b : Poly} {j : Fin 256} (h : |conv a b j| ≤ 4190208) :
    polyMul a b j = conv a b j := by
  have hbound := abs_le.mp h
  exact Int.bmod_eq_of_le_mul_two (by push_cast; omega) (by push_cast; omega)

theorem polyAdd_of_range {a b : Poly} {j : Fin 256} (h0 : 0 ≤ a j + b j) (h : a j + b j < 4194304) :
    polyAdd a b j = a j + b j := by
  have hquot : (a j + b j + 2 ^ 22) / 2 ^ 23 = 0 := by omega
  simp only [polyAdd, reduce, hquot, zero_mul, sub_zero]
  exact if_neg (by omega)

@[simp] theorem polyMul_zero (a : Poly) : polyMul a 0 = 0 := by
  funext j
  simp [polyMul]

@[simp] theorem zero_polyMul (a : Poly) : polyMul 0 a = 0 := by
  funext j
  simp [polyMul]

theorem conv_steepChallenge : conv steepChallenge plateau 100 = 159705 := by
  decide +kernel

theorem polyAdd_zero_of_range {a : Poly} (ha : ∀ j, 0 ≤ a j ∧ a j < 4194304) : polyAdd a 0 = a := by
  funext j
  have hj := ha j
  rw [polyAdd_of_range] <;> simp only [Pi.zero_apply, add_zero]
  · exact hj.1
  · exact hj.2

/-- The matrix is zero but for its first two entries, `4095 (1 + X + ...)` and 1. -/
theorem mvp_steep (rho : List UInt8) (u : PolyVec) (i : ℕ) :
    mvp (expandA steep rho 4) u 4 i =
      if i = 0 then polyAdd (polyAdd (polyAdd (polyAdd 0 (polyMul (plateau) (u 0)))
        (polyMul (Pi.single 0 1) (u 1))) 0) 0 else 0 := by
  have hzero : polyAdd 0 0 = 0 := polyAdd_zero_of_range fun j => by simp
  by_cases h : i = 0
  · subst h
    simp [mvp, List.range_succ, expandA_steep]
  · have h0 (j : ℕ) : ¬ i * 4 + j = 0 := by omega
    have h1 (j : ℕ) : ¬ i * 4 + j = 1 := by omega
    simp only [mvp, List.range_succ, List.range_zero, List.nil_append, List.foldl_append, List.foldl_cons, List.foldl_nil, expandA_steep, if_neg (h0 _), if_neg (h1 _), if_neg h, zero_polyMul, hzero]

theorem plateau_range (j : Fin 256) : 0 ≤ plateau j ∧ plateau j < 4194304 := by
  norm_num [plateau]

theorem mvp_steep_single (rho : List UInt8) {u : PolyVec} (h0 : u 0 = Pi.single 0 1) (h1 : u 1 = 0)
    (i : ℕ) : mvp (expandA steep rho 4) u 4 i = if i = 0 then plateau else 0 := by
  have hmul : polyMul plateau (Pi.single 0 1) = plateau := by
    funext j
    rw [polyMul_of_range] <;> rw [conv_one]
    norm_num [plateau]
  have hadd : polyAdd 0 plateau = plateau := by
    funext j
    rw [polyAdd_of_range] <;> norm_num [plateau]
  rw [mvp_steep, h0, h1, hmul, polyMul_zero, hadd, polyAdd_zero_of_range plateau_range,
    polyAdd_zero_of_range plateau_range, polyAdd_zero_of_range plateau_range]

theorem mvp_steep_of_zero (rho : List UInt8) {u : PolyVec} (h0 : u 0 = 0)
    (h1 : ∀ j, 0 ≤ u 1 j ∧ u 1 j < 131072) (i : ℕ) :
    mvp (expandA steep rho 4) u 4 i = if i = 0 then u 1 else 0 := by
  have hmul : polyMul (Pi.single 0 1) (u 1) = u 1 := by
    funext j
    have := h1 j
    rw [polyMul_of_range] <;> rw [one_conv]
    rw [abs_le]
    omega
  have hadd : polyAdd 0 (u 1) = u 1 := by
    funext j
    have := h1 j
    rw [polyAdd_of_range] <;> rw [Pi.zero_apply] <;> omega
  have hrange : ∀ j, 0 ≤ u 1 j ∧ u 1 j < 4194304 := by
    intro j
    have := h1 j
    omega
  have hzero : polyAdd 0 0 = 0 := polyAdd_zero_of_range fun j => by norm_num
  rw [mvp_steep, h0, hmul, polyMul_zero, hzero, hadd,
    polyAdd_zero_of_range hrange, polyAdd_zero_of_range hrange]

theorem keyMaterial_steep (rho rhoPrime : List UInt8) {i : ℕ} (hi : i < 4) :
    (keyMaterial steep rho rhoPrime 2).s1 i = (if i = 0 then Pi.single 0 1 else 0) ∧
      (keyMaterial steep rho rhoPrime 2).s2 i = 0 ∧
      (keyMaterial steep rho rhoPrime 2).t0 i = (if i = 0 then plateau else 0) := by
  have hs1 (i : ℕ) (hi : i < 4) : (keyMaterial steep rho rhoPrime 2).s1 i =
      if i = 0 then Pi.single 0 1 else 0 := by
    have heq : (keyMaterial steep rho rhoPrime 2).s1 i = cbdEta2 steep rhoPrime (UInt8.ofNat i) := rfl
    rw [heq, cbdEta2_steep]
    interval_cases i <;> rfl
  have hs2 : (keyMaterial steep rho rhoPrime 2).s2 i = 0 := by
    have heq : (keyMaterial steep rho rhoPrime 2).s2 i =
        cbdEta2 steep rhoPrime (UInt8.ofNat (4 + i)) := rfl
    rw [heq, cbdEta2_steep]
    interval_cases i <;> rfl
  refine ⟨hs1 i hi, hs2, ?_⟩
  have ht (j : Fin 256) : (keyMaterial steep rho rhoPrime 2).t0 i j =
      (power2round (polyAdd (mvp (expandA steep rho 4) (keyMaterial steep rho rhoPrime 2).s1 4 i)
        ((keyMaterial steep rho rhoPrime 2).s2 i) j)).2 := rfl
  funext j
  rw [ht, hs2, mvp_steep_single rho (hs1 0 (by norm_num)) (hs1 1 (by norm_num))]
  split
  · rw [polyAdd_zero_of_range plateau_range]
    rfl
  · rw [polyAdd_zero_of_range fun j => by norm_num]
    rfl

theorem mask_steep {v : ℕ} (hv : v ≤ 95154) (n i : ℕ) (j : Fin 256) :
    mask 2 (steepWords v n) i j = if i = 1 ∧ j = 100 then (v : ℤ) else 0 := by
  have hword : (steepWords v n i j).toNat = 131072 + if i = 1 ∧ j = 100 then v else 0 := by
    rw [steepWords, UInt32.toNat_ofNat_of_lt']
    change _ < 4294967296
    split <;> omega
  have hg : gamma1Of 2 = 131072 := rfl
  rw [mask, hword, hg]
  split
  · push_cast
    omega
  · norm_num

/-- An attempt with these primitives and this mask. -/
def steepAttempt (rho rhoPrime : Vector UInt8 32) (v n : ℕ) : Attempt :=
  keyAttempt steep rho rhoPrime [] (mask 2 (steepWords v n)) 2

theorem products_steep (rho rhoPrime : Vector UInt8 32) (v n : ℕ) {i : ℕ} (hi : i < 4) :
    (steepAttempt rho rhoPrime v n).z i = (fun j => mask 2 (steepWords v n) i j +
        if i = 0 then steepChallenge j else 0) ∧
      (steepAttempt rho rhoPrime v n).cs2 i = 0 ∧
      (steepAttempt rho rhoPrime v n).ct0 i =
        if i = 0 then polyMul steepChallenge plateau else 0 := by
  have hK := keyMaterial_inRange steep rho.toList rhoPrime.toList 2
  obtain ⟨hs1, hs2, ht0⟩ := readSecretKey_keygen hK (i := i) hi
  obtain ⟨hs1', hs2', ht0'⟩ := keyMaterial_steep rho.toList rhoPrime.toList hi
  simp only [steepAttempt, keyAttempt, attempt, hs1, hs2, ht0, hs1', hs2', ht0',
    show tauOf 2 = 39 from rfl, polyChallenge_steep, polyMul_zero, true_and]
  constructor
  · funext j
    congr 1
    split
    · rw [polyMul_of_range] <;> rw [conv_one]
      unfold steepChallenge
      split <;> norm_num
    · rw [polyMul_zero]
      rfl
  · split <;> simp

section

variable {v : ℕ} (hv : v ≤ 95154) (rho rhoPrime : Vector UInt8 32) (n : ℕ)

include hv

theorem decompose_steep (i : ℕ) (j : Fin 256) :
    (steepAttempt rho rhoPrime v n).w1 i j = 0 ∧
      (steepAttempt rho rhoPrime v n).w0 i j = if i = 0 ∧ j = 100 then (v : ℤ) else 0 := by
  have hw : mvp (readSecretKey steep (keygen steep rho rhoPrime 2).2 2).a
      (mask 2 (steepWords v n)) (dimK 2) i j = if i = 0 ∧ j = 100 then (v : ℤ) else 0 := by
    have h0 : mask 2 (steepWords v n) 0 = 0 := by
      funext j
      rw [mask_steep hv]
      simp
    have h1 (j : Fin 256) : 0 ≤ mask 2 (steepWords v n) 1 j ∧ mask 2 (steepWords v n) 1 j < 131072 := by
      rw [mask_steep hv]
      split <;> omega
    have ha : (readSecretKey steep (keygen steep rho rhoPrime 2).2 2).a =
        expandA steep rho.toList 4 := by
      rw [readSecretKey, take_secretKey]
      rfl
    rw [ha, show dimK 2 = 4 from rfl, mvp_steep_of_zero _ h0 h1]
    by_cases hi : i = 0
    · rw [if_pos hi, mask_steep hv]
      simp [hi]
    · simp [hi]
  have hg : gamma2Of 2 = 95232 := rfl
  have hsmall (x : ℤ) (h0 : 0 ≤ x) (hx : x ≤ 95154) : decomposeScalar x 95232 = (0, x) := by
    have h1 : x.tmod Q = x := Int.tmod_eq_of_lt h0 (by simp only [Q]; omega)
    have h2 : x.tmod (2 * 95232) = x := Int.tmod_eq_of_lt h0 (by omega)
    have h3 : ¬ x < 0 := by omega
    have h4 : ¬ x > (2 * 95232 : ℤ).tdiv 2 := by
      rw [show (2 * 95232 : ℤ).tdiv 2 = 95232 from rfl]
      omega
    simp only [decomposeScalar, h1, if_neg h3, h2, if_neg h4, sub_self]
    norm_num
  have hd : decomposeScalar (if i = 0 ∧ j = 100 then (v : ℤ) else 0) 95232 =
      (0, if i = 0 ∧ j = 100 then (v : ℤ) else 0) := by
    apply hsmall <;> split <;> omega
  simp only [steepAttempt, keyAttempt, attempt, hw, hg, hd, and_self]

theorem sign_steep : ∃ sig, sign steep [] (keygen steep rho rhoPrime 2).2 (steepWords v) 2 = some sig ∧
    signAttempt steep (readSecretKey steep (keygen steep rho rhoPrime 2).2 2) []
          (mask 2 (steepWords v 0)) 2 = some sig := by
  have hz : ¬ Exceeds 4 (steepAttempt rho rhoPrime v 0).z (gamma1Of 2 - betaOf 2) := by
    rw [not_exceeds_iff, show gamma1Of 2 - betaOf 2 = 130994 from rfl]
    intro i hi j
    rw [(products_steep rho rhoPrime v 0 hi).1]
    dsimp only
    rw [mask_steep hv]
    unfold steepChallenge
    split_ifs <;> omega
  have hw0 (bound : ℤ) (hbound : 95154 ≤ bound) :
      ¬ Exceeds 4 (steepAttempt rho rhoPrime v 0).w0 bound := by
    rw [not_exceeds_iff]
    intro i _ j
    rw [(decompose_steep hv rho rhoPrime 0 i j).2]
    split <;> omega
  have hr0 : ¬ Exceeds 4 (fun i j => (steepAttempt rho rhoPrime v 0).w0 i j -
      (steepAttempt rho rhoPrime v 0).cs2 i j) (gamma2Of 2 - betaOf 2) := by
    have h := not_exceeds_iff.mp (hw0 (gamma2Of 2 - betaOf 2) le_rfl)
    rw [not_exceeds_iff]
    intro i hi j
    rw [(products_steep rho rhoPrime v 0 hi).2.1, Pi.zero_apply, sub_zero]
    exact h i hi j
  have hattempt : signAttempt steep (readSecretKey steep (keygen steep rho rhoPrime 2).2 2) []
      (mask 2 (steepWords v 0)) 2 = some (packSignature (steepAttempt rho rhoPrime v 0).z
        ((steepAttempt rho rhoPrime v 0).hint 2) (steepAttempt rho rhoPrime v 0).cSeed 2) := by
    unfold signAttempt
    dsimp only
    exact (if_neg hz).trans ((if_neg (hw0 _ (by norm_num [gamma2Of]))).trans (if_neg hr0))
  refine ⟨_, ?_, hattempt⟩
  have hrange : List.range 1000 = 0 :: (List.range 999).map Nat.succ := List.range_succ_eq_map
  rw [sign, hrange, List.findSome?_cons, hattempt]

end

theorem hintIn_steep {v : ℕ} (hv : v ≤ 95154) (rho rhoPrime : Vector UInt8 32) (n : ℕ) :
    (steepAttempt rho rhoPrime v n).hintIn 0 100 = v + 159705 := by
  obtain ⟨-, hcs2, hct0⟩ := products_steep rho rhoPrime v n (i := 0) (by norm_num)
  rw [Attempt.hintIn, (decompose_steep hv rho rhoPrime n 0 100).2, hcs2, hct0, if_pos rfl,
    polyMul_of_range (by rw [conv_steepChallenge]; norm_num), conv_steepChallenge]
  simp

/-- The bytes drawn for the key of the two signatures below. -/
def steepSeed : Vector UInt8 32 := Vector.replicate 32 0

/-- Without the coefficient in the mask the signature verifies. -/
theorem sign_verify_steep : ∃ sig,
    sign steep [] (keygen steep steepSeed steepSeed 2).2 (steepWords 0) 2 = some sig ∧
      verify steep sig [] (keygen steep steepSeed steepSeed 2).1 2 = true := by
  obtain ⟨sig, hsig, -⟩ := sign_steep (v := 0) (by norm_num) steepSeed steepSeed
  obtain ⟨n, -, -, henough, -⟩ := sign_verify hsig
  refine ⟨sig, hsig, henough (Or.inr ?_)⟩
  intro i hi j
  have hw := decompose_steep (v := 0) (by norm_num) steepSeed steepSeed n i j
  obtain ⟨-, hcs2, hct0⟩ := products_steep steepSeed steepSeed 0 n hi
  have hle : |(steepAttempt steepSeed steepSeed 0 n).ct0 i j| ≤ 39 * 4096 := by
    rw [hct0]
    split
    · rw [← polyChallenge_steep []]
      exact abs_polyMul_challenge_le (by norm_num) (fun j => by norm_num [plateau]) j
    · norm_num
  have hbound := abs_le.mp hle
  have hin : (steepAttempt steepSeed steepSeed 0 n).hintIn i j =
      (steepAttempt steepSeed steepSeed 0 n).ct0 i j := by
    rw [Attempt.hintIn, hw.2, hcs2]
    simp
  change Reaches (gamma2Of 2) _ ((steepAttempt steepSeed steepSeed 0 n).hintIn i j)
  rw [hin, show gamma2Of 2 = 95232 from rfl]
  exact ⟨Or.inl (by omega), Or.inl (by omega)⟩

/-- With the coefficient 95154 in the mask `sign` returns a signature that `verify` refuses: the
argument of a hint is 254859. -/
theorem not_sign_verify : ∃ sig,
    sign steep [] (keygen steep steepSeed steepSeed 2).2 (steepWords 95154) 2 = some sig ∧
      verify steep sig [] (keygen steep steepSeed steepSeed 2).1 2 = false := by
  obtain ⟨sig, hsig, hattempt⟩ := sign_steep (v := 95154) le_rfl steepSeed steepSeed
  refine ⟨sig, hsig, ?_⟩
  obtain ⟨hA, heq⟩ := signAttempt_eq_some hattempt
  rw [← Bool.not_eq_true, heq]
  intro hverify
  rcases (verify_attempt hA).2 ((verify_packSignature hA).mp hverify) with hreach | ⟨e, hne, -, hhash⟩
  · have hin := hintIn_steep (v := 95154) le_rfl steepSeed steepSeed 0
    have hw1 := (decompose_steep (v := 95154) le_rfl steepSeed steepSeed 0 0 100).1
    have h : Reaches (gamma2Of 2) ((steepAttempt steepSeed steepSeed 95154 0).w1 0 100)
        ((steepAttempt steepSeed steepSeed 95154 0).hintIn 0 100) := hreach 0 (by norm_num [dimK]) 100
    rw [hin, hw1, show gamma2Of 2 = 95232 from rfl] at h
    norm_num [Reaches, highs] at h
  · have hw1 : (steepAttempt steepSeed steepSeed 95154 0).w1 = 0 := by
      funext i j
      exact (decompose_steep (v := 95154) le_rfl steepSeed steepSeed 0 i j).1
    change e ≠ w1Encode (steepAttempt steepSeed steepSeed 95154 0).w1 2 at hne
    change (steep.sha512 ([] ++ e)).take 32 =
      (steep.sha512 ([] ++ w1Encode (steepAttempt steepSeed steepSeed 95154 0).w1 2)).take 32 at hhash
    rw [hw1] at hne hhash
    simp [steep, hne] at hhash

end SneppxAlg.Dilithium
