import SneppxAlg.Crypto.Dilithium

/-!
# `dilithium.c`: packed keys and signatures

Coefficients in the range their width allows come back from the bytes they are packed into, and the
parts of keys and signatures are found at the offsets where the code looks for them.
-/

namespace SneppxAlg.Dilithium

open Lib.Bytes Lib.BitStream

/-! ## Coefficients -/

@[simp] theorem length_lowBits (bits : ℕ) (p : Poly) : (lowBits bits p).length = 256 := by
  rw [lowBits, List.length_map, List.length_ofFn]

theorem lowBits_lt (bits : ℕ) (p : Poly) : ∀ v ∈ lowBits bits p, v < 2 ^ bits := by
  intro v hv
  obtain ⟨c, -, rfl⟩ := List.mem_map.mp hv
  have hpos : (0 : ℤ) < 2 ^ bits := by positivity
  have hlt := Int.emod_lt_of_pos c hpos
  have hge := Int.emod_nonneg c hpos.ne'
  zify
  rw [Int.toNat_of_nonneg hge]
  exact_mod_cast hlt

theorem getD_lowBits (bits : ℕ) (p : Poly) (i : Fin 256) :
    (lowBits bits p).getD i 0 = (p i % 2 ^ bits).toNat := by
  rw [lowBits, List.getD_eq_getElem?_getD, List.getElem?_map, List.getElem?_ofFn,
    dif_pos i.isLt]
  rfl

/-- A coefficient that is a number of `bits` bits. -/
def FitsBits (bits : ℕ) (p : Poly) : Prop := ∀ i, 0 ≤ p i ∧ p i < 2 ^ bits

theorem toNat_lowBits {bits : ℕ} {p : Poly} (h : FitsBits bits p) (i : Fin 256) :
    (((lowBits bits p).getD i 0 : ℕ) : ℤ) = p i := by
  rw [getD_lowBits, Int.emod_eq_of_lt (h i).1 (h i).2, Int.toNat_of_nonneg (h i).1]

/-! ## Polynomials -/

theorem length_pack10bit (p : Poly) : (pack10bit p).length = 320 := by
  have hlen : (lowBits 10 p).length = 4 * 64 := length_lowBits 10 p
  exact length_packGroups hlen

theorem unpack10bit_pack10bit {p : Poly} (h : FitsBits 10 p) (rest : List UInt8) :
    unpack10bit (pack10bit p ++ rest) = p := by
  have hlen : (lowBits 10 p).length = 4 * 64 := length_lowBits 10 p
  funext i
  rw [unpack10bit, pack10bit, unpackGroups_packGroups rest hlen (lowBits_lt 10 p)
    (by norm_num) (by norm_num), polyOf, toNat_lowBits h]

/-- Packing through the accumulator, for all the functions that do so. -/
theorem unpackBits_lowBits (bits : ℕ) (p : Poly) (rest : List UInt8) :
    unpackBits bits 256 (packBits bits (lowBits bits p) ++ rest) = lowBits bits p := by
  have h := unpackBits_packBits rest (lowBits_lt bits p)
  rwa [length_lowBits] at h

theorem length_packBits_lowBits (bits : ℕ) (p : Poly) :
    (packBits bits (lowBits bits p)).length = (256 * bits + 7) / 8 := by
  rw [length_packBits (lowBits_lt bits p), length_lowBits, mul_comm]

theorem unpackEtaSigned_packEtaSigned {p : Poly} {eta : ℤ} (heta : eta = 2 ∨ eta = 4)
    (h : ∀ i, |p i| ≤ eta) (rest : List UInt8) :
    unpackEtaSigned (packEtaSigned p eta ++ rest) eta = p := by
  have hfits : FitsBits (etaBits eta) fun i => p i + eta := by
    intro i
    have hi := abs_le.mp (h i)
    dsimp only
    rcases heta with rfl | rfl
    · exact ⟨by omega, by norm_num [etaBits]; omega⟩
    · exact ⟨by omega, by norm_num [etaBits]; omega⟩
  funext i
  rw [unpackEtaSigned, packEtaSigned, unpackBits_lowBits, polyOf, toNat_lowBits hfits]
  ring

theorem length_packEtaSigned (p : Poly) (variant : ℤ) :
    (packEtaSigned p (etaOf variant)).length = sBytes variant := by
  rw [packEtaSigned, length_packBits_lowBits, etaBits, sBytes]
  split <;> rfl

theorem unpack13bitSigned_pack13bitSigned {p : Poly} (h : ∀ i, -4096 ≤ p i ∧ p i < 4096)
    (rest : List UInt8) : unpack13bitSigned (pack13bitSigned p ++ rest) = p := by
  funext i
  obtain ⟨h1, h2⟩ := h i
  rw [unpack13bitSigned, pack13bitSigned, unpackBits_lowBits, polyOf, getD_lowBits]
  split <;> omega

theorem length_pack13bitSigned (p : Poly) : (pack13bitSigned p).length = 416 :=
  length_packBits_lowBits 13 p

theorem two_gamma1 (variant : ℤ) : 2 * gamma1Of variant = 2 ^ zBits (gamma1Of variant) := by
  unfold gamma1Of zBits
  split
  · rw [show (2 * 2 ^ 17 : ℤ).toNat = 2 ^ 18 from rfl, Nat.clog_pow _ _ (by norm_num)]
    norm_num
  · rw [show (2 * 2 ^ 19 : ℤ).toNat = 2 ^ 20 from rfl, Nat.clog_pow _ _ (by norm_num)]
    norm_num

theorem unpackZ_packZ {p : Poly} {variant : ℤ}
    (h : ∀ i, -gamma1Of variant ≤ p i ∧ p i < gamma1Of variant) (rest : List UInt8) :
    unpackZ (packZ p (gamma1Of variant) ++ rest) (gamma1Of variant) = p := by
  have hfits : FitsBits (zBits (gamma1Of variant)) fun i => p i + gamma1Of variant := by
    intro i
    have hi := h i
    dsimp only
    rw [← two_gamma1]
    exact ⟨by omega, by omega⟩
  funext i
  rw [unpackZ, packZ, unpackBits_lowBits, polyOf, toNat_lowBits hfits]
  ring

theorem length_packZ (p : Poly) (variant : ℤ) :
    (packZ p (gamma1Of variant)).length = zBytes variant :=
  length_packBits_lowBits _ _

/-- The packed `w1` determines it, as long as its coefficients are of the width that is packed. -/
theorem w1Encode_inj {w w' : PolyVec} {variant : ℤ}
    (hw : ∀ i, FitsBits (if gamma2Of variant = (Q - 1) / 32 then 4 else 6) (w i))
    (hw' : ∀ i, FitsBits (if gamma2Of variant = (Q - 1) / 32 then 4 else 6) (w' i))
    (h : w1Encode w variant = w1Encode w' variant) {i : ℕ} (hi : i < dimK variant) : w i = w' i := by
  have key {bits bytes : ℕ} (hbits : 0 < bits) (hbytes : 4 * bits ≤ 8 * bytes)
      (hw : FitsBits bits (w i)) (hw' : FitsBits bits (w' i))
      (h : (List.range (dimK variant)).flatMap (fun i => packGroups bits bytes (lowBits bits (w i))) =
        (List.range (dimK variant)).flatMap
          (fun i => packGroups bits bytes (lowBits bits (w' i)))) : w i = w' i := by
    have hlen (p : Poly) : (lowBits bits p).length = 4 * 64 := length_lowBits bits p
    obtain ⟨rest, hrest⟩ := drop_blocks (f := fun i => packGroups bits bytes (lowBits bits (w i)))
      (fun i _ => length_packGroups (hlen (w i))) hi List.length_nil []
    obtain ⟨rest', hrest'⟩ := drop_blocks (f := fun i => packGroups bits bytes (lowBits bits (w' i)))
      (fun i _ => length_packGroups (hlen (w' i))) hi List.length_nil []
    rw [h, hrest'] at hrest
    have hunpack := congrArg (unpackGroups bits bytes 64) hrest
    rw [unpackGroups_packGroups rest' (hlen _) (lowBits_lt _ _) hbits hbytes,
      unpackGroups_packGroups rest (hlen _) (lowBits_lt _ _) hbits hbytes] at hunpack
    funext j
    rw [← toNat_lowBits hw j, ← toNat_lowBits hw' j, hunpack]
  unfold w1Encode polyW1Pack at h
  by_cases hg : gamma2Of variant = (Q - 1) / 32
  · simp only [hg, if_true] at h hw hw'
    exact key (by norm_num) (by norm_num) (hw i) (hw' i) h
  · simp only [hg, if_false] at h hw hw'
    exact key (by norm_num) (by norm_num) (hw i) (hw' i) h

theorem length_w1Encode (w w' : PolyVec) (variant : ℤ) :
    (w1Encode w variant).length = (w1Encode w' variant).length := by
  have hlen (bits : ℕ) (p : Poly) : (lowBits bits p).length = 4 * 64 := length_lowBits bits p
  have hpack (p p' : Poly) : (polyW1Pack p (gamma2Of variant)).length =
      (polyW1Pack p' (gamma2Of variant)).length := by
    unfold polyW1Pack
    split
    · rw [length_packGroups (hlen 4 p), length_packGroups (hlen 4 p')]
    · rw [length_packGroups (hlen 6 p), length_packGroups (hlen 6 p')]
  simp only [w1Encode, List.length_flatMap]
  congr 2
  funext i
  exact hpack _ _

theorem w1Encode_congr {w w' : PolyVec} {variant : ℤ} (h : ∀ i < dimK variant, w i = w' i) :
    w1Encode w variant = w1Encode w' variant := by
  unfold w1Encode
  exact List.flatMap_congr fun i hi => by rw [h i (List.mem_range.mp hi)]

/-! ## Hints -/

theorem ofNat_and_low (v : ℕ) : UInt8.ofNat (v &&& 0xFF) = UInt8.ofNat v := by
  apply UInt8.toNat_inj.mp
  have hmask : v &&& 0xFF = v % 256 := Nat.and_two_pow_sub_one_eq_mod v 8
  rw [hmask]
  simp

/-- Packing hints byte by byte is packing numbers of one bit. -/
theorem hintLoop_eq {hs : List ℤ} {byte n : ℕ} (hn : n < 8) (hbyte : byte < 2 ^ n) :
    hintLoop hs byte n = packLoop 1 (hs.map fun h => (h % 2).toNat) byte n := by
  induction hs generalizing byte n with
  | nil =>
    rw [hintLoop, List.map_nil, packLoop, flush]
    split
    · rw [ofNat_and_low, flush, if_neg (by omega)]
    · rfl
  | cons h hs ih =>
    have hbit : (h % 2).toNat < 2 := by omega
    have hlt : byte ||| (h % 2).toNat <<< n < 2 ^ (n + 1) := by
      rw [or_shiftLeft_eq_add hbyte, pow_succ]
      have : (h % 2).toNat * 2 ^ n ≤ 1 * 2 ^ n := Nat.mul_le_mul_right _ (by omega)
      omega
    rw [hintLoop, List.map_cons, packLoop]
    generalize byte ||| (h % 2).toNat <<< n = buf at hlt
    by_cases h8 : n + 1 = 8
    · have hshift : buf >>> 8 = 0 := by
        rw [h8] at hlt
        rw [Nat.shiftRight_eq_div_pow, Nat.div_eq_of_lt hlt]
      have hdrain : drain buf 8 = [UInt8.ofNat buf] := by
        rw [drain, if_pos le_rfl, ofNat_and_low, drain, if_neg (by norm_num)]
      have hdrained : drained buf 8 = (0, 0) := by
        rw [drained, if_pos le_rfl, hshift, drained, if_neg (by norm_num)]
      rw [if_pos h8, h8, hdrain, hdrained, ih (by norm_num) (by norm_num)]
      rfl
    · rw [if_neg h8, drain, drained, if_neg (by omega), if_neg (by omega),
        ih (by omega) hlt]
      rfl

theorem hintBytes_eq (h : Poly) : hintBytes h = packBits 1 (lowBits 1 h) := by
  rw [hintBytes, hintLoop_eq (by norm_num) (by norm_num), packBits, lowBits, pow_one]

theorem length_hintBytes (h : Poly) : (hintBytes h).length = 32 := by
  rw [hintBytes_eq, length_packBits_lowBits]

theorem hintBytes_bit {h : Poly} (hh : FitsBits 1 h) (j : Fin 256) :
    ((((hintBytes h).getD (j / 8) 0).toNat >>> (j % 8 : ℕ) &&& 1 : ℕ) : ℤ) = h j := by
  have hlt := lowBits_lt 1 h
  have hj : (j : ℕ) < (lowBits 1 h).length := by
    rw [length_lowBits]
    exact j.isLt
  have hdigit := ofDigits_div_pow_mod hlt hj
  rw [pow_one] at hdigit
  rw [getD_shiftRight_and_one, hintBytes_eq, leVal_packBits hlt, pow_one, hdigit,
    ← List.getD_eq_getElem _ 0, toNat_lowBits hh]

/-! ## Keys -/

/-- The coefficients of a key are in the ranges that their packed forms have. -/
structure KeyMaterial.InRange (K : KeyMaterial) (variant : ℤ) : Prop where
  s1 : ∀ i j, |K.s1 i j| ≤ etaOf variant
  s2 : ∀ i j, |K.s2 i j| ≤ etaOf variant
  t1 : ∀ i, FitsBits 10 (K.t1 i)
  t0 : ∀ i j, -4096 ≤ K.t0 i j ∧ K.t0 i j < 4096

theorem etaOf_cases (variant : ℤ) : etaOf variant = 2 ∨ etaOf variant = 4 := by
  unfold etaOf
  split
  · exact Or.inl rfl
  · exact Or.inr rfl

section

variable (P : Primitives) (rho rhoPrime : Vector UInt8 32) (variant : ℤ)

theorem take_publicKey : (keygen P rho rhoPrime variant).1.take 32 = rho.toList :=
  List.take_left' rho.length_toList

theorem take_secretKey : (keygen P rho rhoPrime variant).2.take 32 = rho.toList := by
  simp only [keygen, List.append_assoc]
  exact List.take_left' rho.length_toList

variable {P rho rhoPrime variant}

theorem unpack10bit_publicKey
    (hK : (keyMaterial P rho.toList rhoPrime.toList variant).InRange variant) {i : ℕ}
    (hi : i < dimK variant) :
    unpack10bit ((keygen P rho rhoPrime variant).1.drop (32 + i * 320)) =
      (keyMaterial P rho.toList rhoPrime.toList variant).t1 i := by
  set K := keyMaterial P rho.toList rhoPrime.toList variant with hdef
  obtain ⟨rest, hrest⟩ := drop_blocks (f := fun i => pack10bit (K.t1 i))
    (fun i _ => length_pack10bit (K.t1 i)) hi rho.length_toList []
  rw [List.append_nil] at hrest
  rw [keygen, ← hdef, hrest, unpack10bit_pack10bit (hK.t1 i)]

/-- `sign` reads back what `keygen` has packed. -/
theorem readSecretKey_keygen
    (hK : (keyMaterial P rho.toList rhoPrime.toList variant).InRange variant) {i : ℕ}
    (hi : i < dimK variant) :
    (readSecretKey P (keygen P rho rhoPrime variant).2 variant).s1 i =
        (keyMaterial P rho.toList rhoPrime.toList variant).s1 i ∧
      (readSecretKey P (keygen P rho rhoPrime variant).2 variant).s2 i =
        (keyMaterial P rho.toList rhoPrime.toList variant).s2 i ∧
      (readSecretKey P (keygen P rho rhoPrime variant).2 variant).t0 i =
        (keyMaterial P rho.toList rhoPrime.toList variant).t0 i := by
  set K := keyMaterial P rho.toList rhoPrime.toList variant with hdef
  set k := dimK variant with hk
  have hlen1 : ∀ i < k, (packEtaSigned (K.s1 i) (etaOf variant)).length = sBytes variant :=
    fun i _ => length_packEtaSigned _ _
  have hlen2 : ∀ i < k, (packEtaSigned (K.s2 i) (etaOf variant)).length = sBytes variant :=
    fun i _ => length_packEtaSigned _ _
  have hhead : (rho.toList ++ rhoPrime.toList ++ List.replicate 32 0).length = 96 := by
    simp
  obtain ⟨rest1, hrest1⟩ := drop_blocks hlen1 hi hhead
    (((List.range k).flatMap fun i => packEtaSigned (K.s2 i) (etaOf variant)) ++
      (List.range k).flatMap fun i => pack13bitSigned (K.t0 i))
  have hhead2 : (rho.toList ++ rhoPrime.toList ++ List.replicate 32 0 ++
      (List.range k).flatMap fun i => packEtaSigned (K.s1 i) (etaOf variant)).length =
        96 + k * sBytes variant := by
    rw [List.length_append, hhead, length_flatMap_range hlen1]
  obtain ⟨rest2, hrest2⟩ := drop_blocks hlen2 hi hhead2
    ((List.range k).flatMap fun i => pack13bitSigned (K.t0 i))
  have hhead3 : (rho.toList ++ rhoPrime.toList ++ List.replicate 32 0 ++
      ((List.range k).flatMap fun i => packEtaSigned (K.s1 i) (etaOf variant)) ++
      (List.range k).flatMap fun i => packEtaSigned (K.s2 i) (etaOf variant)).length =
        96 + k * sBytes variant + k * sBytes variant := by
    rw [List.length_append, hhead2, length_flatMap_range hlen2]
  obtain ⟨rest3, hrest3⟩ := drop_blocks (f := fun i => pack13bitSigned (K.t0 i))
    (fun i _ => length_pack13bitSigned (K.t0 i)) hi hhead3 []
  simp only [List.append_assoc, List.append_nil] at hrest1 hrest2 hrest3
  simp only [readSecretKey, keygen, ← hdef, ← hk, List.append_assoc]
  refine ⟨?_, ?_, ?_⟩
  · rw [hrest1, unpackEtaSigned_packEtaSigned (etaOf_cases variant) (hK.s1 i)]
  · rw [hrest2, unpackEtaSigned_packEtaSigned (etaOf_cases variant) (hK.s2 i)]
  · rw [hrest3, unpack13bitSigned_pack13bitSigned (hK.t0 i)]

end

/-! ## Signatures -/

def packSignature (z h : PolyVec) (cSeed : List UInt8) (variant : ℤ) : List UInt8 :=
  ((List.range (dimK variant)).flatMap fun i => packZ (z i) (gamma1Of variant)) ++
    ((List.range (dimK variant)).flatMap fun i => hintBytes (h i)) ++ cSeed

section

variable (z h : PolyVec) {cSeed : List UInt8} (variant : ℤ)

theorem length_packSignature (hc : cSeed.length = 32) :
    (packSignature z h cSeed variant).length =
      dimK variant * zBytes variant + (dimK variant * 256 + 7) / 8 + 32 := by
  rw [packSignature, List.length_append, List.length_append, hc,
    length_flatMap_range fun i _ => length_packZ (z i) variant,
    length_flatMap_range fun i _ => length_hintBytes (h i)]
  omega

theorem cSeed_packSignature (hc : cSeed.length = 32) :
    ((packSignature z h cSeed variant).drop
      (dimK variant * zBytes variant + (dimK variant * 256 + 7) / 8)).take 32 = cSeed := by
  have hlen : (((List.range (dimK variant)).flatMap fun i => packZ (z i) (gamma1Of variant)) ++
      (List.range (dimK variant)).flatMap fun i => hintBytes (h i)).length =
        dimK variant * zBytes variant + (dimK variant * 256 + 7) / 8 := by
    rw [List.length_append, length_flatMap_range fun i _ => length_packZ (z i) variant,
      length_flatMap_range fun i _ => length_hintBytes (h i)]
    omega
  rw [packSignature, List.drop_left' hlen, List.take_of_length_le hc.le]

variable {z h}

theorem unpackZ_packSignature {i : ℕ} (hi : i < dimK variant)
    (hz : ∀ j, -gamma1Of variant ≤ z i j ∧ z i j < gamma1Of variant) :
    unpackZ ((packSignature z h cSeed variant).drop (i * zBytes variant)) (gamma1Of variant) =
      z i := by
  obtain ⟨rest, hrest⟩ := drop_blocks (f := fun i => packZ (z i) (gamma1Of variant))
    (fun i _ => length_packZ (z i) variant) hi (List.length_nil)
    (((List.range (dimK variant)).flatMap fun i => hintBytes (h i)) ++ cSeed)
  rw [List.nil_append, Nat.zero_add] at hrest
  rw [packSignature, List.append_assoc, hrest, unpackZ_packZ hz]

theorem readHint_packSignature {i : ℕ} (hi : i < dimK variant) (hh : FitsBits 1 (h i)) (j : Fin 256) :
    readHint (packSignature z h cSeed variant) (dimK variant * zBytes variant) i j = h i j := by
  obtain ⟨rest, hrest⟩ := drop_blocks (f := fun i => hintBytes (h i))
    (fun i _ => length_hintBytes (h i)) hi
    (length_flatMap_range fun i _ => length_packZ (z i) variant) cSeed
  rw [← List.append_assoc, ← packSignature] at hrest
  have hj := j.isLt
  have hget : (packSignature z h cSeed variant).getD
      (dimK variant * zBytes variant + (i * 256 + j) / 8) 0 = (hintBytes (h i)).getD (j / 8) 0 := by
    have hidx : dimK variant * zBytes variant + (i * 256 + j) / 8 =
        dimK variant * zBytes variant + i * 32 + j / 8 := by omega
    rw [hidx, List.getD_eq_getElem?_getD, ← List.getElem?_drop, hrest,
      List.getElem?_append_left (by rw [length_hintBytes]; omega), List.getD_eq_getElem?_getD]
  rw [readHint, hget, show (i * 256 + (j : ℕ)) % 8 = j % 8 by omega, hintBytes_bit hh]

end

end SneppxAlg.Dilithium
