import SneppxAlg.Crypto.Sphincs
import SneppxAlg.Lib.Segments

/-!
# SPHINCS+ signatures verify

Whatever the hash function, the verifier walks through the very values the signer used. Each WOTS
chain is completed from where the signature stopped (`chain_add`), each authentication path is made
of the tree's own siblings (`climb_eq_node`), so that the node reached at layer `d` is the root of
that layer, which is what the signer signed at layer `d + 1`. What remains is bookkeeping: the
signature is a run of 912 digests, and both sides agree on which one is where.
-/

namespace SneppxAlg.Sphincs

open Lib.Merkle Lib.Segments

variable (sha256 : Sha256)

/-! ## Reading digests back -/

theorem length_bytes (ds : List Digest) : (bytes ds).length = ds.length * 16 := by
  induction ds with
  | nil => rfl
  | cons d ds ih =>
    have hcons : bytes (d :: ds) = d.toList ++ bytes ds := rfl
    rw [hcons, List.length_append, ih, Vector.length_toList, List.length_cons]
    omega

theorem readDigest_bytes {ds : List Digest} {i : ℕ} {d : Digest} (h : ds[i]? = some d) :
    readDigest (bytes ds) (i * 16) = d := by
  induction ds generalizing i with
  | nil => simp at h
  | cons e ds ih =>
    have hcons : bytes (e :: ds) = e.toList ++ bytes ds := rfl
    cases i with
    | zero =>
      obtain rfl : e = d := by simpa using h
      ext j hj
      simp [readDigest, hcons, List.getElem?_append_left]
    | succ i =>
      have ih := ih (by simpa using h)
      rw [← ih]
      ext j hj
      have hskip : ¬ (i + 1) * 16 + j < e.toList.length := by
        rw [Vector.length_toList]
        omega
      simp only [readDigest, Vector.getElem_ofFn, hcons, List.getD_eq_getElem?_getD]
      rw [List.getElem?_append_right (by omega), Vector.length_toList,
        show (i + 1) * 16 + j - 16 = i * 16 + j by omega]

/-! ## WOTS -/

theorem wotsBasew_le (ctx : Digest) (i : ℕ) : (wotsBasew sha256 ctx i).toNat ≤ wotsChains := by
  unfold wotsBasew
  split
  · rw [messageNibble, UInt8.toNat_and]
    exact Nat.and_le_right
  · have h : ((checksum sha256 ctx >>> UInt32.ofNat (4 * (i - wotsLen1))) &&& 0x0f).toNat ≤ 15 := by
      rw [UInt32.toNat_and]
      exact Nat.and_le_right
    rw [UInt32.toNat_toUInt8]
    exact (Nat.mod_le _ _).trans h

/-- Where the chains of a signature are completed, the public key comes out. -/
theorem wotsVerify_eq_wotsPkgen {sig : List UInt8} {off : ℕ} {ctx skSeed : Digest} {layer : ℕ}
    {leaf : UInt64}
    (hsig : ∀ i < wotsLen, readDigest sig (off + i * 16) =
      wotsChain sha256 skSeed layer leaf i (wotsBasew sha256 ctx i).toNat) :
    wotsVerify sha256 sig off ctx = wotsPkgen sha256 skSeed layer leaf := by
  refine List.map_congr_left fun i hi => ?_
  have hle := wotsBasew_le sha256 ctx i
  show chain _ _ _ _ = _
  rw [hsig i (List.mem_range.mp hi), wotsChain, wotsChain]
  have hadd := chain_add (chainStep sha256) 0 (wotsBasew sha256 ctx i).toNat
    (wotsChains - (wotsBasew sha256 ctx i).toNat)
    (prf sha256 skSeed tagWots (UInt64.ofNat layer) ((leaf <<< 8) ||| UInt64.ofNat i))
  rw [Nat.add_sub_cancel' hle, Nat.zero_add] at hadd
  exact hadd.symm

/-! ## Trees -/

def layerLeaves (skSeed : Digest) (layer i : ℕ) : Digest :=
  wotsLeaf sha256 skSeed layer (UInt64.ofNat i)

theorem subtreeRoot_eq (skSeed : Digest) (layer level o : ℕ) :
    subtreeRoot sha256 skSeed layer level (o <<< level) =
      node (compress sha256) (layerLeaves sha256 skSeed layer) level o := by
  unfold subtreeRoot
  rw [Nat.one_shiftLeft, levels_apply _ _ le_rfl (by simp)]
  have hshift := node_shift (compress sha256) (layerLeaves sha256 skSeed layer) level o 0
  rw [Nat.add_zero] at hshift
  rw [← hshift, Nat.shiftLeft_eq]
  rfl

theorem treehash_eq (skSeed : Digest) (layer : ℕ) :
    treehash sha256 skSeed layer =
      node (compress sha256) (layerLeaves sha256 skSeed layer) treeHeight 0 := by
  unfold treehash
  rw [Nat.one_shiftLeft, levels_apply _ _ le_rfl (by simp)]
  rfl

/-- The path written by the signer holds the siblings of the leaf's ancestors. -/
theorem authPath_getElem? (skSeed : Digest) (d leaf : ℕ) {h : ℕ} (hh : h < treeHeight) :
    (authPath sha256 skSeed d leaf)[h]? =
      some (sibling (compress sha256) (layerLeaves sha256 skSeed d) leaf h) := by
  have hsib : (leaf ^^^ 1 <<< h) >>> h = (leaf >>> h) ^^^ 1 := by
    rw [Nat.shiftRight_xor_distrib, Nat.shiftLeft_shiftRight]
  simp only [authPath, List.getElem?_map, List.getElem?_range hh, Option.map_some, hsib,
    subtreeRoot_eq, sibling]

/-! ## FORS -/

theorem forsIndex_lt (md : Vector UInt8 32) (t : Fin forsTrees) : forsIndex md t < 2 ^ forsHeight := by
  unfold forsIndex
  have hfold : ∀ (l : List (Fin forsHeight)) (acc : ℕ), acc < 2 ^ forsHeight →
      l.foldl (fun idx b => if md.get ⟨(t.val * forsHeight + b.val) / 8, forsIndex_bound t b⟩ &&&
          (1 <<< UInt8.ofNat ((t.val * forsHeight + b.val) % 8)) ≠ 0 then idx ||| 1 <<< b.val
        else idx) acc < 2 ^ forsHeight := by
    intro l
    induction l with
    | nil => exact fun acc h => h
    | cons b l ih =>
      intro acc h
      rw [List.foldl_cons]
      apply ih
      split
      · refine Nat.or_lt_two_pow h ?_
        rw [Nat.one_shiftLeft]
        exact Nat.pow_lt_pow_right (by norm_num) b.isLt
      · exact h
  exact hfold _ 0 (by decide)

/-- What the signer's loop holds after `h` levels. -/
theorem forsAuth_eq (skSeed : Digest) (t : Fin forsTrees) {idx : ℕ} (hidx : idx < 2 ^ forsHeight)
    {h : ℕ} (hh : h ≤ forsHeight) :
    forsAuth sha256 skSeed t idx h =
      (levels (compress sha256) (2 ^ forsHeight) h (forsLeaf sha256 skSeed t), idx >>> h,
        forsLeaf sha256 skSeed t idx ::
          (List.range h).map (sibling (compress sha256) (forsLeaf sha256 skSeed t) idx)) := by
  induction h with
  | zero => simp [forsAuth, levels]
  | succ h ih =>
    have hstep : ∀ s, forsAuth sha256 skSeed t idx h = s → forsAuth sha256 skSeed t idx (h + 1) =
        (levelUp (compress sha256) ((1 <<< forsHeight) >>> (h + 1)) s.1, s.2.1 >>> 1,
          s.2.2 ++ [s.1 (s.2.1 ^^^ 1)]) := by
      rintro s rfl
      simp only [forsAuth, List.range_succ, List.foldl_append, List.foldl_cons, List.foldl_nil]
    have hpos : (idx >>> h) ^^^ 1 < 2 ^ (forsHeight - h) := by
      have hlt : idx >>> h < 2 ^ (forsHeight - h) := by
        rw [Nat.shiftRight_eq_div_pow]
        apply Nat.div_lt_of_lt_mul
        rwa [← pow_add, Nat.add_sub_cancel' (by omega)]
      exact Nat.xor_lt_two_pow hlt (Nat.one_lt_two_pow (by omega))
    rw [hstep _ (ih (by omega)), levels_succ, Nat.one_shiftLeft]
    dsimp only
    rw [levels_apply _ _ (by omega) hpos, List.range_succ, List.map_append, Nat.shiftRight_add]
    rfl

/-- The root and the signature of FORS tree `t`. -/
theorem forsAuth_final (skSeed : Digest) (md : Vector UInt8 32) (t : Fin forsTrees) :
    let f := forsLeaf sha256 skSeed t
    let idx := forsIndex md t
    let s := forsAuth sha256 skSeed t idx forsHeight
    s.1 0 = node (compress sha256) f forsHeight 0 ∧
      s.2.2 = f idx :: (List.range forsHeight).map (sibling (compress sha256) f idx) := by
  intro f idx s
  have hs : s = _ := forsAuth_eq sha256 skSeed t (forsIndex_lt md t) le_rfl
  rw [hs]
  exact ⟨levels_apply _ _ le_rfl (by simp), rfl⟩

/-- The root of FORS tree `t` that the signature at `off` leads to. -/
def forsRoot (sig : List UInt8) (off : ℕ) (md : Vector UInt8 32) (t : Fin forsTrees) : Digest :=
  let tsig := off + t.val * ((forsHeight + 1) * 16)
  climb (compress sha256) (fun h => readDigest sig (tsig + (h + 1) * 16)) (forsIndex md t)
    forsHeight (readDigest sig tsig)

section Fors

variable {sha256} {sig : List UInt8} {off : ℕ} {md : Vector UInt8 32} {skSeed : Digest}

theorem forsRoot_eq {t : Fin forsTrees} (hsig : ∀ h < forsHeight + 1,
    some (readDigest sig (off + t * ((forsHeight + 1) * 16) + h * 16)) =
      (forsAuth sha256 skSeed t (forsIndex md t) forsHeight).2.2[h]?) :
    forsRoot sha256 sig off md t = (forsAuth sha256 skSeed t (forsIndex md t) forsHeight).1 0 := by
  obtain ⟨hroot, htsig⟩ := forsAuth_final sha256 skSeed md t
  have hidx := forsIndex_lt md t
  rw [hroot]
  have hleaf := hsig 0 (by omega)
  rw [htsig, Nat.zero_mul, Nat.add_zero] at hleaf
  have hauth : ∀ h < forsHeight,
      readDigest sig (off + t * ((forsHeight + 1) * 16) + (h + 1) * 16) =
        sibling (compress sha256) (forsLeaf sha256 skSeed t) (forsIndex md t) h := by
    intro h hh
    have hread := hsig (h + 1) (by omega)
    rw [htsig] at hread
    simpa [List.getElem?_range hh] using hread
  unfold forsRoot
  dsimp only
  rw [Option.some.inj hleaf, climb_eq_node _ _ _ _ hauth, Nat.shiftRight_eq_div_pow, Nat.div_eq_of_lt hidx]

theorem forsPkFromSig_eq (hsig : ∀ t : Fin forsTrees, ∀ h < forsHeight + 1,
      some (readDigest sig (off + t * ((forsHeight + 1) * 16) + h * 16)) =
        (forsAuth sha256 skSeed t (forsIndex md t) forsHeight).2.2[h]?) :
    forsPkFromSig sha256 sig off md = (forsSign sha256 md skSeed).2 := by
  simp only [forsPkFromSig, forsSign, List.map_map]
  congr 2
  exact List.map_congr_left fun t _ => forsRoot_eq (hsig t)

end Fors

/-! ## Hypertree -/

/-- What is signed at layer `d`: the FORS key, or the root of the layer below. -/
def layerCtx (skSeed forsPk : Digest) (d : ℕ) : Digest :=
  if d = 0 then forsPk else treehash sha256 skSeed (d - 1)

/-- The part of the signature that layer `d` writes. -/
def layerSig (skSeed : Digest) (idx0 : ℕ) (forsPk : Digest) (d : ℕ) : List Digest :=
  wotsSign sha256 (layerCtx sha256 skSeed forsPk d) skSeed d (UInt64.ofNat (layerLeaf idx0 d)) ++
    authPath sha256 skSeed d (layerLeaf idx0 d)

theorem length_layerSig (skSeed : Digest) (idx0 : ℕ) (forsPk : Digest) (d : ℕ) :
    (layerSig sha256 skSeed idx0 forsPk d).length = wotsLen + treeHeight := by
  simp [layerSig, wotsSign, authPath]

theorem htSign_eq (skSeed : Digest) (idx0 : ℕ) (forsPk : Digest) :
    htSign sha256 skSeed idx0 forsPk =
      (List.range layers).flatMap (layerSig sha256 skSeed idx0 forsPk) := by
  -- the context is right as long as another layer follows
  have hloop : ∀ n ≤ layers, ∃ ctx, (n < layers → ctx = layerCtx sha256 skSeed forsPk n) ∧
      (List.range n).foldl
        (fun (s : List Digest × Digest) d =>
          (s.1 ++ wotsSign sha256 s.2 skSeed d (UInt64.ofNat (layerLeaf idx0 d)) ++
            authPath sha256 skSeed d (layerLeaf idx0 d),
            if d + 1 < layers then treehash sha256 skSeed d else s.2))
        (([] : List Digest), forsPk) =
        ((List.range n).flatMap (layerSig sha256 skSeed idx0 forsPk), ctx) := by
    intro n
    induction n with
    | zero => exact fun _ => ⟨forsPk, fun _ => rfl, rfl⟩
    | succ n ih =>
      intro hn
      obtain ⟨ctx, hctx, hfold⟩ := ih (by omega)
      obtain rfl := hctx (by omega)
      refine ⟨_, ?_, by
        rw [List.range_succ, List.foldl_append, hfold, List.flatMap_append]
        simp only [List.foldl_cons, List.foldl_nil, List.flatMap_cons, List.flatMap_nil,
          List.append_nil, layerSig, List.append_assoc]
        rfl⟩
      intro h
      rw [if_pos h]
      rfl
  obtain ⟨ctx, -, hfold⟩ := hloop layers le_rfl
  unfold htSign
  rw [hfold]

/-- The WOTS public key that the verifier finds at layer `d`. -/
def layerPk (sig : List UInt8) (off idx0 : ℕ) (forsPk : Digest) (d : ℕ) : List Digest :=
  let s := htVerify sha256 sig off idx0 forsPk d
  wotsVerify sha256 sig (off + s.1) s.2

/-- The node of height `h` on the path that the verifier climbs at layer `d`. -/
def layerNode (sig : List UInt8) (off idx0 : ℕ) (forsPk : Digest) (d h : ℕ) : Digest :=
  let pos := (htVerify sha256 sig off idx0 forsPk d).1 + wotsSigBytes
  climb (compress sha256) (fun h => readDigest sig (off + pos + h * 16)) (layerLeaf idx0 d) h
    (hash16 sha256 (bytes (layerPk sha256 sig off idx0 forsPk d)))

theorem htVerify_succ (sig : List UInt8) (off idx0 : ℕ) (forsPk : Digest) (d : ℕ) :
    htVerify sha256 sig off idx0 forsPk (d + 1) =
      ((htVerify sha256 sig off idx0 forsPk d).1 + wotsSigBytes + treeHeight * 16,
        layerNode sha256 sig off idx0 forsPk d treeHeight) := by
  simp only [htVerify, layerNode, layerPk, List.range_succ, List.foldl_append, List.foldl_cons, List.foldl_nil]

theorem layerLeaf_lt {idx0 : ℕ} (hidx : idx0 < 2 ^ treeHeight) (d : ℕ) : layerLeaf idx0 d < 2 ^ treeHeight := by
  unfold layerLeaf
  split
  · exact hidx
  · decide

section Layers

variable {sha256} {sig : List UInt8} {off idx0 : ℕ} {skSeed forsPk : Digest}

/-- Layer `d` of the verifier, when it holds what the signer signed there. -/
theorem layer_eq {d : ℕ} (hsig : ∀ i < wotsLen + treeHeight,
      some (readDigest sig (off + d * (wotsSigBytes + treeHeight * 16) + i * 16)) =
        (layerSig sha256 skSeed idx0 forsPk d)[i]?)
    (hd : htVerify sha256 sig off idx0 forsPk d =
      (d * (wotsSigBytes + treeHeight * 16), layerCtx sha256 skSeed forsPk d)) :
    layerPk sha256 sig off idx0 forsPk d = wotsPkgen sha256 skSeed d (UInt64.ofNat (layerLeaf idx0 d)) ∧
      ∀ h ≤ treeHeight, layerNode sha256 sig off idx0 forsPk d h =
        node (compress sha256) (layerLeaves sha256 skSeed d) h (layerLeaf idx0 d >>> h) := by
  have hwots : ∀ i < wotsLen,
      readDigest sig (off + d * (wotsSigBytes + treeHeight * 16) + i * 16) =
        wotsChain sha256 skSeed d (UInt64.ofNat (layerLeaf idx0 d)) i
          (wotsBasew sha256 (layerCtx sha256 skSeed forsPk d) i).toNat := by
    intro i hi
    have hread := hsig i (by omega)
    rw [layerSig, List.getElem?_append_left (by simpa [wotsSign] using hi)] at hread
    simpa [wotsSign, List.getElem?_range hi] using hread
  have hauth : ∀ h < treeHeight,
      readDigest sig (off + d * (wotsSigBytes + treeHeight * 16) + wotsSigBytes + h * 16) =
        sibling (compress sha256) (layerLeaves sha256 skSeed d) (layerLeaf idx0 d) h := by
    intro h hh
    have hread := hsig (wotsLen + h) (by omega)
    have hlen : (wotsSign sha256 (layerCtx sha256 skSeed forsPk d) skSeed d
        (UInt64.ofNat (layerLeaf idx0 d))).length = wotsLen := by simp [wotsSign]
    rw [layerSig, List.getElem?_append_right (by omega), hlen, Nat.add_sub_cancel_left,
      authPath_getElem? sha256 _ _ _ hh, Nat.add_mul, ← Nat.add_assoc] at hread
    exact Option.some.inj hread
  have hpk : layerPk sha256 sig off idx0 forsPk d =
      wotsPkgen sha256 skSeed d (UInt64.ofNat (layerLeaf idx0 d)) := by
    rw [layerPk, hd]
    exact wotsVerify_eq_wotsPkgen sha256 hwots
  refine ⟨hpk, fun h hh => ?_⟩
  rw [layerNode, hpk, hd]
  simp only [← Nat.add_assoc]
  exact climb_eq_node _ _ _ _ fun i hi => hauth i (by omega)

/-- After `n` layers the verifier holds what the signer signs next. -/
theorem htVerify_eq (hidx : idx0 < 2 ^ treeHeight)
    (hsig : ∀ d < layers, ∀ i < wotsLen + treeHeight,
      some (readDigest sig (off + d * (wotsSigBytes + treeHeight * 16) + i * 16)) =
        (layerSig sha256 skSeed idx0 forsPk d)[i]?) {n : ℕ} (hn : n ≤ layers) :
    htVerify sha256 sig off idx0 forsPk n =
      (n * (wotsSigBytes + treeHeight * 16), layerCtx sha256 skSeed forsPk n) := by
  induction n with
  | zero => simp [htVerify, layerCtx]
  | succ n ih =>
    have hn' := ih (by omega)
    rw [htVerify_succ, (layer_eq (hsig n (by omega)) hn').2 _ le_rfl, hn', Nat.shiftRight_eq_div_pow,
      Nat.div_eq_of_lt (layerLeaf_lt hidx n), ← treehash_eq]
    refine Prod.ext ?_ (by simp [layerCtx])
    dsimp only
    ring

end Layers

/-! ## Signatures -/

/-- `sign` on a secret key made by `keygen`. -/
def signNodes (skSeed skPrf pubSeed : Digest) (m : List UInt8) : List Digest :=
  let mh := sha256 m
  let r := hash16 sha256 (skPrf.toList ++ mh.toList)
  let md := messageDigest sha256 r pubSeed mh
  let fors := forsSign sha256 md skSeed
  [r] ++ fors.1 ++ [fors.2] ++ htSign sha256 skSeed (leaf0 md) fors.2

theorem sign_keygen (skSeed skPrf pubSeed : Digest) (m : List UInt8) :
    sign sha256 m (keygen sha256 skSeed skPrf pubSeed).2 =
      bytes (signNodes sha256 skSeed skPrf pubSeed m) := by
  have h₀ := @readDigest_bytes [skSeed, skPrf, pubSeed] 0 _ rfl
  have h₁ := @readDigest_bytes [skSeed, skPrf, pubSeed] 1 _ rfl
  have h₂ := @readDigest_bytes [skSeed, skPrf, pubSeed] 2 _ rfl
  simp only [Nat.zero_mul, Nat.one_mul] at h₀ h₁ h₂
  simp only [sign, keygen, signNodes, h₀, h₁, h₂]

theorem leaf0_lt (md : Vector UInt8 32) : leaf0 md < 2 ^ treeHeight :=
  lt_of_le_of_lt Nat.and_le_right (by decide)

theorem length_forsAuth (skSeed : Digest) (md : Vector UInt8 32) (t : Fin forsTrees) :
    (forsAuth sha256 skSeed t (forsIndex md t) forsHeight).2.2.length = forsHeight + 1 := by
  rw [(forsAuth_final sha256 skSeed md t).2]
  simp

theorem forsSign_getElem? (md : Vector UInt8 32) (skSeed : Digest) (t : Fin forsTrees) {h : ℕ}
    (hh : h < forsHeight + 1) :
    (forsSign sha256 md skSeed).1[t.val * (forsHeight + 1) + h]? =
      (forsAuth sha256 skSeed t (forsIndex md t) forsHeight).2.2[h]? := by
  have hlt : h < (forsAuth sha256 skSeed t (forsIndex md t) forsHeight).2.2.length := by
    rwa [length_forsAuth]
  rw [List.getElem?_eq_getElem hlt]
  unfold forsSign
  refine getElem?_flatMap (a := forsAuth sha256 skSeed t (forsIndex md t) forsHeight) ?_ ?_
    (List.getElem?_eq_getElem hlt)
  · simp [length_forsAuth]
  · rw [List.getElem?_map, List.getElem?_eq_getElem (by simp), List.getElem_finRange]
    rfl

theorem length_forsSign (md : Vector UInt8 32) (skSeed : Digest) :
    (forsSign sha256 md skSeed).1.length = forsTrees * (forsHeight + 1) := by
  simp [forsSign, List.length_flatMap, length_forsAuth, Function.comp_def]

theorem htSign_getElem? (skSeed : Digest) (idx0 : ℕ) (forsPk : Digest) {d i : ℕ} (hd : d < layers)
    (hi : i < wotsLen + treeHeight) :
    (htSign sha256 skSeed idx0 forsPk)[d * (wotsLen + treeHeight) + i]? =
      (layerSig sha256 skSeed idx0 forsPk d)[i]? := by
  have hlt : i < (layerSig sha256 skSeed idx0 forsPk d).length := by rwa [length_layerSig]
  rw [htSign_eq, List.getElem?_eq_getElem hlt]
  exact getElem?_flatMap (fun d _ => length_layerSig sha256 skSeed idx0 forsPk d)
    (List.getElem?_range hd) (List.getElem?_eq_getElem hlt)

theorem length_htSign (skSeed : Digest) (idx0 : ℕ) (forsPk : Digest) :
    (htSign sha256 skSeed idx0 forsPk).length = layers * (wotsLen + treeHeight) := by
  rw [htSign_eq, List.length_flatMap]
  simp [length_layerSig]

/-- The index of a digest of the FORS part, and of the hypertree part, in the whole signature. -/
theorem fors_offset (t h : ℕ) :
    16 + t * ((forsHeight + 1) * 16) + h * 16 = (t * (forsHeight + 1) + h + 1) * 16 := by
  simp only [forsHeight]
  omega

theorem ht_offset (d i : ℕ) :
    16 + forsSigBytes + 16 + d * (wotsSigBytes + treeHeight * 16) + i * 16 =
      (forsTrees * (forsHeight + 1) + (d * (wotsLen + treeHeight) + i + 1) + 1) * 16 := by
  simp only [forsSigBytes, wotsSigBytes, forsTrees, forsHeight, wotsLen, wotsLen1, treeHeight]
  omega

/-- The signature has the signer's values at the offsets where the verifier reads them. -/
structure Reads (sig : List UInt8) (skSeed r : Digest) (md : Vector UInt8 32) : Prop where
  length : ¬ sig.length < sigBytes
  r : readDigest sig 0 = r
  forsPk : readDigest sig (16 + forsSigBytes) = (forsSign sha256 md skSeed).2
  fors : ∀ t : Fin forsTrees, ∀ h < forsHeight + 1,
    some (readDigest sig (16 + t * ((forsHeight + 1) * 16) + h * 16)) =
      (forsAuth sha256 skSeed t (forsIndex md t) forsHeight).2.2[h]?
  ht : ∀ d < layers, ∀ i < wotsLen + treeHeight,
    some (readDigest sig (16 + forsSigBytes + 16 + d * (wotsSigBytes + treeHeight * 16) + i * 16)) =
      (layerSig sha256 skSeed (leaf0 md) (forsSign sha256 md skSeed).2 d)[i]?

/-- Every value that the verifier recomputes from the signature over the digest `md` is the one of
the signer: the FORS roots and their hash, and at each layer of the hypertree the WOTS public key,
the nodes of the path at every height, and the root. -/
structure Retraces (sig : List UInt8) (skSeed : Digest) (md : Vector UInt8 32) : Prop where
  forsRoot : ∀ t, forsRoot sha256 sig 16 md t = (forsAuth sha256 skSeed t (forsIndex md t) forsHeight).1 0
  forsPk : forsPkFromSig sha256 sig 16 md = (forsSign sha256 md skSeed).2
  wotsPk : ∀ d < layers,
    layerPk sha256 sig (16 + forsSigBytes + 16) (leaf0 md) (forsPkFromSig sha256 sig 16 md) d =
      wotsPkgen sha256 skSeed d (UInt64.ofNat (layerLeaf (leaf0 md) d))
  path : ∀ d < layers, ∀ h ≤ treeHeight,
    layerNode sha256 sig (16 + forsSigBytes + 16) (leaf0 md) (forsPkFromSig sha256 sig 16 md) d h =
      subtreeRoot sha256 skSeed d h (layerLeaf (leaf0 md) d >>> h <<< h)
  root : ∀ d < layers,
    (htVerify sha256 sig (16 + forsSigBytes + 16) (leaf0 md) (forsPkFromSig sha256 sig 16 md) (d + 1)).2 =
      treehash sha256 skSeed d

section Reads

variable {sha256} {skSeed r : Digest} {md : Vector UInt8 32}

theorem Reads.retraces {sig : List UInt8} (h : Reads sha256 sig skSeed r md) :
    Retraces sha256 sig skSeed md := by
  have hpk := forsPkFromSig_eq h.fors
  have hht : ∀ n ≤ layers, _ := fun n hn => htVerify_eq (leaf0_lt md) h.ht (n := n) hn
  have hlayer : ∀ d < layers, _ := fun d hd => layer_eq (h.ht d hd) (hht d hd.le)
  refine ⟨fun t => forsRoot_eq (h.fors t), hpk, ?_, ?_, ?_⟩
  · intro d hd
    rw [hpk]
    exact (hlayer d hd).1
  · intro d hd i hi
    rw [hpk, subtreeRoot_eq]
    exact (hlayer d hd).2 i hi
  · intro d hd
    rw [hpk, hht (d + 1) hd]
    rfl

/-- A signature with the signer's values in their places is accepted under one root only. -/
theorem Reads.verify_iff {sig m : List UInt8} {pubSeed root : Digest} (h : Reads sha256 sig skSeed r md)
    (hmd : md = messageDigest sha256 r pubSeed (sha256 m)) :
    verify sha256 sig m (bytes [pubSeed, root]) = 0 ↔ root = treehash sha256 skSeed (layers - 1) := by
  have hpkSeed := @readDigest_bytes [pubSeed, root] 0 _ rfl
  have hpkRoot := @readDigest_bytes [pubSeed, root] 1 _ rfl
  rw [Nat.zero_mul] at hpkSeed
  rw [Nat.one_mul] at hpkRoot
  have hr := h.retraces
  have hroot : (htVerify sha256 sig (16 + forsSigBytes + 16) (leaf0 md) (forsPkFromSig sha256 sig 16 md)
      layers).2 = treehash sha256 skSeed (layers - 1) := hr.root (layers - 1) (by decide)
  rw [verify, if_neg h.length, h.r, hpkSeed, hpkRoot]
  dsimp only
  rw [← hmd, hr.forsPk, h.forsPk, if_neg (not_not.mpr rfl), ← hr.forsPk, hroot]
  split
  · next heq => exact iff_of_true rfl heq.symm
  · next hne => exact iff_of_false (by decide) fun heq => hne heq.symm

theorem reads_bytes {F H : List Digest} (hF : F.length = forsTrees * (forsHeight + 1))
    (hH : H.length = layers * (wotsLen + treeHeight))
    (hfors : ∀ t : Fin forsTrees, ∀ h < forsHeight + 1, F[t.val * (forsHeight + 1) + h]? =
      (forsAuth sha256 skSeed t (forsIndex md t) forsHeight).2.2[h]?)
    (hht : ∀ d < layers, ∀ i < wotsLen + treeHeight, H[d * (wotsLen + treeHeight) + i]? =
      (layerSig sha256 skSeed (leaf0 md) (forsSign sha256 md skSeed).2 d)[i]?) :
    Reads sha256 (bytes (r :: (F ++ (forsSign sha256 md skSeed).2 :: H))) skSeed r md where
  length := by
    rw [length_bytes, List.length_cons, List.length_append, List.length_cons, hF, hH]
    decide
  r := @readDigest_bytes (r :: (F ++ _ :: H)) 0 r rfl
  forsPk := by
    refine @readDigest_bytes (r :: (F ++ _ :: H)) (forsTrees * (forsHeight + 1) + 1) _ ?_
    rw [List.getElem?_cons_succ, List.getElem?_append_right hF.le, hF, Nat.sub_self]
    rfl
  fors := by
    intro t h hh
    have hlt : t.val * (forsHeight + 1) + h < F.length := by
      have ht : t.val < 30 := t.isLt
      rw [hF]
      simp only [forsHeight, forsTrees] at hh ⊢
      omega
    rw [← hfors t h hh, List.getElem?_eq_getElem hlt, fors_offset]
    refine congrArg some (readDigest_bytes ?_)
    rw [List.getElem?_cons_succ, List.getElem?_append_left hlt, List.getElem?_eq_getElem hlt]
  ht := by
    intro d hd i hi
    have hlt : d * (wotsLen + treeHeight) + i < H.length := by
      rw [hH]
      simp only [layers, wotsLen, wotsLen1, treeHeight] at hd hi ⊢
      omega
    rw [← hht d hd i hi, List.getElem?_eq_getElem hlt, ht_offset, ← hF]
    refine congrArg some (readDigest_bytes ?_)
    rw [List.getElem?_cons_succ, List.getElem?_append_right (by omega), Nat.add_sub_cancel_left,
      List.getElem?_cons_succ, List.getElem?_eq_getElem hlt]

end Reads

theorem reads_sign (skSeed skPrf pubSeed : Digest) (m : List UInt8) :
    let r := hash16 sha256 (skPrf.toList ++ (sha256 m).toList)
    Reads sha256 (sign sha256 m (keygen sha256 skSeed skPrf pubSeed).2) skSeed r
      (messageDigest sha256 r pubSeed (sha256 m)) := by
  intro r
  rw [sign_keygen]
  unfold signNodes
  dsimp only
  rw [List.append_assoc, List.append_assoc, List.singleton_append, List.singleton_append]
  exact reads_bytes (length_forsSign sha256 _ _) (length_htSign sha256 _ _ _)
    (fun t h hh => forsSign_getElem? sha256 _ skSeed t hh)
    (fun d hd i hi => htSign_getElem? sha256 skSeed _ _ hd hi)

/-- For every hash function, key pair and message, the verifier of the signature recomputes the
digest and every value that the signer used, accepts it, and does so under no other root. -/
theorem verify_sign (skSeed skPrf pubSeed : Digest) (m : List UInt8) :
    let keys := keygen sha256 skSeed skPrf pubSeed
    let sig := sign sha256 m keys.2
    let md := messageDigest sha256 (readDigest sig 0) (readDigest keys.1 0) (sha256 m)
    md = messageDigest sha256 (hash16 sha256 (skPrf.toList ++ (sha256 m).toList)) pubSeed (sha256 m) ∧
      Retraces sha256 sig skSeed md ∧ verify sha256 sig m keys.1 = 0 ∧
        ∀ root, verify sha256 sig m (bytes [pubSeed, root]) = 0 → root = treehash sha256 skSeed (layers - 1) := by
  intro keys sig md
  have hreads : Reads sha256 sig skSeed _ _ := reads_sign sha256 skSeed skPrf pubSeed m
  have hseed : readDigest keys.1 0 = pubSeed :=
    @readDigest_bytes [pubSeed, treehash sha256 skSeed (layers - 1)] 0 _ rfl
  have hmd : md = messageDigest sha256 (hash16 sha256 (skPrf.toList ++ (sha256 m).toList)) pubSeed (sha256 m) := by
    unfold md
    rw [hreads.r, hseed]
  rw [hmd]
  exact ⟨rfl, hreads.retraces, (hreads.verify_iff rfl).mpr rfl, fun root => (hreads.verify_iff rfl).mp⟩

end SneppxAlg.Sphincs
