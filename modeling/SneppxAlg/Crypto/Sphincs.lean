import SneppxAlg.Lib.Merkle

/-!
# `sphincsplus.c`: stateless hash-based signatures

The hypertree of `D` Merkle trees over WOTS one-time keys, and the FORS forest that commits to the
message digest. SHA-256 is a parameter of the development: nothing below depends on what it
computes. Signatures and keys are the byte strings the C code lays out, and the verifier reads
them back at the offsets it computes itself.

The `NULL` checks at the head of the three entry points are left out; the buffers here exist.
-/

namespace SneppxAlg.Sphincs

open Lib.Merkle

/-- A 16-byte hash value (`SPX_N`). -/
abbrev Digest := Vector UInt8 16

/-- The hash function, `SNEPPX_sha256`. -/
abbrev Sha256 := List UInt8 → Vector UInt8 32

/-! ## Parameters -/

/-- `SPX_WOTS_LEN1`: the nibbles of a 32-byte digest. -/
abbrev wotsLen1 : ℕ := 64

/-- `SPX_WOTS_LEN`: message nibbles and three checksum nibbles. -/
abbrev wotsLen : ℕ := wotsLen1 + 3

/-- `SPX_WOTS_CHAINS`: the length of a full chain. -/
abbrev wotsChains : ℕ := 15

/-- `SPX_FORS_TREES`. -/
abbrev forsTrees : ℕ := 30

/-- `SPX_FORS_HEIGHT`. -/
abbrev forsHeight : ℕ := 5

/-- `SPX_TREE_HEIGHT`. -/
abbrev treeHeight : ℕ := 6

/-- `SPX_D`: the layers of the hypertree. -/
abbrev layers : ℕ := 10

/-- `SPX_WOTS_SIG_BYTES`. -/
abbrev wotsSigBytes : ℕ := wotsLen * 16

/-- `SPX_FORS_SIG_BYTES`. -/
abbrev forsSigBytes : ℕ := forsTrees * ((forsHeight + 1) * 16)

/-- `SPX_HT_SIG_BYTES`. -/
abbrev htSigBytes : ℕ := layers * (wotsSigBytes + treeHeight * 16)

/-- `SPX_SIG_BYTES`. -/
abbrev sigBytes : ℕ := 16 + forsSigBytes + 16 + htSigBytes

abbrev tagWots : UInt8 := 0x01

abbrev tagFors : UInt8 := 0x02

/-! ## Buffers -/

/-- A run of digests written one after the other. -/
def bytes (ds : List Digest) : List UInt8 := ds.flatMap Vector.toList

/-- The digest that starts at byte `off`. -/
def readDigest (buf : List UInt8) (off : ℕ) : Digest :=
  Vector.ofFn fun i => buf.getD (off + i) 0

/-! ## Hashing -/

section Hash

variable (sha256 : Sha256)

/-- `spx_hash16`: the first half of a SHA-256 value. -/
def hash16 (inp : List UInt8) : Digest := Vector.ofFn fun i : Fin 16 => (sha256 inp).get (i.castLE (by decide))

/-- The eight bytes of a counter, least significant first. -/
def counterBytes (a : UInt64) : List UInt8 :=
  (List.range 8).map fun i => (a >>> UInt64.ofNat (8 * i)).toUInt8

/-- `spx_prf`. -/
def prf (seed : Digest) (tag : UInt8) (a b : UInt64) : Digest :=
  hash16 sha256 (seed.toList ++ [tag] ++ counterBytes a ++ counterBytes b)

/-- `spx_compress`. -/
def compress (a b : Digest) : Digest := hash16 sha256 (a.toList ++ b.toList)

/-! ## WOTS -/

/-- Nibble `i` of the hashed message. -/
def messageNibble (ctx : Digest) (i : Fin wotsLen1) : UInt8 :=
  let wm := sha256 ctx.toList
  (wm.get ⟨i.val / 2, by have h := i.isLt; unfold wotsLen1 at h; omega⟩ >>> UInt8.ofNat (4 * (1 - i.val % 2))) &&& 0x0f

/-- The checksum `csum` of the message nibbles. -/
def checksum (ctx : Digest) : UInt32 :=
  (List.finRange wotsLen1).foldl
    (fun csum i => csum + (UInt32.ofNat 15 - (messageNibble sha256 ctx i).toUInt32)) 0

/-- `spx_wots_basew`: digit `i` of the message and its checksum. -/
def wotsBasew (ctx : Digest) (i : ℕ) : UInt8 :=
  if h : i < wotsLen1 then messageNibble sha256 ctx ⟨i, h⟩
  else ((checksum sha256 ctx >>> UInt32.ofNat (4 * (i - wotsLen1))) &&& 0x0f).toUInt8

/-- One link of a chain: position `j` is hashed along with the value. -/
def chainStep (j : ℕ) (x : Digest) : Digest := hash16 sha256 (x.toList ++ [UInt8.ofNat j])

/-- `spx_wots_chain`. -/
def wotsChain (skSeed : Digest) (layer : ℕ) (leaf : UInt64) (chainIdx steps : ℕ) : Digest :=
  chain (chainStep sha256) 0 steps
    (prf sha256 skSeed tagWots (UInt64.ofNat layer) ((leaf <<< 8) ||| UInt64.ofNat chainIdx))

/-- `spx_wots_pkgen`. -/
def wotsPkgen (skSeed : Digest) (layer : ℕ) (leaf : UInt64) : List Digest :=
  (List.range wotsLen).map fun i => wotsChain sha256 skSeed layer leaf i wotsChains

/-- `spx_wots_sign`. -/
def wotsSign (ctx : Digest) (skSeed : Digest) (layer : ℕ) (leaf : UInt64) : List Digest :=
  (List.range wotsLen).map fun i =>
    wotsChain sha256 skSeed layer leaf i (wotsBasew sha256 ctx i).toNat

/-- `spx_wots_verify`: the public key that the signature at `off` leads to. -/
def wotsVerify (sig : List UInt8) (off : ℕ) (ctx : Digest) : List Digest :=
  (List.range wotsLen).map fun i =>
    let basew := (wotsBasew sha256 ctx i).toNat
    chain (chainStep sha256) basew (wotsChains - basew) (readDigest sig (off + i * 16))

/-! ## Merkle trees -/

/-- `spx_wots_leaf`. -/
def wotsLeaf (skSeed : Digest) (layer : ℕ) (index : UInt64) : Digest :=
  hash16 sha256 (bytes (wotsPkgen sha256 skSeed layer index))

/-- `spx_subtree_root`: the node of height `level` over the leaves from `offset` on. -/
def subtreeRoot (skSeed : Digest) (layer level offset : ℕ) : Digest :=
  levels (compress sha256) (1 <<< level) level
    (fun i => wotsLeaf sha256 skSeed layer (UInt64.ofNat (offset + i))) 0

/-- `spx_treehash`: the root of a layer. -/
def treehash (skSeed : Digest) (layer : ℕ) : Digest :=
  levels (compress sha256) (1 <<< treeHeight) treeHeight
    (fun i => wotsLeaf sha256 skSeed layer (UInt64.ofNat i)) 0

/-! ## FORS -/

theorem forsIndex_bound (t : Fin forsTrees) (b : Fin forsHeight) :
    (t.val * forsHeight + b.val) / 8 < 32 := by
  have ht : t.val < 30 := t.isLt
  have hb : b.val < 5 := b.isLt
  show (t.val * 5 + b.val) / 8 < 32
  omega

/-- `spx_fors_index`: five bits of the digest. -/
def forsIndex (md : Vector UInt8 32) (t : Fin forsTrees) : ℕ :=
  (List.finRange forsHeight).foldl
    (fun idx b =>
      let p := t.val * forsHeight + b.val
      if md.get ⟨p / 8, forsIndex_bound t b⟩ &&& (1 <<< UInt8.ofNat (p % 8)) ≠ 0 then
        idx ||| 1 <<< b.val
      else idx) 0

/-- The leaves of FORS tree `t`. -/
def forsLeaf (skSeed : Digest) (t : Fin forsTrees) (i : ℕ) : Digest :=
  prf sha256 skSeed tagFors (UInt64.ofNat t) (UInt64.ofNat i)

/-- The loop over `h` in `spx_fors_sign`: the tree array, the position, and the signature so far. -/
def forsAuth (skSeed : Digest) (t : Fin forsTrees) (idx h : ℕ) : (ℕ → Digest) × ℕ × List Digest :=
  (List.range h).foldl
    (fun (tree, pos, tsig) h =>
      (levelUp (compress sha256) ((1 <<< forsHeight) >>> (h + 1)) tree, pos >>> 1,
        tsig ++ [tree (pos ^^^ 1)]))
    (forsLeaf sha256 skSeed t, idx, [forsLeaf sha256 skSeed t idx])

/-- `spx_fors_sign`: the signature and the FORS public key. -/
def forsSign (md : Vector UInt8 32) (skSeed : Digest) : List Digest × Digest :=
  let trees := (List.finRange forsTrees).map fun t =>
    forsAuth sha256 skSeed t (forsIndex md t) forsHeight
  (trees.flatMap fun tr => tr.2.2, hash16 sha256 (bytes (trees.map fun tr => tr.1 0)))

/-- `spx_fors_pk_from_sig`, on the signature at `off`. -/
def forsPkFromSig (sig : List UInt8) (off : ℕ) (md : Vector UInt8 32) : Digest :=
  let roots := (List.finRange forsTrees).map fun t =>
    let tsig := off + t.val * ((forsHeight + 1) * 16)
    climb (compress sha256) (fun h => readDigest sig (tsig + (h + 1) * 16)) (forsIndex md t)
      forsHeight (readDigest sig tsig)
  hash16 sha256 (bytes roots)

/-! ## Hypertree -/

/-- The leaf used at layer `d`. -/
def layerLeaf (idx0 d : ℕ) : ℕ := if d = 0 then idx0 else 0

/-- The authentication path written for leaf `leaf` of layer `d`. -/
def authPath (skSeed : Digest) (d leaf : ℕ) : List Digest :=
  (List.range treeHeight).map fun h =>
    let sibling := leaf ^^^ 1 <<< h
    let offset := (sibling >>> h) <<< h
    subtreeRoot sha256 skSeed d h offset

/-- `spx_ht_sign`: the loop over the layers with the context `ctx` that each one signs. -/
def htSign (skSeed : Digest) (idx0 : ℕ) (forsPk : Digest) : List Digest :=
  ((List.range layers).foldl
    (fun (sig, ctx) d =>
      let leaf := layerLeaf idx0 d
      let sig := sig ++ wotsSign sha256 ctx skSeed d (UInt64.ofNat leaf) ++
        authPath sha256 skSeed d leaf
      (sig, if d + 1 < layers then treehash sha256 skSeed d else ctx))
    (([] : List Digest), forsPk)).1

/-- The loop over the layers in `SNEPPX_sphincs_verify`: the position in the hypertree signature at
`off`, and the node reached. -/
def htVerify (sig : List UInt8) (off idx0 : ℕ) (forsPk : Digest) (n : ℕ) : ℕ × Digest :=
  (List.range n).foldl
    (fun (pos, ctx) d =>
      let leaf := layerLeaf idx0 d
      let wotsPk := wotsVerify sha256 sig (off + pos) ctx
      let pos := pos + wotsSigBytes
      let leafHash := hash16 sha256 (bytes wotsPk)
      (pos + treeHeight * 16,
        climb (compress sha256) (fun h => readDigest sig (off + pos + h * 16)) leaf treeHeight
          leafHash))
    (0, forsPk)

/-! ## Keys and signatures -/

/-- `spx_md`. -/
def messageDigest (r pubSeed : Digest) (mh : Vector UInt8 32) : Vector UInt8 32 :=
  sha256 (r.toList ++ pubSeed.toList ++ mh.toList)

/-- `spx_leaf0`. -/
def leaf0 (md : Vector UInt8 32) : ℕ :=
  (((md.get 19).toNat >>> 6) ||| (((md.get 20).toNat &&& 0x0f) <<< 2)) &&& 0x3f

/-- `SNEPPX_sphincs_keygen`, given the three seeds it draws: the public and the secret key. -/
def keygen (skSeed skPrf pubSeed : Digest) : List UInt8 × List UInt8 :=
  (bytes [pubSeed, treehash sha256 skSeed (layers - 1)], bytes [skSeed, skPrf, pubSeed])

/-- `SNEPPX_sphincs_sign`. -/
def sign (m : List UInt8) (sk : List UInt8) : List UInt8 :=
  let skSeed := readDigest sk 0
  let skPrf := readDigest sk 16
  let pubSeed := readDigest sk 32
  let mh := sha256 m
  let r := hash16 sha256 (skPrf.toList ++ mh.toList)
  let md := messageDigest sha256 r pubSeed mh
  let idx0 := leaf0 md
  let (forsSig, forsPk) := forsSign sha256 md skSeed
  bytes ([r] ++ forsSig ++ [forsPk] ++ htSign sha256 skSeed idx0 forsPk)

/-- `SNEPPX_sphincs_verify`: `0` for an accepted signature, `-1` for a refused one. -/
def verify (sig : List UInt8) (m : List UInt8) (pk : List UInt8) : Int :=
  if sig.length < sigBytes then -1
  else
    let r := readDigest sig 0
    let mh := sha256 m
    let md := messageDigest sha256 r (readDigest pk 0) mh
    let idx0 := leaf0 md
    let forsPk := forsPkFromSig sha256 sig 16 md
    if forsPk ≠ readDigest sig (16 + forsSigBytes) then -1
    else if (htVerify sha256 sig (16 + forsSigBytes + 16) idx0 forsPk layers).2 = readDigest pk 16
    then 0
    else -1

end Hash

end SneppxAlg.Sphincs
