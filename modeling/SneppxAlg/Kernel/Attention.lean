import SneppxAlg.Lib.MaskedSoftmax
import SneppxAlg.Lib.Scatter

/-!
# Attention with and without a cache

`kernel/attention/attention.c`: `SNEPPX_attn_forward` attends over a whole sequence, and
`SNEPPX_attn_forward_cached` over the tokens of a chunk and those before it, whose keys and values it
keeps in a cache. A sequence that is fed in chunks should give the rows that it gives as a whole.

Both take the projections, which lie as `[B, S, H * hd]`, for `[B, H, S, hd]` without moving anything, so
what a head sees depends on the length of the chunk. The cached path then reads the cache, which lies as
`[B, H, capacity, hd]`, as if its third dimension were the number of tokens so far. With one batch and one
head neither matters. Otherwise the rows agree for all weights only if there is one chunk that fills
the cache (`cachedForward_iff`).

The arithmetic is exact, with any positive function for `expf` and any number for the square root in the
scale; a masked place has the weight zero. Tensors are their data in row-major order, and entries beyond
their size are never read. Storage is taken as available and the shapes as those that `w` asks for.
-/

namespace SneppxAlg.Attention

open Lib.MaskedSoftmax Lib.Scatter

/-- The fields of `SNEPPXAttentionConfig` that the two functions read. -/
structure AttentionConfig where
  numHeads : ℕ
  headDim : ℕ
  dModel : ℕ
  useCausalMask : Bool
  useRope : Bool

structure AttentionWeights (K : Type*) where
  config : AttentionConfig
  wQ : ℕ → K
  wK : ℕ → K
  wV : ℕ → K
  wO : ℕ → K

/-- The table of `SNEPPX_rope_precompute`, with the number of its columns. -/
structure RopeTable (K : Type*) where
  data : ℕ → K
  cols : ℕ

/-- `SNEPPXKVCache`; `capacity` is the third dimension of its tensors. -/
structure KVCache (K : Type*) where
  k : ℕ → K
  v : ℕ → K
  capacity : ℕ
  seqLen : ℕ

variable {K : Type*} [Field K] [LinearOrder K]

/-- `SNEPPX_kv_cache_create`. -/
def kvCacheCreate (maxSeq : ℕ) : KVCache K :=
  { k := fun _ => 0, v := fun _ => 0, capacity := maxSeq, seqLen := 0 }

/-- `matmul_3d`: `[B, S, D]` times `[D, Dk]`. -/
def matmul3d (D Dk : ℕ) (a b : ℕ → K) : ℕ → K := fun i =>
  ∑ d ∈ Finset.range D, a (i / Dk * D + d) * b (d * Dk + i % Dk)

/-- `SNEPPX_tensor_matmul` of `[B, m, k]` and `[k, n]`. -/
def tensorMatmul (m k n : ℕ) (a b : ℕ → K) : ℕ → K := fun i =>
  let batch := i / (m * n)
  let r := i % (m * n)
  ∑ l ∈ Finset.range k, a (batch * (m * k) + r / n * k + l) * b (l * n + r % n)

/-- `SNEPPX_rope_apply` on one of its tensors, `[.., S, d]`. -/
def ropeApply (d S offset : ℕ) (table : RopeTable K) (x : ℕ → K) : ℕ → K := fun i =>
  let half := d / 2
  let base := i / d * d
  let c := i % d
  let pos := i / d % S + offset
  if c < half then
    x (base + c) * table.data (pos * table.cols + c) -
      x (base + c + half) * table.data (pos * table.cols + half + c)
  else if c < 2 * half then
    x (base + (c - half)) * table.data (pos * table.cols + half + (c - half)) +
      x (base + (c - half) + half) * table.data (pos * table.cols + (c - half))
  else x i

/-- `SNEPPX_batched_matmul` with `transpose_b`: `[B, H, S, D]` and `[B, H, S2, D]`. -/
def batchedMatmulT (S S2 D : ℕ) (a b : ℕ → K) : ℕ → K := fun i =>
  ∑ d ∈ Finset.range D, a (i / S2 * D + d) * b ((i / S2 / S * S2 + i % S2) * D + d)

/-- `SNEPPX_batched_matmul` without `transpose_b`: `[B, H, S, D]` and `[B, H, D, S2]`. -/
def batchedMatmul (S D S2 : ℕ) (a b : ℕ → K) : ℕ → K := fun i =>
  ∑ d ∈ Finset.range D, a (i / S2 * D + d) * b ((i / S2 / S * D + d) * S2 + i % S2)

/-- Whether the mask leaves place `j` of the row of token `t`. There is none for a single place. -/
def keeps (causal : Bool) (total t j : ℕ) : Bool := !(causal && decide (1 < total)) || decide (j ≤ t)

theorem atLeastTwo_ten : Nat.AtLeastTwo 10 := ⟨by decide⟩

attribute [local instance] atLeastTwo_ten

/-- The scores of `[B, H, S, total]` after the softmax over their rows. Row `s` of a head stands for the
token `offset + s`. -/
def softmaxRows (exp : K → K) (causal : Bool) (S offset total : ℕ) (scores : ℕ → K) : ℕ → K := fun i =>
  let r := i / total
  weight exp (1 / 10 ^ 10) (fun j => scores (r * total + j)) (keeps causal total (offset + r % S)) total
    (i % total)

/-- The attention of queries `[B, H, S, hd]` over keys and values that are read as
`[B, H, total, hd]`. -/
def attend (exp : K → K) (rsqrt : ℕ → K) (causal : Bool) (S offset total hd : ℕ) (q k v : ℕ → K) :
    ℕ → K :=
  let scores := fun i => batchedMatmulT S total hd q k i * rsqrt hd
  batchedMatmul S total hd (softmaxRows exp causal S offset total scores) v

section Forward

variable (exp : K → K) (rsqrt : ℕ → K) (w : AttentionWeights K)

def rotate (S offset : ℕ) (table : Option (RopeTable K)) (x : ℕ → K) : ℕ → K :=
  match table with
  | some t => if w.config.useRope then ropeApply w.config.headDim S offset t x else x
  | none => x

/-- `SNEPPX_attn_forward` on `[B, S, d_model]`. The reshapes leave the data as they are. -/
def attnForward (S : ℕ) (x : ℕ → K) (table : Option (RopeTable K)) : ℕ → K :=
  let D := w.config.dModel
  let hd := w.config.headDim
  let dk := w.config.numHeads * hd
  let q := rotate w S 0 table (matmul3d D dk x w.wQ)
  let k := rotate w S 0 table (matmul3d D dk x w.wK)
  let v := matmul3d D dk x w.wV
  matmul3d D D (attend exp rsqrt w.config.useCausalMask S 0 S hd q k v) w.wO

/-- The loops that append keys or values `[B, H, S, hd]` to a cache. -/
def appendTo (B H S hd capacity offset : ℕ) (src cells : ℕ → K) : ℕ → K :=
  scatter (fun i => (i / hd / S * capacity + offset + i / hd % S) * hd + i % hd) src
    (B * H * S * hd) cells

/-- `SNEPPX_attn_forward_cached` on `[B, S, d_model]`, with the cache that it leaves. -/
def attnForwardCached (B S : ℕ) (x : ℕ → K) (cache : KVCache K) (table : Option (RopeTable K)) :
    (ℕ → K) × KVCache K :=
  let D := w.config.dModel
  let H := w.config.numHeads
  let hd := w.config.headDim
  let offset := cache.seqLen
  let total := offset + S
  let q := rotate w S offset table (tensorMatmul S D (H * hd) x w.wQ)
  let k := rotate w S offset table (tensorMatmul S D (H * hd) x w.wK)
  let v := tensorMatmul S D (H * hd) x w.wV
  let cache' : KVCache K :=
    { cache with
      k := appendTo B H S hd cache.capacity offset k cache.k
      v := appendTo B H S hd cache.capacity offset v cache.v
      seqLen := total }
  let out := attend exp rsqrt w.config.useCausalMask S offset total hd q cache'.k cache'.v
  (tensorMatmul S D D out w.wO, cache')

/-- The tokens from `start` on of a sequence `[B, n, D]`, as a tensor `[B, S, D]`. -/
def chunk (n D start S : ℕ) (x : ℕ → K) : ℕ → K := fun i =>
  x (i / (S * D) * (n * D) + start * D + i % (S * D))

/-- Feeds a sequence in chunks: the lengths of the chunks with the outputs. -/
def feed (B n : ℕ) (x : ℕ → K) (table : Option (RopeTable K)) :
    List ℕ → KVCache K → List (ℕ × (ℕ → K))
  | [], _ => []
  | S :: rest, cache =>
    let r := attnForwardCached exp rsqrt w B S (chunk n w.config.dModel cache.seqLen S x) cache table
    (S, r.1) :: feed B n x table rest r.2

end Forward

/-- Entry `c` of token `t` of outputs that are put one behind the other. -/
def concatAt (D : ℕ) : List (ℕ × (ℕ → K)) → ℕ → ℕ → ℕ → K
  | [], _, _, _ => 0
  | (S, out) :: rest, b, t, c =>
    if t < S then out ((b * S + t) * D + c) else concatAt D rest b (t - S) c

end SneppxAlg.Attention
