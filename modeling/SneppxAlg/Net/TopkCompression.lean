import Mathlib.Algebra.Order.Ring.Rat
import Mathlib.Data.Int.Log
import Mathlib.Data.List.GetD
import Mathlib.Data.Rat.Floor
import Mathlib.Tactic.NormNum
import Mathlib.Tactic.Positivity
import SneppxAlg.Lib.Ranking
import SneppxAlg.Lib.Scatter
import SneppxAlg.Lib.Segments

/-!
# Compressed chunks

`compress_topk`, `decompress` and the receiving half of `scatter_reduce_step` of
`net/distributed/src/lib.rs`. A chunk is sent as the entries of largest magnitude and a random sample of the
others, each with its index. What is sent is right (`compressTopk_spec`), but the receiver makes its part of
the vector as long as the list of values, and drops an index beyond that.

So all entries arrive, whatever the sample is, only if the chunk is sent as a whole but for its last entry,
and that one is the smallest (`topk_delivers_iff`).

The values are any type with magnitudes that can be compared, so no values that are not finite. The number of
entries is computed in `f32`, and indices are `u32`.
-/

namespace SneppxAlg.TopkCompression

open Lib.Ranking Lib.Scatter Lib.Segments

/-! ## The number of entries -/

/-- To the nearest integer, and to the even one from the middle. -/
def roundHalfEven (x : ℚ) : ℤ :=
  if x - ⌊x⌋ < 1 / 2 ∨ (x - ⌊x⌋ = 1 / 2 ∧ ⌊x⌋ % 2 = 0) then ⌊x⌋ else ⌊x⌋ + 1

/-- The `f32` nearest to a number that is not negative, below the largest one. -/
def roundF32 (x : ℚ) : ℚ :=
  roundHalfEven (x / 2 ^ (max (Int.log 2 x) (-126) - 23)) * 2 ^ (max (Int.log 2 x) (-126) - 23)

/-- `((n as f32) * ratio).max(1.0).min(n as f32) as usize`. -/
def topCount (n : ℕ) (ratio : ℚ) : ℕ :=
  ⌊min (max (roundF32 (roundF32 n * ratio)) 1) (roundF32 n)⌋₊

theorem roundHalfEven_intCast (z : ℤ) : roundHalfEven z = z := by simp [roundHalfEven]

/-- Numbers below 2²⁴ are exact. -/
theorem roundF32_natCast {n : ℕ} (hn : n < 2 ^ 24) : roundF32 n = n := by
  have hlog : Nat.log 2 n < 24 := Nat.log_lt_of_lt_pow' (by norm_num) hn
  have hexp : (Nat.log 2 n : ℤ) - 23 = -((23 - Nat.log 2 n : ℕ) : ℤ) := by omega
  have hround := roundHalfEven_intCast (n * 2 ^ (23 - Nat.log 2 n))
  push_cast at hround
  rw [roundF32, Int.log_natCast, max_eq_left (by omega), hexp, zpow_neg, zpow_natCast, div_inv_eq_mul, hround]
  push_cast
  exact mul_inv_cancel_right₀ (by positivity) _

theorem topCount_zero (ratio : ℚ) : topCount 0 ratio = 0 := by simp [topCount, roundF32, roundHalfEven]

/-! ## Sending -/

/-- The operations on finite values: `abs`, the factor `n as f32 / len as f32`, addition, and `0.0`. -/
structure Values (F M : Type*) where
  mag : F → M
  scaled : (n len : ℕ) → F → F
  add : F → F → F
  zero : F

variable {F M : Type*} [LinearOrder M] (ops : Values F M)

/-- `data[*a as usize].abs()`. -/
def magAt (data : List F) (a : ℕ) : M := ops.mag (data.getD a ops.zero)

/-- The indices, the largest magnitudes first. The sort is stable. -/
def sortedIndices (data : List F) : List ℕ :=
  (List.range (data.length % 2 ^ 32)).mergeSort fun a b => decide (magAt ops data b ≤ magAt ops data a)

/-- The random sample; `draw i` says whether the number drawn for entry `i` is below 0.5. -/
def sample (draw : ℕ → Bool) (remaining : List ℕ) : List ℕ :=
  ((remaining.zipIdx.filter fun p => draw p.2).map Prod.fst).take (max (remaining.length / 2) 1)

/-- `sampled_vals`. -/
def sampledVals (data : List F) (sampled : List ℕ) : List F :=
  sampled.map fun i => ops.scaled data.length sampled.length (data.getD i ops.zero)

/-- `compress_topk`; `none` is the panic of a slice. -/
def compressTopk (data : List F) (ratio : ℚ) (draw : ℕ → Bool) : Option (List ℕ × List F) :=
  if data.length = 0 ∨ ratio ≤ 0 then some ([], [])
  else
    let k := topCount data.length ratio
    let indices := sortedIndices ops data
    if indices.length < k then none
    else
      let topk := indices.take k
      let sampled := sample draw (indices.drop k)
      some (topk ++ sampled, topk.map (fun i => data.getD i ops.zero) ++ sampledVals ops data sampled)

/-- `ProtoMsg::GradientChunk`. -/
structure GradientChunk (F : Type*) where
  chunkId : ℕ
  totalChunks : ℕ
  data : List F
  compressed : Bool
  indices : List ℕ

/-- The message of `scatter_reduce_step`. -/
def sendChunk (sendChunkIdx worldSize : ℕ) (enableCompression : Bool) (sendData : List F) (ratio : ℚ)
    (draw : ℕ → Bool) : Option (GradientChunk F) :=
  (if enableCompression then compressTopk ops sendData ratio draw else some ([], sendData)).map
    fun (compressedIdx, compressedVals) =>
      { chunkId := sendChunkIdx % 2 ^ 32
        totalChunks := worldSize % 2 ^ 32
        data := compressedVals
        compressed := enableCompression
        indices := compressedIdx }

/-! ## Receiving -/

/-- `decompress` into zeros. An entry that is not written is `none`. -/
def decompress (len : ℕ) (indices : List ℕ) (values : List F) : List (Option F) :=
  (indices.zip values).foldl (fun buf p => if p.1 < buf.length then buf.set p.1 (some p.2) else buf)
    (List.replicate len none)

/-- `recv_start`, of the start of the chunk. -/
def recvStart (vec : List F) (chunkStart : ℕ) : ℕ := min chunkStart vec.length

def recvEnd (vec : List F) (chunkStart : ℕ) (msg : GradientChunk F) : ℕ :=
  min (recvStart vec chunkStart + msg.data.length) vec.length

def dest (vec : List F) (chunkStart : ℕ) (msg : GradientChunk F) : List F :=
  (vec.drop (recvStart vec chunkStart)).take (recvEnd vec chunkStart msg - recvStart vec chunkStart)

/-- `decomp`. -/
def decomp (vec : List F) (chunkStart : ℕ) (msg : GradientChunk F) : List (Option F) :=
  decompress (dest vec chunkStart msg).length msg.indices msg.data

/-- The receiving half of `scatter_reduce_step`. -/
def receiveChunk (vec : List F) (chunkStart : ℕ) (msg : GradientChunk F) : List F :=
  vec.take (recvStart vec chunkStart) ++
    (if msg.compressed ∧ msg.indices ≠ [] then
      List.zipWith (fun x v => ops.add x (v.getD ops.zero)) (dest vec chunkStart msg) (decomp vec chunkStart msg)
    else List.zipWith ops.add (dest vec chunkStart msg) msg.data) ++
    vec.drop (recvEnd vec chunkStart msg)

/-! ## What is promised -/

/-- The pairs are of different entries of the chunk, and `k` entries that none of the others exceeds are among
them, unscaled. -/
structure TopPairs (data : List F) (k : ℕ) (indices : List ℕ) (values : List F) : Prop where
  length_eq : indices.length = values.length
  nodup : indices.Nodup
  inRange : ∀ i ∈ indices, i < data.length
  largest : ∃ top : List ℕ, top.Nodup ∧ top.length = k ∧
    (∀ i ∈ top, (i, data.getD i ops.zero) ∈ indices.zip values) ∧
    ∀ i ∈ top, ∀ j < data.length, j ∉ top → magAt ops data j ≤ magAt ops data i

/-- Every pair is applied at its index in the chunk of `n` entries, and all of the vector before and behind it
stays as it is. -/
structure Applies (n : ℕ) (msg : GradientChunk F) (vec : List F) (chunkStart : ℕ) : Prop where
  decomp_eq : ∀ p ∈ msg.indices.zip msg.data, (decomp vec chunkStart msg)[p.1]? = some (some p.2)
  applied : ∀ p ∈ msg.indices.zip msg.data,
    (receiveChunk ops vec chunkStart msg)[chunkStart + p.1]? = vec[chunkStart + p.1]?.map (ops.add · p.2)
  untouched : ∀ i, i < chunkStart ∨ chunkStart + n ≤ i → (receiveChunk ops vec chunkStart msg)[i]? = vec[i]?

/-- Whatever is drawn, the message holds the right pairs, and every receiver applies them. -/
def Delivers (data : List F) (ratio : ℚ) : Prop :=
  ∀ sendChunkIdx worldSize draw, ∃ msg, sendChunk ops sendChunkIdx worldSize true data ratio draw = some msg ∧
    TopPairs ops data (topCount data.length ratio) msg.indices msg.data ∧
    ∀ vec chunkStart, chunkStart + data.length ≤ vec.length → Applies ops data.length msg vec chunkStart

/-! ## What is sent -/

variable {ops} {data : List F} {ratio : ℚ} {draw : ℕ → Bool}

theorem sortedIndices_eq : sortedIndices ops data = ranking (magAt ops data) (data.length % 2 ^ 32) := rfl

theorem sample_sublist (draw : ℕ → Bool) (remaining : List ℕ) : (sample draw remaining).Sublist remaining := by
  have h : ((remaining.zipIdx.filter fun p => draw p.2).map Prod.fst).Sublist (remaining.zipIdx.map Prod.fst) :=
    List.filter_sublist.map _
  rw [List.zipIdx_map_fst] at h
  exact (List.take_sublist _ _).trans h

theorem sample_false (remaining : List ℕ) : sample (fun _ => false) remaining = [] := by simp [sample]

/-- One entry is sampled if only its number is below 0.5. -/
theorem sample_single {remaining : List ℕ} {t : ℕ} (ht : t < remaining.length) :
    sample (fun i => decide (i = t)) remaining = [remaining[t]] := by
  have hfilter : ∀ (l : List ℕ) (s t : ℕ) (ht : t < l.length),
      ((l.zipIdx s).filter fun p => decide (p.2 = s + t)).map Prod.fst = [l[t]] := by
    intro l
    induction l with
    | nil => exact fun s t ht => absurd ht (Nat.not_lt_zero t)
    | cons a l ih =>
      intro s t ht
      rw [List.zipIdx_cons]
      cases t with
      | zero =>
        have hrest : ((l.zipIdx (s + 1)).filter fun p => decide (p.2 = s + 0)) = [] := by
          rw [List.filter_eq_nil_iff]
          intro p hp
          have := List.le_snd_of_mem_zipIdx hp
          simp
          omega
        rw [List.filter_cons_of_pos (by simp), hrest]
        rfl
      | succ t =>
        rw [List.filter_cons_of_neg (by simp), List.getElem_cons_succ, ← ih (s + 1) t (by simpa using ht)]
        congr 3
        funext p
        rw [Nat.add_assoc, Nat.add_comm 1]
  have h := hfilter remaining 0 t ht
  rw [Nat.zero_add] at h
  rw [sample, h, List.take_of_length_le (by simp)]

variable (ops data) in
def topIndices (k : ℕ) : List ℕ := (sortedIndices ops data).take k

variable (ops data) in
def otherIndices (k : ℕ) : List ℕ := (sortedIndices ops data).drop k

theorem length_topIndices {k : ℕ} (hk : k ≤ data.length % 2 ^ 32) : (topIndices ops data k).length = k := by
  rw [topIndices, sortedIndices_eq, List.length_take, length_ranking, Nat.min_eq_left hk]

theorem length_otherIndices (k : ℕ) : (otherIndices ops data k).length = data.length % 2 ^ 32 - k := by
  rw [otherIndices, sortedIndices_eq, List.length_drop, length_ranking]

theorem nodup_append_sample (draw : ℕ → Bool) (k : ℕ) :
    (topIndices ops data k ++ sample draw (otherIndices ops data k)).Nodup := by
  refine (nodup_ranking (magAt ops data) (data.length % 2 ^ 32)).sublist ?_
  rw [← List.take_append_drop k (ranking _ _)]
  exact (List.Sublist.refl _).append (sample_sublist draw _)

theorem lt_of_mem_append_sample {i k : ℕ}
    (hi : i ∈ topIndices ops data k ++ sample draw (otherIndices ops data k)) : i < data.length % 2 ^ 32 := by
  refine mem_ranking.mp (?_ : i ∈ ranking (magAt ops data) _)
  rcases List.mem_append.mp hi with hi | hi
  · exact List.mem_of_mem_take hi
  · exact List.mem_of_mem_drop ((sample_sublist draw _).subset hi)

theorem compressTopk_nil (ratio : ℚ) (draw : ℕ → Bool) : compressTopk ops [] ratio draw = some ([], []) := by
  simp [compressTopk]

/-- The slices panic if there are fewer indices than entries to keep. -/
theorem compressTopk_of_ne_nil (draw : ℕ → Bool) (hn : data ≠ []) (hr : 0 < ratio) {k : ℕ}
    (hk : topCount data.length ratio = k) :
    compressTopk ops data ratio draw =
      if data.length % 2 ^ 32 < k then none
      else some (topIndices ops data k ++ sample draw (otherIndices ops data k),
        (topIndices ops data k).map (fun i => data.getD i ops.zero) ++
          sampledVals ops data (sample draw (otherIndices ops data k))) := by
  have hcond : ¬ (data.length = 0 ∨ ratio ≤ 0) := by
    rw [List.length_eq_zero_iff, not_or]
    exact ⟨hn, not_le.mpr hr⟩
  have hlen : (sortedIndices ops data).length = data.length % 2 ^ 32 := length_ranking _ _
  simp only [compressTopk, if_neg hcond, hlen, hk]
  rfl

/-- What is sent is right if none of the other entries exceeds those that are kept. -/
theorem TopPairs.append_sample (draw : ℕ → Bool) {k : ℕ} (hk : k ≤ data.length % 2 ^ 32)
    (hdom : ∀ i ∈ topIndices ops data k, ∀ j < data.length, j ∉ topIndices ops data k →
      magAt ops data j ≤ magAt ops data i) :
    TopPairs ops data k (topIndices ops data k ++ sample draw (otherIndices ops data k))
      ((topIndices ops data k).map (fun i => data.getD i ops.zero) ++
        sampledVals ops data (sample draw (otherIndices ops data k))) where
  length_eq := by simp [sampledVals]
  nodup := nodup_append_sample draw k
  inRange i hi := (lt_of_mem_append_sample hi).trans_le (Nat.mod_le _ _)
  largest := by
    have hnd : (topIndices ops data k).Nodup := (nodup_append_sample draw k).sublist (List.sublist_append_left _ _)
    refine ⟨_, hnd, length_topIndices hk, ?_, hdom⟩
    intro i hi
    have hzip := List.zip_map' (f := id) (g := fun i => data.getD i ops.zero) (l := topIndices ops data k)
    rw [List.map_id] at hzip
    rw [List.zip_append (by simp), hzip]
    exact List.mem_append_left _ (List.mem_map_of_mem hi)

theorem topPairs_nil (ratio : ℚ) : TopPairs ops [] (topCount 0 ratio) [] [] where
  length_eq := rfl
  nodup := List.nodup_nil
  inRange i hi := absurd hi List.not_mem_nil
  largest := ⟨[], List.nodup_nil, (topCount_zero ratio).symm, by simp, by simp⟩

/-! ## What arrives -/

section Receiver

variable {vec : List F} {start n : ℕ} {msg : GradientChunk F}

theorem recvStart_eq (h : start + msg.data.length ≤ vec.length) : recvStart vec start = start :=
  Nat.min_eq_left (by omega)

theorem recvEnd_eq (h : start + msg.data.length ≤ vec.length) :
    recvEnd vec start msg = start + msg.data.length := by
  rw [recvEnd, recvStart_eq h, Nat.min_eq_left h]

theorem length_dest (h : start + msg.data.length ≤ vec.length) : (dest vec start msg).length = msg.data.length := by
  rw [dest, recvStart_eq h, recvEnd_eq h, List.length_take, List.length_drop]
  omega

theorem length_decomp (h : start + msg.data.length ≤ vec.length) :
    (decomp vec start msg).length = msg.data.length := by
  rw [decomp, length_dest h]
  exact length_writePairs.trans List.length_replicate

theorem getElem?_decomp (h : start + msg.data.length ≤ vec.length) (hnd : msg.indices.Nodup) {p : ℕ × F}
    (hlen : msg.indices.length = msg.data.length)
    (hp : p ∈ msg.indices.zip msg.data) (hlt : p.1 < msg.data.length) :
    (decomp vec start msg)[p.1]? = some (some p.2) := by
  have hfst : ((msg.indices.zip msg.data).map Prod.fst).Nodup := by rwa [List.map_fst_zip hlen.le]
  rw [decomp, length_dest h]
  exact getElem?_writePairs hfst hp (by rwa [List.length_replicate])

omit [LinearOrder M] in
variable (ops) in
/-- What replaces the part of the vector. -/
theorem receiveChunk_eq (h : start + msg.data.length ≤ vec.length) (hc : msg.compressed = true)
    (hlen : msg.indices.length = msg.data.length) : ∃ new : List F, new.length = msg.data.length ∧
      receiveChunk ops vec start msg = vec.take start ++ new ++ vec.drop (start + new.length) ∧
      ∀ i v, (decomp vec start msg)[i]? = some (some v) → new[i]? = vec[start + i]?.map (ops.add · v) := by
  rw [receiveChunk, recvStart_eq h, recvEnd_eq h]
  by_cases hne : msg.indices = []
  · have hnil : msg.data = [] := by rw [← List.length_eq_zero_iff, ← hlen, hne, List.length_nil]
    have hdecomp : (decomp vec start msg).length = 0 := by rw [length_decomp h, hnil, List.length_nil]
    refine ⟨[], by rw [hnil], ?_, fun i v hv => ?_⟩
    · rw [if_neg fun hcond => hcond.2 hne, hnil, List.zipWith_nil_right]
    · rw [List.length_eq_zero_iff.mp hdecomp] at hv
      cases hv
  · rw [if_pos ⟨hc, hne⟩]
    have hnew : ∀ f : F → Option F → F,
        (List.zipWith f (dest vec start msg) (decomp vec start msg)).length = msg.data.length := by
      intro f
      rw [List.length_zipWith, length_dest h, length_decomp h, Nat.min_self]
    refine ⟨_, hnew _, by rw [hnew], fun i v hv => ?_⟩
    have hi : i < msg.data.length := by
      rw [← length_decomp h]
      exact (List.getElem?_eq_some_iff.mp hv).1
    have hdest : (dest vec start msg)[i]? = vec[start + i]? := by
      rw [dest, recvStart_eq h, recvEnd_eq h, List.getElem?_take_of_lt (by omega), List.getElem?_drop]
    rw [List.getElem?_zipWith, hv, hdest]
    cases vec[start + i]? <;> rfl

omit [LinearOrder M] in
/-- The receiver applies the pairs whose indices are below their number. -/
theorem applies_iff (hn : msg.data.length ≤ n) (hvec : start + n ≤ vec.length) (hc : msg.compressed = true)
    (hlen : msg.indices.length = msg.data.length) (hnd : msg.indices.Nodup) :
    Applies ops n msg vec start ↔ ∀ i ∈ msg.indices, i < msg.data.length := by
  have h : start + msg.data.length ≤ vec.length := by omega
  constructor
  · intro happ i hi
    rw [← List.map_fst_zip hlen.le, List.mem_map] at hi
    obtain ⟨p, hp, rfl⟩ := hi
    rw [← length_decomp h]
    exact (List.getElem?_eq_some_iff.mp (happ.decomp_eq p hp)).1
  · intro hlt
    have hdecomp : ∀ p ∈ msg.indices.zip msg.data, (decomp vec start msg)[p.1]? = some (some p.2) :=
      fun p hp => getElem?_decomp h hnd hlen hp (hlt _ (List.of_mem_zip hp).1)
    obtain ⟨new, hnew, heq, hget⟩ := receiveChunk_eq ops h hc hlen
    refine ⟨hdecomp, fun p hp => ?_, fun i hi => ?_⟩
    · have hp1 : p.1 < msg.data.length := hlt _ (List.of_mem_zip hp).1
      rw [heq, getElem?_splice _ _ (by omega), if_pos (by omega), Nat.add_sub_cancel_left]
      exact hget _ _ (hdecomp p hp)
    · rw [heq, getElem?_splice _ _ (by omega), if_neg (by omega)]

end Receiver

/-! ## When everything arrives -/

theorem sendChunk_eq_some_iff {c w : ℕ} {msg : GradientChunk F} :
    sendChunk ops c w true data ratio draw = some msg ↔
      compressTopk ops data ratio draw = some (msg.indices, msg.data) ∧
        msg.chunkId = c % 2 ^ 32 ∧ msg.totalChunks = w % 2 ^ 32 ∧ msg.compressed = true := by
  rw [sendChunk, if_pos rfl, Option.map_eq_some_iff]
  constructor
  · rintro ⟨⟨indices, values⟩, h, rfl⟩
    exact ⟨h, rfl, rfl, rfl⟩
  · rintro ⟨h, hid, htotal, hc⟩
    refine ⟨_, h, ?_⟩
    cases msg
    simp_all

theorem TopPairs.length_le {k : ℕ} {indices : List ℕ} {values : List F} (h : TopPairs ops data k indices values) :
    values.length ≤ data.length := by
  have hsub : indices.Subperm (List.range data.length) :=
    h.nodup.subperm fun i hi => List.mem_range.mpr (h.inRange i hi)
  rw [← h.length_eq]
  simpa using hsub.length_le

theorem delivers_iff_forall_lt : Delivers ops data ratio ↔ ∀ draw, ∃ indices values,
    compressTopk ops data ratio draw = some (indices, values) ∧
      TopPairs ops data (topCount data.length ratio) indices values ∧ ∀ i ∈ indices, i < indices.length := by
  constructor
  · intro h draw
    obtain ⟨msg, hsend, htop, happ⟩ := h 0 0 draw
    obtain ⟨hcompress, -, -, hc⟩ := sendChunk_eq_some_iff.mp hsend
    refine ⟨_, _, hcompress, htop, ?_⟩
    rw [htop.length_eq]
    exact (applies_iff htop.length_le (by omega) hc htop.length_eq htop.nodup).mp (happ data 0 (by omega))
  · intro h c w draw
    obtain ⟨indices, values, hcompress, htop, hlt⟩ := h draw
    refine ⟨⟨c % 2 ^ 32, w % 2 ^ 32, values, true, indices⟩,
      sendChunk_eq_some_iff.mpr ⟨hcompress, rfl, rfl, rfl⟩, htop, fun vec start hvec => ?_⟩
    rw [htop.length_eq] at hlt
    exact (applies_iff htop.length_le hvec rfl htop.length_eq htop.nodup).mpr hlt

/-- The indices that are sampled from come behind the kept ones, if these are the first. -/
theorem le_of_mem_otherIndices {k : ℕ} (hperm : (topIndices ops data k).Perm (List.range k)) {i : ℕ}
    (hi : i ∈ otherIndices ops data k) : k ≤ i := by
  by_contra hlt
  have htop : i ∈ topIndices ops data k := hperm.mem_iff.mpr (List.mem_range.mpr (by omega))
  exact not_mem_drop htop hi

/-- If every index is below the number of pairs for every sample, there is at most one to sample from. -/
theorem length_otherIndices_le {k : ℕ} (hperm : (topIndices ops data k).Perm (List.range k))
    (h : ∀ draw, ∀ i ∈ sample draw (otherIndices ops data k),
      i < k + (sample draw (otherIndices ops data k)).length) : (otherIndices ops data k).length ≤ 1 := by
  by_contra hlen
  -- an entry that is sent alone is the next one
  have hnext : ∀ (t : ℕ) (ht : t < (otherIndices ops data k).length), (otherIndices ops data k)[t] = k := by
    intro t ht
    have hlt := h fun i => decide (i = t)
    rw [sample_single ht, List.forall_mem_singleton, List.length_singleton] at hlt
    have hle := le_of_mem_otherIndices hperm (List.getElem_mem ht)
    omega
  have hnd : (otherIndices ops data k).Nodup := (nodup_ranking _ _).sublist (List.drop_sublist _ _)
  have h0 : 0 < (otherIndices ops data k).length := by omega
  have h1 : 1 < (otherIndices ops data k).length := by omega
  exact absurd ((hnd.getElem_inj_iff).mp ((hnext 0 h0).trans (hnext 1 h1).symm)) Nat.zero_ne_one

/-- What must hold of the kept entries for all samples. -/
theorem first_largest_of_forall_lt {k : ℕ} (hk : k ≤ data.length % 2 ^ 32)
    (h : ∀ draw, TopPairs ops data k (topIndices ops data k ++ sample draw (otherIndices ops data k))
        ((topIndices ops data k).map (fun i => data.getD i ops.zero) ++
          sampledVals ops data (sample draw (otherIndices ops data k))) ∧
      ∀ i ∈ topIndices ops data k ++ sample draw (otherIndices ops data k),
        i < k + (sample draw (otherIndices ops data k)).length) :
    data.length % 2 ^ 32 ≤ k + 1 ∧
      ∀ i < k, ∀ j < data.length, k ≤ j → magAt ops data j ≤ magAt ops data i := by
  -- with nothing sampled, the kept indices are the first ones
  obtain ⟨htop, hlt⟩ := h fun _ => false
  rw [sample_false, List.append_nil] at htop hlt
  have hperm : (topIndices ops data k).Perm (List.range k) :=
    perm_range_of_subset htop.nodup (length_topIndices hk) hlt
  constructor
  · have hother := length_otherIndices_le hperm fun draw i hi => (h draw).2 i (List.mem_append_right _ hi)
    rw [length_otherIndices] at hother
    omega
  · intro i hi j hj hkj
    obtain ⟨top, hnd, hlen, hmem, hdom⟩ := htop.largest
    have htopk : top.Perm (List.range k) :=
      perm_range_of_subset hnd hlen fun i hi => hlt i (List.of_mem_zip (hmem i hi)).1
    refine hdom i (htopk.mem_iff.mpr (List.mem_range.mpr hi)) j hj fun hj' => ?_
    exact absurd (List.mem_range.mp (htopk.mem_iff.mp hj')) (not_lt.mpr hkj)

theorem largest_of_delivers (hn : data ≠ []) (hr : 0 < ratio) {k : ℕ} (hk : topCount data.length ratio = k)
    (h : Delivers ops data ratio) : k ≤ data.length % 2 ^ 32 ∧ data.length % 2 ^ 32 ≤ k + 1 ∧
      ∀ i < k, ∀ j < data.length, k ≤ j → magAt ops data j ≤ magAt ops data i := by
  have hsent : ∀ draw, k ≤ data.length % 2 ^ 32 ∧
      TopPairs ops data k (topIndices ops data k ++ sample draw (otherIndices ops data k))
        ((topIndices ops data k).map (fun i => data.getD i ops.zero) ++
          sampledVals ops data (sample draw (otherIndices ops data k))) ∧
      ∀ i ∈ topIndices ops data k ++ sample draw (otherIndices ops data k),
        i < k + (sample draw (otherIndices ops data k)).length := by
    intro draw
    obtain ⟨indices, values, hcompress, htop, hlt⟩ := delivers_iff_forall_lt.mp h draw
    rw [compressTopk_of_ne_nil draw hn hr hk] at hcompress
    obtain ⟨hle, hcompress⟩ := Option.ite_none_left_eq_some.mp hcompress
    obtain ⟨rfl, rfl⟩ := Prod.mk.inj (Option.some.inj hcompress)
    rw [List.length_append, length_topIndices (not_lt.mp hle)] at hlt
    rw [hk] at htop
    exact ⟨not_lt.mp hle, htop, hlt⟩
  have hle := (hsent fun _ => false).1
  exact ⟨hle, first_largest_of_forall_lt hle fun draw => (hsent draw).2⟩

theorem delivers_of_largest (hn : data ≠ []) (hr : 0 < ratio) {k : ℕ} (hk : topCount data.length ratio = k)
    (hle : k ≤ data.length % 2 ^ 32) (hle' : data.length % 2 ^ 32 ≤ k + 1)
    (hdom : ∀ i < k, ∀ j < data.length, k ≤ j → magAt ops data j ≤ magAt ops data i) :
    Delivers ops data ratio := by
  have hperm : (topIndices ops data k).Perm (List.range k) :=
    (take_perm_range_iff hle).mpr fun i hi j hj => hdom i hi j (hj.trans_le (Nat.mod_le _ _))
  rw [delivers_iff_forall_lt, hk]
  intro draw
  rw [compressTopk_of_ne_nil draw hn hr hk, if_neg (not_lt.mpr hle)]
  refine ⟨_, _, rfl, TopPairs.append_sample draw hle ?_, ?_⟩
  · intro i hi j hj hnot
    rw [hperm.mem_iff, List.mem_range] at hi hnot
    exact hdom i hi j hj (not_lt.mp hnot)
  · intro i hi
    rw [List.length_append, length_topIndices hle]
    rcases List.mem_append.mp hi with htop | hsample
    · have hik := List.mem_range.mp (hperm.mem_iff.mp htop)
      omega
    · have him := lt_of_mem_append_sample hi
      have hpos := List.length_pos_of_mem hsample
      omega

theorem delivers_nil (ratio : ℚ) : Delivers ops [] ratio :=
  delivers_iff_forall_lt.mpr fun draw => ⟨[], [], compressTopk_nil ratio draw, topPairs_nil ratio, by simp⟩

/-- All arrives if all entries are sent, or all but the last one and that is the smallest. -/
theorem topk_delivers_iff (hr : 0 < ratio) : Delivers ops data ratio ↔ data = [] ∨
    (topCount data.length ratio ≤ data.length % 2 ^ 32 ∧
      data.length % 2 ^ 32 ≤ topCount data.length ratio + 1 ∧
      ∀ i < topCount data.length ratio, ∀ j < data.length, topCount data.length ratio ≤ j →
        magAt ops data j ≤ magAt ops data i) := by
  rcases eq_or_ne data [] with rfl | hn
  · exact iff_of_true (delivers_nil ratio) (Or.inl rfl)
  constructor
  · exact fun h => Or.inr (largest_of_delivers hn hr rfl h)
  · rintro (hnil | ⟨hle, hle', hdom⟩)
    · exact absurd hnil hn
    · exact delivers_of_largest hn hr rfl hle hle' hdom

/-! ## Two entries -/

/-- Rational numbers. -/
def ratOps : Values ℚ ℚ where
  mag x := |x|
  scaled n len x := x * (n / len)
  add x y := x + y
  zero := 0

theorem topCount_two_half : topCount 2 (1 / 2) = 1 := by
  have h1 : roundF32 (1 : ℕ) = (1 : ℕ) := roundF32_natCast (by norm_num)
  have h2 : roundF32 (2 : ℕ) = (2 : ℕ) := roundF32_natCast (by norm_num)
  norm_num at h1 h2
  norm_num [topCount, h1, h2]

/-- The larger entry is the first one. -/
theorem topk_delivers_iff_two : Delivers ratOps [2, 1] (1 / 2) := by
  have hk : topCount [(2 : ℚ), 1].length (1 / 2) = 1 := topCount_two_half
  refine (topk_delivers_iff (by norm_num)).mpr (Or.inr ?_)
  rw [hk]
  refine ⟨by norm_num, by norm_num, fun i hi j hj hj1 => ?_⟩
  have hj2 : j < 2 := hj
  obtain rfl : i = 0 := by omega
  obtain rfl : j = 1 := by omega
  norm_num [magAt, ratOps]

/-- The larger entry is the last one, and alone it is dropped. -/
theorem not_delivers_last :
    ¬ ∀ (data : List ℚ) (ratio : ℚ), 0 < ratio → ratio ≤ 1 → Delivers ratOps data ratio := by
  intro h
  have hk : topCount [(1 : ℚ), 2].length (1 / 2) = 1 := topCount_two_half
  have hlargest := largest_of_delivers (by simp) (by norm_num) hk (h [1, 2] (1 / 2) (by norm_num) (by norm_num))
  have h01 := hlargest.2.2 0 one_pos 1 (by simp) le_rfl
  norm_num [magAt, ratOps] at h01

end SneppxAlg.TopkCompression
