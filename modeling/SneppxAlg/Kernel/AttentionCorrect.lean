import Mathlib.Analysis.Complex.Exponential
import Mathlib.Analysis.Real.Sqrt
import Mathlib.Tactic.Ring
import SneppxAlg.Kernel.Attention

/-!
# When the cache agrees

A row of attention is a weighted sum over the tokens up to its own, whatever the length of the rows is
that the mask is put on (`attend_eq`). So the two functions agree where they find the same queries, keys
and values at the places that they read. With one batch and one head the cache holds the keys and values
of the tokens so far one behind the other (`Holds`), and every chunk keeps it so.
-/

namespace SneppxAlg.Attention

open Lib.MaskedSoftmax Lib.Scatter

/-! ## Places -/

theorem mul_add_div_of_lt {a b c : ℕ} (h : c < b) : (a * b + c) / b = a := by
  rw [Nat.mul_comm, Nat.mul_add_div (by omega), Nat.div_eq_of_lt h, Nat.add_zero]

theorem mul_add_mod_of_lt' {a b c : ℕ} (h : c < b) : (a * b + c) % b = c := by
  rw [Nat.mul_comm, Nat.mul_add_mod, Nat.mod_eq_of_lt h]

theorem div_mod_split (i m n : ℕ) : i / (m * n) * m + i % (m * n) / n = i / n := by
  rcases Nat.eq_zero_or_pos n with rfl | hn
  · simp
  · have hi := Nat.div_add_mod i (m * n)
    have hsplit : i = n * (i / (m * n) * m) + i % (m * n) := by
      calc i = m * n * (i / (m * n)) + i % (m * n) := hi.symm
        _ = n * (i / (m * n) * m) + i % (m * n) := by ring
    conv_rhs => rw [hsplit]
    rw [Nat.mul_add_div hn]

variable {K : Type*} [Field K] [LinearOrder K]

/-! ## Matrix products -/

omit [LinearOrder K] in
theorem tensorMatmul_eq (m k n : ℕ) (a b : ℕ → K) : tensorMatmul m k n a b = matmul3d k n a b := by
  funext i
  refine Finset.sum_congr rfl fun l _ => ?_
  have hrow : i / (m * n) * (m * k) + i % (m * n) / n * k = i / n * k := by
    rw [← Nat.mul_assoc, ← Nat.add_mul, div_mod_split]
  rw [hrow, Nat.mod_mod_of_dvd i (Nat.dvd_mul_left n m)]

omit [LinearOrder K] in
theorem matmul3d_congr {D Dk i i' : ℕ} {a a' b : ℕ → K}
    (ha : ∀ d < D, a (i / Dk * D + d) = a' (i' / Dk * D + d)) (hmod : i % Dk = i' % Dk) :
    matmul3d D Dk a b i = matmul3d D Dk a' b i' := by
  refine Finset.sum_congr rfl fun d hd => ?_
  rw [ha d (Finset.mem_range.mp hd), hmod]

/-! ## A row of attention -/

/-- The score of a query row against the key row `j` places behind `first`. -/
def scoreOf (rsqrt : ℕ → K) (hd : ℕ) (q k : ℕ → K) (row first j : ℕ) : K :=
  (∑ d ∈ Finset.range hd, q (row * hd + d) * k ((first + j) * hd + d)) * rsqrt hd

attribute [local instance] atLeastTwo_ten

/-- The weighted sum over the tokens up to `t`. -/
def attendUpTo (exp : K → K) (rsqrt : ℕ → K) (hd t : ℕ) (q k v : ℕ → K) (row first c : ℕ) : K :=
  ∑ j ∈ Finset.range (t + 1),
    weight exp (1 / 10 ^ 10) (scoreOf rsqrt hd q k row first) (fun _ => true) (t + 1) j *
      v ((first + j) * hd + c)

variable {exp : K → K} {rsqrt : ℕ → K}

theorem keeps_of_le {causal : Bool} {total t j : ℕ} (h : j ≤ t) : keeps causal total t j = true := by
  simp [keeps, h]

theorem keeps_of_lt {total t j : ℕ} (hj : j < total) (h : t < j) : keeps true total t j = false := by
  have h1 : 1 < total := by omega
  simp [keeps, h1, h]

/-- The scores that the softmax finds in row `r`. -/
theorem softmaxRows_apply {causal : Bool} {S offset total hd r j : ℕ} {q k : ℕ → K} (hj : j < total) :
    softmaxRows exp causal S offset total (fun i => batchedMatmulT S total hd q k i * rsqrt hd)
        (r * total + j) =
      weight exp (1 / 10 ^ 10) (scoreOf rsqrt hd q k r (r / S * total))
        (keeps causal total (offset + r % S)) total j := by
  simp only [softmaxRows, mul_add_div_of_lt hj, mul_add_mod_of_lt' hj]
  have hscore : ∀ j < total, batchedMatmulT S total hd q k (r * total + j) * rsqrt hd =
      scoreOf rsqrt hd q k r (r / S * total) j := by
    intro j hj
    simp only [batchedMatmulT, scoreOf, mul_add_div_of_lt hj, mul_add_mod_of_lt' hj]
  exact weight_congr (hscore 0 (by omega)) (fun _ _ => rfl) (fun j hj _ => hscore j hj) hj

theorem attend_eq {S offset total hd i : ℕ} {q k v : ℕ → K} (ht : offset + i / hd % S < total) :
    attend exp rsqrt true S offset total hd q k v i =
      attendUpTo exp rsqrt hd (offset + i / hd % S) q k v (i / hd) (i / hd / S * total) (i % hd) := by
  have hmask : ∀ j < total, offset + i / hd % S + 1 ≤ j →
      keeps true total (offset + i / hd % S) j = false := fun j hj h =>
    keeps_of_lt hj (by omega)
  have hall : attend exp rsqrt true S offset total hd q k v i =
      ∑ j ∈ Finset.range total,
        weight exp (1 / 10 ^ 10) (scoreOf rsqrt hd q k (i / hd) (i / hd / S * total))
          (keeps true total (offset + i / hd % S)) total j *
          v ((i / hd / S * total + j) * hd + i % hd) := by
    unfold attend batchedMatmul
    refine Finset.sum_congr rfl fun j hj => ?_
    rw [softmaxRows_apply (Finset.mem_range.mp hj)]
  rw [hall, sum_weight_of_le (m := offset + i / hd % S + 1) ht hmask]
  refine Finset.sum_congr rfl fun j hj => ?_
  rw [weight_congr rfl (fun j hj => keeps_of_le (by omega)) (fun _ _ _ => rfl) (Finset.mem_range.mp hj)]

theorem attendUpTo_congr {hd t row row' first first' c : ℕ} {q q' k k' v v' : ℕ → K}
    (hc : c < hd) (hq : ∀ d < hd, q (row * hd + d) = q' (row' * hd + d))
    (hk : ∀ j ≤ t, ∀ d < hd, k ((first + j) * hd + d) = k' ((first' + j) * hd + d))
    (hv : ∀ j ≤ t, ∀ d < hd, v ((first + j) * hd + d) = v' ((first' + j) * hd + d)) :
    attendUpTo exp rsqrt hd t q k v row first c = attendUpTo exp rsqrt hd t q' k' v' row' first' c := by
  have hscore : ∀ j ≤ t, scoreOf rsqrt hd q k row first j = scoreOf rsqrt hd q' k' row' first' j := by
    intro j hj
    rw [scoreOf, scoreOf]
    congr 1
    refine Finset.sum_congr rfl fun d hd' => ?_
    rw [hq d (Finset.mem_range.mp hd'), hk j hj d (Finset.mem_range.mp hd')]
  refine Finset.sum_congr rfl fun j hj => ?_
  have hj' := Finset.mem_range.mp hj
  rw [hv j (by omega) c hc, weight_congr (hscore 0 (by omega)) (fun _ _ => rfl)
    (fun j hj _ => hscore j (by omega)) hj']

/-! ## One batch and one head -/

theorem div_lt_of_lt_mul {i S d : ℕ} (h : i < S * d) : i / d < S :=
  Nat.div_lt_of_lt_mul (by rwa [Nat.mul_comm])

theorem shift_div {o d : ℕ} (hd : 0 < d) (i : ℕ) : (o * d + i) / d = o + i / d := by
  rw [Nat.mul_comm, Nat.mul_add_div hd]

theorem shift_mod (o d i : ℕ) : (o * d + i) % d = i % d := by
  rw [Nat.mul_comm, Nat.mul_add_mod]

theorem row_lt {r S d c : ℕ} (hr : r < S) (hc : c < d) : r * d + c < S * d :=
  calc r * d + c < r * d + d := by omega
    _ = (r + 1) * d := by ring
    _ ≤ S * d := Nat.mul_le_mul_right d hr

omit [Field K] [LinearOrder K] in
theorem chunk_apply {n D o S a : ℕ} {x : ℕ → K} (ha : a < S * D) : chunk n D o S x a = x (o * D + a) := by
  rw [chunk, Nat.div_eq_of_lt ha, Nat.mod_eq_of_lt ha, Nat.zero_mul, Nat.zero_add]

omit [LinearOrder K] in
theorem matmul3d_chunk {n D Dk o S i : ℕ} {x b : ℕ → K} (hi : i < S * Dk) :
    matmul3d D Dk (chunk n D o S x) b i = matmul3d D Dk x b (o * Dk + i) := by
  have hpos : 0 < Dk := Nat.pos_of_ne_zero fun h => by simp [h] at hi
  refine matmul3d_congr (fun d hd => ?_) (shift_mod o Dk i).symm
  rw [chunk_apply (row_lt (div_lt_of_lt_mul hi) hd), shift_div hpos, Nat.add_mul, Nat.add_assoc]

omit [LinearOrder K] in
theorem ropeApply_shift {d n o S i : ℕ} {t : RopeTable K} {f g : ℕ → K} (hoS : o + S ≤ n)
    (hfg : ∀ j < S * d, f j = g (o * d + j)) (hi : i < S * d) :
    ropeApply d S o t f i = ropeApply d n 0 t g (o * d + i) := by
  have hpos : 0 < d := Nat.pos_of_ne_zero fun h => by simp [h] at hi
  have hrow := div_lt_of_lt_mul hi
  have hc := Nat.mod_lt i hpos
  have hpair : ∀ c < d, f (i / d * d + c) = g ((o + i / d) * d + c) := by
    intro c hc
    rw [hfg _ (row_lt hrow hc), Nat.add_mul, Nat.add_assoc]
  have hpos1 : i / d % S + o = (o + i / d) % n + 0 := by
    rw [Nat.mod_eq_of_lt hrow, Nat.mod_eq_of_lt (by omega), Nat.add_zero, Nat.add_comm]
  simp only [ropeApply, shift_div hpos, shift_mod, hpos1]
  split_ifs with h1 h2
  · rw [hpair _ hc, Nat.add_assoc (i / d * d), hpair _ (by omega), Nat.add_assoc ((o + i / d) * d)]
  · rw [hpair _ (by omega), Nat.add_assoc (i / d * d), hpair _ (by omega),
      Nat.add_assoc ((o + i / d) * d)]
  · exact hfg i hi

variable {w : AttentionWeights K} {table : Option (RopeTable K)} {n : ℕ} {x : ℕ → K}

omit [LinearOrder K] in
theorem rotate_shift {o S i : ℕ} {f g : ℕ → K} (hoS : o + S ≤ n)
    (hfg : ∀ j < S * w.config.headDim, f j = g (o * w.config.headDim + j))
    (hi : i < S * w.config.headDim) :
    rotate w S o table f i = rotate w n 0 table g (o * w.config.headDim + i) := by
  unfold rotate
  split
  · split_ifs
    · exact ropeApply_shift hoS hfg hi
    · exact hfg i hi
  · exact hfg i hi

omit [Field K] [LinearOrder K] in
/-- The loops that append, for one batch and one head. -/
theorem appendTo_single {S hd capacity o : ℕ} {src cells : ℕ → K} :
    (∀ a < o * hd, appendTo 1 1 S hd capacity o src cells a = cells a) ∧
      ∀ i < S * hd, appendTo 1 1 S hd capacity o src cells (o * hd + i) = src i := by
  have hdst : ∀ i < 1 * 1 * S * hd,
      (i / hd / S * capacity + o + i / hd % S) * hd + i % hd = o * hd + i := by
    intro i hi
    have hrow : i / hd < S := div_lt_of_lt_mul (by simpa using hi)
    rw [Nat.div_eq_of_lt hrow, Nat.mod_eq_of_lt hrow, Nat.zero_mul, Nat.zero_add, Nat.add_mul,
      Nat.add_assoc, Nat.mul_comm (i / hd), Nat.div_add_mod]
  constructor
  · intro a ha
    refine scatter_of_ne fun i hi heq => ?_
    rw [hdst i hi] at heq
    omega
  · intro i hi
    have hi' : i < 1 * 1 * S * hd := by simpa using hi
    conv_lhs => rw [← hdst i hi']
    refine scatter_dst (fun a ha b hb heq => ?_) hi'
    rw [hdst a ha, hdst b hb] at heq
    omega

/-- The keys and values of the whole sequence. -/
def keysOf (w : AttentionWeights K) (n : ℕ) (table : Option (RopeTable K)) (x : ℕ → K) : ℕ → K :=
  rotate w n 0 table (matmul3d w.config.dModel (w.config.numHeads * w.config.headDim) x w.wK)

def queriesOf (w : AttentionWeights K) (n : ℕ) (table : Option (RopeTable K)) (x : ℕ → K) : ℕ → K :=
  rotate w n 0 table (matmul3d w.config.dModel (w.config.numHeads * w.config.headDim) x w.wQ)

def valuesOf (w : AttentionWeights K) (x : ℕ → K) : ℕ → K :=
  matmul3d w.config.dModel (w.config.numHeads * w.config.headDim) x w.wV

/-- The cache holds the keys and values of the tokens so far. -/
structure Holds (w : AttentionWeights K) (n : ℕ) (table : Option (RopeTable K)) (x : ℕ → K)
    (cache : KVCache K) : Prop where
  k : ∀ a < cache.seqLen * w.config.headDim, cache.k a = keysOf w n table x a
  v : ∀ a < cache.seqLen * w.config.headDim, cache.v a = valuesOf w x a

theorem attnForward_eq (exp : K → K) (rsqrt : ℕ → K) (hcausal : w.config.useCausalMask = true) :
    attnForward exp rsqrt w n x table =
      matmul3d w.config.dModel w.config.dModel
        (attend exp rsqrt true n 0 n w.config.headDim (queriesOf w n table x) (keysOf w n table x)
          (valuesOf w x)) w.wO := by
  rw [attnForward, hcausal]
  rfl

section Single

variable {cache : KVCache K} {S : ℕ}

omit [LinearOrder K] in
theorem project_chunk (hH : w.config.numHeads = 1) {o i : ℕ} {b : ℕ → K}
    (hi : i < S * w.config.headDim) :
    tensorMatmul S w.config.dModel (w.config.numHeads * w.config.headDim)
        (chunk n w.config.dModel o S x) b i =
      matmul3d w.config.dModel (w.config.numHeads * w.config.headDim) x b
        (o * w.config.headDim + i) := by
  rw [hH, Nat.one_mul, tensorMatmul_eq, matmul3d_chunk hi]

omit [LinearOrder K] in
theorem rotate_chunk (hH : w.config.numHeads = 1) {o i : ℕ} {b : ℕ → K} (ho : o + S ≤ n)
    (hi : i < S * w.config.headDim) :
    rotate w S o table (tensorMatmul S w.config.dModel (w.config.numHeads * w.config.headDim)
        (chunk n w.config.dModel o S x) b) i =
      rotate w n 0 table (matmul3d w.config.dModel (w.config.numHeads * w.config.headDim) x b)
        (o * w.config.headDim + i) :=
  rotate_shift ho (fun _ hj => project_chunk hH hj) hi

omit [Field K] [LinearOrder K] in
/-- A place of the cache that the tokens fill up to the end of a chunk: it was filled before, or the chunk
fills it. -/
theorem place_cases {o S hd a : ℕ} (ha : a < (o + S) * hd) :
    a < o * hd ∨ ∃ i < S * hd, a = o * hd + i := by
  rw [Nat.add_mul] at ha
  by_cases h : a < o * hd
  · exact Or.inl h
  · exact Or.inr ⟨a - o * hd, by omega, by omega⟩

/-- A chunk puts its keys and values behind those of the tokens before. -/
theorem Holds.step (h : Holds w n table x cache) (exp : K → K) (rsqrt : ℕ → K)
    (hH : w.config.numHeads = 1) (ho : cache.seqLen + S ≤ n) :
    Holds w n table x (attnForwardCached exp rsqrt w 1 S
      (chunk n w.config.dModel cache.seqLen S x) cache table).2 := by
  have happend := fun src cells : ℕ → K =>
    @appendTo_single K S w.config.headDim cache.capacity cache.seqLen src cells
  constructor
  · intro a ha
    simp only [attnForwardCached, hH] at ha ⊢
    rcases place_cases ha with hold | ⟨i, hi, rfl⟩
    · rw [(happend _ _).1 a hold, h.k a hold]
    · rw [(happend _ _).2 i hi, ← hH, rotate_chunk hH ho hi, keysOf]
  · intro a ha
    simp only [attnForwardCached, hH] at ha ⊢
    rcases place_cases ha with hold | ⟨i, hi, rfl⟩
    · rw [(happend _ _).1 a hold, h.v a hold]
    · rw [(happend _ _).2 i hi, ← hH, project_chunk hH hi, valuesOf]

/-- A chunk attends as the whole sequence does from its first token on. -/
theorem attend_shift {o hd a : ℕ} {q q' k k' v v' : ℕ → K} (ho : o + S ≤ n)
    (hq : ∀ i < S * hd, q i = q' (o * hd + i)) (hk : ∀ i < (o + S) * hd, k i = k' i)
    (hv : ∀ i < (o + S) * hd, v i = v' i) (ha : a < S * hd) :
    attend exp rsqrt true S o (o + S) hd q k v a =
      attend exp rsqrt true n 0 n hd q' k' v' (o * hd + a) := by
  have hpos : 0 < hd := Nat.pos_of_ne_zero fun h0 => by simp [h0] at ha
  have hrow := div_lt_of_lt_mul ha
  have hrow' : o + a / hd < n := by omega
  have htoken : o + a / hd % S = o + a / hd := by rw [Nat.mod_eq_of_lt hrow]
  have htoken' : 0 + (o * hd + a) / hd % n = o + a / hd := by
    rw [shift_div hpos, Nat.mod_eq_of_lt hrow', Nat.zero_add]
  rw [attend_eq (by omega), attend_eq (by omega), htoken, htoken', shift_div hpos, shift_mod,
    Nat.div_eq_of_lt hrow, Nat.div_eq_of_lt hrow', Nat.zero_mul, Nat.zero_mul]
  refine attendUpTo_congr (Nat.mod_lt a hpos) ?_ ?_ ?_
  · intro d hd'
    rw [hq _ (row_lt hrow hd'), Nat.add_mul, Nat.add_assoc]
  · exact fun j hj d hd' => hk _ (row_lt (by omega) hd')
  · exact fun j hj d hd' => hv _ (row_lt (by omega) hd')

theorem attnForwardCached_fst (exp : K → K) (rsqrt : ℕ → K) (hcausal : w.config.useCausalMask = true)
    (B S : ℕ) (y : ℕ → K) (cache : KVCache K) :
    (attnForwardCached exp rsqrt w B S y cache table).1 =
      matmul3d w.config.dModel w.config.dModel
        (attend exp rsqrt true S cache.seqLen (cache.seqLen + S) w.config.headDim
          (rotate w S cache.seqLen table
            (tensorMatmul S w.config.dModel (w.config.numHeads * w.config.headDim) y w.wQ))
          (attnForwardCached exp rsqrt w B S y cache table).2.k
          (attnForwardCached exp rsqrt w B S y cache table).2.v) w.wO := by
  rw [← hcausal]
  exact tensorMatmul_eq _ _ _ _ _

theorem Holds.output (h : Holds w n table x cache) (hH : w.config.numHeads = 1)
    (hD : w.config.dModel = w.config.headDim) (hcausal : w.config.useCausalMask = true)
    (ho : cache.seqLen + S ≤ n) {i : ℕ} (hi : i < S * w.config.dModel) :
    (attnForwardCached exp rsqrt w 1 S (chunk n w.config.dModel cache.seqLen S x) cache table).1 i =
      attnForward exp rsqrt w n x table (cache.seqLen * w.config.dModel + i) := by
  have hpos : 0 < w.config.dModel := Nat.pos_of_ne_zero fun h0 => by simp [h0] at hi
  have hafter := h.step exp rsqrt hH ho
  rw [attnForward_eq exp rsqrt hcausal, attnForwardCached_fst exp rsqrt hcausal]
  refine matmul3d_congr (fun d hd => ?_) (shift_mod _ _ i).symm
  have ha : i / w.config.dModel * w.config.dModel + d < S * w.config.headDim :=
    hD ▸ row_lt (div_lt_of_lt_mul hi) hd
  rw [shift_div hpos, Nat.add_mul, Nat.add_assoc]
  conv_rhs => rw [show cache.seqLen * w.config.dModel = cache.seqLen * w.config.headDim by rw [hD]]
  exact attend_shift ho (fun i hi => rotate_chunk hH ho hi) hafter.k hafter.v ha

theorem concatAt_feed_single (hH : w.config.numHeads = 1) (hD : w.config.dModel = w.config.headDim)
    (hcausal : w.config.useCausalMask = true) {chunks : List ℕ} (h : Holds w n table x cache)
    (hsum : cache.seqLen + chunks.sum ≤ n) {t c : ℕ} (ht : t < chunks.sum) (hc : c < w.config.dModel) :
    concatAt w.config.dModel (feed exp rsqrt w 1 n x table chunks cache) 0 t c =
      attnForward exp rsqrt w n x table ((cache.seqLen + t) * w.config.dModel + c) := by
  induction chunks generalizing cache t with
  | nil => simp at ht
  | cons S rest ih =>
    rw [List.sum_cons] at hsum ht
    rw [feed, concatAt]
    split_ifs with hS
    · rw [Nat.zero_mul, Nat.zero_add, h.output hH hD hcausal (by omega) (row_lt hS hc), Nat.add_mul,
        Nat.add_assoc]
    · have hnext : (attnForwardCached exp rsqrt w 1 S
          (chunk n w.config.dModel cache.seqLen S x) cache table).2.seqLen = cache.seqLen + S := rfl
      rw [ih (h.step exp rsqrt hH (by omega)) (by rw [hnext]; omega) (by omega), hnext]
      congr 3
      omega

end Single

/-! ## One chunk that fills the cache -/

omit [Field K] [LinearOrder K] in
theorem appendTo_full {B H S hd : ℕ} {src cells : ℕ → K} :
    ∀ i < B * H * S * hd, appendTo B H S hd S 0 src cells i = src i := by
  have hdst : ∀ i, (i / hd / S * S + 0 + i / hd % S) * hd + i % hd = i := by
    intro i
    rw [Nat.add_zero, Nat.mul_comm (i / hd / S), Nat.div_add_mod, Nat.mul_comm, Nat.div_add_mod]
  intro i hi
  conv_lhs => rw [← hdst i]
  refine scatter_dst (fun a _ b _ heq => ?_) hi
  rwa [hdst a, hdst b] at heq

omit [Field K] [LinearOrder K] in
theorem chunk_all (n D : ℕ) (x : ℕ → K) : chunk n D 0 n x = x := by
  funext i
  rw [chunk, Nat.zero_mul, Nat.add_zero, Nat.mul_comm, Nat.div_add_mod]

theorem attnForwardCached_full {B : ℕ} (hD : w.config.dModel = w.config.numHeads * w.config.headDim)
    (hcausal : w.config.useCausalMask = true) {i : ℕ} (hi : i < B * n * w.config.dModel) :
    (attnForwardCached exp rsqrt w B n (chunk n w.config.dModel 0 n x) (kvCacheCreate n) table).1 i =
      attnForward exp rsqrt w n x table i := by
  rw [attnForward_eq exp rsqrt hcausal, attnForwardCached_fst exp rsqrt hcausal, chunk_all]
  simp only [attnForwardCached, kvCacheCreate, tensorMatmul_eq, Nat.zero_add]
  refine matmul3d_congr (fun d hd => ?_) rfl
  have ha := row_lt (div_lt_of_lt_mul hi) hd
  set a := i / w.config.dModel * w.config.dModel + d
  have ha' : a < B * w.config.numHeads * n * w.config.headDim := by
    calc a < B * n * w.config.dModel := ha
      _ = B * w.config.numHeads * n * w.config.headDim := by rw [hD]; ring
  have hpos : 0 < w.config.headDim := Nat.pos_of_ne_zero fun h0 => by simp [h0] at ha'
  have hrow := div_lt_of_lt_mul ha'
  have hn : 0 < n := Nat.pos_of_ne_zero fun h0 => by simp [h0] at ha'
  have htoken := Nat.mod_lt (a / w.config.headDim) hn
  have hfill : ∀ j ≤ 0 + a / w.config.headDim % n, ∀ d < w.config.headDim,
      (a / w.config.headDim / n * n + j) * w.config.headDim + d <
        B * w.config.numHeads * n * w.config.headDim := fun j hj d hd =>
    row_lt (row_lt (div_lt_of_lt_mul hrow) (by omega)) hd
  rw [attend_eq (by omega), attend_eq (by omega)]
  refine attendUpTo_congr (Nat.mod_lt a hpos) (fun _ _ => rfl) ?_ ?_
  · exact fun j hj d hd => appendTo_full _ (hfill j hj d hd)
  · exact fun j hj d hd => appendTo_full _ (hfill j hj d hd)

/-! ## All other cases -/

section Else

/-- The identity matrix of `D` rows. -/
def identity (K : Type*) [Field K] (D : ℕ) : ℕ → K := fun i => if i / D = i % D then 1 else 0

/-- Weights that take the mean of the tokens so far. -/
def meanWeights (K : Type*) [Field K] (H hd : ℕ) : AttentionWeights K :=
  { config :=
      { numHeads := H, headDim := hd, dModel := H * hd, useCausalMask := true, useRope := false }
    wQ := fun _ => 0
    wK := fun _ => 0
    wV := identity K (H * hd)
    wO := identity K (H * hd) }

omit [LinearOrder K] in
theorem matmul3d_identity {D : ℕ} (hD : 0 < D) (a : ℕ → K) : matmul3d D D a (identity K D) = a := by
  funext i
  have hentry : ∀ d ∈ Finset.range D, a (i / D * D + d) * identity K D (d * D + i % D) =
      if d = i % D then a i else 0 := by
    intro d _
    rw [identity, mul_add_div_of_lt (Nat.mod_lt i hD), mul_add_mod_of_lt' (Nat.mod_lt i hD)]
    split_ifs with h
    · rw [h, mul_one, Nat.mul_comm, Nat.div_add_mod]
    · rw [mul_zero]
  rw [matmul3d, Finset.sum_congr rfl hentry, Finset.sum_ite_eq' (Finset.range D) (i % D)]
  simp [Nat.mod_lt i hD]

variable {H hd n B S capacity : ℕ}

theorem attnForward_meanWeights_pos [IsStrictOrderedRing K] (hexp : ∀ x, 0 < exp x) (hD : 0 < H * hd)
    (hn : 0 < n) (i : ℕ) : 0 < attnForward exp rsqrt (meanWeights K H hd) n (fun _ => 1) none i := by
  have hforward : attnForward exp rsqrt (meanWeights K H hd) n (fun _ => 1) none i =
      attend exp rsqrt true n 0 n hd (queriesOf (meanWeights K H hd) n none fun _ => 1)
        (keysOf (meanWeights K H hd) n none fun _ => 1) (fun _ => 1) i := by
    rw [attnForward_eq exp rsqrt rfl]
    simp only [meanWeights, valuesOf, matmul3d_identity hD]
  rw [hforward, attend_eq (by have := Nat.mod_lt (i / hd) hn; omega), attendUpTo]
  have heps : (0 : K) ≤ 1 / 10 ^ 10 := by positivity
  refine Finset.sum_pos' (fun j _ => ?_) ⟨0, Finset.mem_range.mpr (by omega), ?_⟩
  · rw [mul_one]
    exact weight_nonneg hexp heps j
  · rw [mul_one]
    exact weight_pos hexp heps (by omega) rfl

omit [Field K] [LinearOrder K] in
/-- A first chunk that leaves room in the cache does not write behind its own length, which is where the
place of the second head, or of the second batch, is read. -/
theorem appendTo_room {src cells : ℕ → K} {d : ℕ} (hd' : d < hd) (hS : 0 < S) (hcap : S < capacity) :
    appendTo B H S hd capacity 0 src cells (S * hd + d) = cells (S * hd + d) := by
  refine scatter_of_ne fun i _ heq => ?_
  have hpos : 0 < hd := by omega
  have hrow := congrArg (· / hd) heq
  simp only [mul_add_div_of_lt (Nat.mod_lt i hpos), mul_add_div_of_lt hd', Nat.add_zero] at hrow
  have htoken := Nat.mod_lt (i / hd) hS
  rcases Nat.eq_zero_or_pos (i / hd / S) with h0 | h0
  · rw [h0, Nat.zero_mul] at hrow
    omega
  · have := Nat.le_mul_of_pos_left capacity h0
    omega

/-- The first row of the second head attends to the first token only. -/
theorem attend_secondHead (hhd : 0 < hd) (hS : 0 < S) {q k v : ℕ → K} (hv : v (S * hd) = 0) :
    attend exp rsqrt true S 0 (0 + S) hd q k v (S * hd) = 0 := by
  have hrow : S * hd / hd = S := Nat.mul_div_cancel S hhd
  have htoken : 0 + S * hd / hd % S = 0 := by rw [hrow, Nat.mod_self]
  rw [attend_eq (by omega), htoken, hrow, Nat.div_self hS, Nat.mul_mod_left, attendUpTo, Nat.zero_add,
    Nat.one_mul]
  simp [hv]

theorem attnForwardCached_meanWeights_zero (hD : 0 < H * hd) (hS : 0 < S) (hcap : S < capacity) :
    (attnForwardCached exp rsqrt (meanWeights K H hd) B S (fun _ => 1) (kvCacheCreate capacity)
      none).1 (S * hd) = 0 := by
  have hhd : 0 < hd := Nat.pos_of_mul_pos_left hD
  have hfirst : (attnForwardCached exp rsqrt (meanWeights K H hd) B S (fun _ => 1)
      (kvCacheCreate capacity) none).2.v (S * hd) = 0 :=
    appendTo_room (d := 0) hhd hS hcap
  rw [attnForwardCached_fst exp rsqrt rfl]
  exact (congrFun (matmul3d_identity hD _) _).trans (attend_secondHead hhd hS hfirst)

/-! ## Whole sequences and chunks -/

/-- Feeding a sequence in chunks gives the rows of the whole one: for all weights of the given shape,
all inputs and all tables. -/
def Agrees (exp : K → K) (rsqrt : ℕ → K) (B H hd n capacity : ℕ) (chunks : List ℕ) : Prop :=
  ∀ (w : AttentionWeights K) (x : ℕ → K) (table : Option (RopeTable K)),
    w.config.numHeads = H → w.config.headDim = hd → w.config.dModel = H * hd →
    w.config.useCausalMask = true →
    ∀ b < B, ∀ t < n, ∀ c < H * hd,
      concatAt (H * hd) (feed exp rsqrt w B n x table chunks (kvCacheCreate capacity)) b t c =
        attnForward exp rsqrt w n x table ((b * n + t) * (H * hd) + c)

variable {chunks : List ℕ}

omit [LinearOrder K] in
theorem Holds.create : Holds w n table x (kvCacheCreate capacity) :=
  ⟨fun a ha => by simp [kvCacheCreate] at ha, fun a ha => by simp [kvCacheCreate] at ha⟩

theorem agrees_single (hsum : chunks.sum = n) : Agrees exp rsqrt 1 1 hd n capacity chunks := by
  intro w x table hH hhd hD hcausal b hb t ht c hc
  have hDhd : w.config.dModel = w.config.headDim := by rw [hD, hhd, Nat.one_mul]
  have hb0 : b = 0 := by omega
  rw [← hD] at hc ⊢
  rw [hb0, concatAt_feed_single hH hDhd hcausal Holds.create (by simp [kvCacheCreate, hsum])
    (by omega) hc]
  simp [kvCacheCreate]

theorem agrees_full : Agrees exp rsqrt B H hd n n [n] := by
  intro w x table hH hhd hD hcausal b hb t ht c hc
  have hi : (b * n + t) * w.config.dModel + c < B * n * w.config.dModel :=
    row_lt (row_lt hb ht) (hD ▸ hc)
  rw [← hD]
  rw [feed, concatAt, if_pos ht]
  exact attnForwardCached_full (by rw [hD, hH, hhd]) hcausal hi

/-- A first chunk that leaves room in the cache gives another row for the second head, or for the second
batch. -/
theorem not_agrees_of_room [IsStrictOrderedRing K] (hexp : ∀ x, 0 < exp x) (hBH : 1 < B * H)
    (hhd : 0 < hd) (hS : 0 < S) (hSn : S ≤ n) (hcap : S < capacity) {rest : List ℕ} :
    ¬ Agrees exp rsqrt B H hd n capacity (S :: rest) := by
  intro hagrees
  have hH : 0 < H := Nat.pos_of_ne_zero fun h0 => by simp [h0] at hBH
  have hD : 0 < H * hd := Nat.mul_pos hH hhd
  -- the entry at which the second head, or the second batch, starts
  have hlt : S * hd < B * S * (H * hd) := by
    calc S * hd = 1 * (S * hd) := (Nat.one_mul _).symm
      _ < B * H * (S * hd) := Nat.mul_lt_mul_of_pos_right hBH (Nat.mul_pos hS hhd)
      _ = B * S * (H * hd) := by ring
  set r := S * hd / (H * hd)
  have hr : r < B * S := div_lt_of_lt_mul hlt
  have hsplit : (r / S * S + r % S) * (H * hd) + S * hd % (H * hd) = S * hd := by
    rw [Nat.div_add_mod', Nat.div_add_mod']
  have hrow := hagrees (meanWeights K H hd) (fun _ => 1) none rfl rfl rfl rfl (r / S)
    (div_lt_of_lt_mul hr) (r % S) (lt_of_lt_of_le (Nat.mod_lt r hS) hSn) (S * hd % (H * hd))
    (Nat.mod_lt _ hD)
  rw [feed, concatAt, if_pos (Nat.mod_lt r hS), hsplit] at hrow
  exact absurd (hrow.symm.trans (attnForwardCached_meanWeights_zero hD hS hcap))
    (attnForward_meanWeights_pos hexp hD (by omega) _).ne'

/-- Over all shapes, capacities and cuts. -/
theorem cachedForward_iff [IsStrictOrderedRing K] (hexp : ∀ x, 0 < exp x) (hpos : ∀ S ∈ chunks, 0 < S)
    (hsum : chunks.sum = n) (hcap : n ≤ capacity) :
    Agrees exp rsqrt B H hd n capacity chunks ↔
      B * H ≤ 1 ∨ hd = 0 ∨ n = 0 ∨ chunks = [n] ∧ capacity = n := by
  constructor
  · intro hagrees
    by_contra hcond
    simp only [not_or, not_le] at hcond
    obtain ⟨hBH, hhd, hn, hfull⟩ := hcond
    cases chunks with
    | nil => exact hn hsum.symm
    | cons S rest =>
      rw [List.sum_cons] at hsum
      have hroom : S < capacity := by
        by_contra hge
        have hrest : rest = [] := List.eq_nil_iff_forall_not_mem.mpr fun S' hmem => by
          have := hpos S' (List.mem_cons_of_mem S hmem)
          have := List.single_le_sum (fun _ _ => Nat.zero_le _) S' hmem
          omega
        have hS : S = n := by omega
        exact hfull ⟨by rw [hrest, hS], by omega⟩
      exact not_agrees_of_room hexp hBH (by omega) (hpos S List.mem_cons_self) (by omega) hroom hagrees
  · rintro (hBH | rfl | rfl | ⟨rfl, rfl⟩)
    · rcases Nat.eq_zero_or_pos B with rfl | hB
      · exact fun _ _ _ _ _ _ _ b hb => absurd hb (Nat.not_lt_zero b)
      · rcases Nat.eq_zero_or_pos H with rfl | hH
        · intro _ _ _ _ _ _ _ b _ t _ c hc
          simp at hc
        · have hB1 : B = 1 := by nlinarith
          have hH1 : H = 1 := by nlinarith
          rw [hB1, hH1]
          exact agrees_single hsum
    · intro _ _ _ _ _ _ _ b _ t _ c hc
      simp at hc
    · exact fun _ _ _ _ _ _ _ b _ t ht => absurd ht (Nat.not_lt_zero t)
    · exact agrees_full

/-- One head, three tokens in two chunks, room for five. -/
theorem cachedForward_oneHead :
    Agrees Real.exp (fun d => 1 / Real.sqrt d) 1 1 2 3 5 [1, 2] :=
  (cachedForward_iff Real.exp_pos (by decide) (by decide) (by decide)).mpr (Or.inl (by decide))

/-- Two heads of size one, and two tokens that are fed one by one. -/
theorem cachedForward_twoHeads :
    concatAt 2 (feed Real.exp (fun d => 1 / Real.sqrt d) (meanWeights ℝ 2 1) 1 2 (fun _ => 1) none [1, 1]
      (kvCacheCreate 2)) 0 0 1 ≠
      attnForward Real.exp (fun d => 1 / Real.sqrt d) (meanWeights ℝ 2 1) 2 (fun _ => 1) none 1 := by
  have hcached : concatAt 2 (feed Real.exp (fun d => 1 / Real.sqrt d) (meanWeights ℝ 2 1) 1 2 (fun _ => 1)
      none [1, 1] (kvCacheCreate 2)) 0 0 1 = 0 :=
    attnForwardCached_meanWeights_zero (by decide) (by decide) (by decide)
  rw [hcached]
  exact (attnForward_meanWeights_pos Real.exp_pos (by decide) (by decide) 1).ne

end Else

end SneppxAlg.Attention
