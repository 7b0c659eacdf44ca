import Mathlib.Algebra.BigOperators.Group.Finset.Piecewise
import Mathlib.Algebra.Order.BigOperators.Group.Finset
import Mathlib.Algebra.Order.Floor.Div
import Mathlib.Data.List.Count
import Mathlib.Tactic.IntervalCases
import SneppxAlg.Lib.Shuffle

/-!
# The distributed sampler

`kernel/distributed/distributed_sampler.c`: each of the `w` ranks gets a list of `⌈n / w⌉` indices of
samples, and `set_epoch` shuffles it with a generator seeded by the epoch.

The lists of the ranks split the samples, with the last index as padding (`shards_sampleList`). `set_epoch`
permutes the list it finds, which is the one the last epoch has left, so the order after it is the
order that the epoch stands for only if the list was still, or again, as `init` built it
(`contract_iff`).

Arithmetic in `int64_t` that overflows is undefined: `samplerInit` and `setEpoch` are `none` there.
Storage is taken as available.
-/

namespace SneppxAlg.Sampler

open Lib.Shuffle

structure DistributedSampler where
  indices : List ℤ
  numSamples : ℤ
  numSamplesPerRank : ℤ
  epoch : Int64
  worldSize : ℤ
  rank : ℤ
  shuffle : Bool
  seed : Int64

/-- The values of an `int64_t`. -/
def Fits (x : ℤ) : Prop := -2 ^ 63 ≤ x ∧ x < 2 ^ 63

instance (x : ℤ) : Decidable (Fits x) := inferInstanceAs (Decidable (_ ∧ _))

/-- The entry of the list at place `i`. -/
def indexAt (total perRank rank i : ℤ) : ℤ :=
  if total ≤ rank * perRank + i then total - 1 else rank * perRank + i

/-- `(total + world_size - 1) / world_size`. -/
def perRankOf (total worldSize : ℤ) : ℤ := (total + worldSize - 1).tdiv worldSize

/-- `sneppx_distributed_sampler_init`. -/
def samplerInit (numSamples worldSize rank : ℤ) (shuffle : Bool) (seed : Int64) :
    Option DistributedSampler :=
  let perRank := perRankOf numSamples worldSize
  if worldSize ≤ 0 then none
  else if ¬ Fits (numSamples + worldSize) then none
  else if ¬ Fits (rank * perRank) ∨ ¬ Fits (rank * perRank + (perRank - 1)) then none
  else
    some
      { indices := (List.range perRank.toNat).map fun i : ℕ => indexAt numSamples perRank rank i
        numSamples := numSamples
        numSamplesPerRank := perRank
        epoch := 0
        worldSize := worldSize
        rank := rank
        shuffle := shuffle
        seed := seed }

/-- The generator: the `k`-th value of `rand` after `srand` with a seed. -/
abbrev Generator := UInt32 → ℕ → ℕ

variable (rand : Generator)

/-- `sneppx_distributed_sampler_set_epoch`. -/
def setEpoch (s : DistributedSampler) (epoch : Int64) : Option DistributedSampler :=
  let s := { s with epoch := epoch }
  if s.shuffle then
    if Fits (s.seed.toInt + epoch.toInt) then
      some { s with
        indices := shuffle (rand (s.seed + epoch).toUInt64.toUInt32)
          (s.numSamplesPerRank - 1).toNat 0 s.indices }
    else none
  else some s

/-- A sequence of epochs. -/
def setEpochs (s : DistributedSampler) (epochs : List Int64) : Option DistributedSampler :=
  epochs.foldlM (setEpoch rand) s

/-! ## The shards -/

/-- The lists of all ranks: of one length, with indices of samples only, all of them, and only the
last one more than once. -/
structure Shards (n : ℤ) (w : ℕ) (lists : ℕ → List ℤ) : Prop where
  length_eq : ∀ r < w, ∀ r' < w, (lists r).length = (lists r').length
  below : ∀ r < w, ∀ i ∈ lists r, 0 ≤ i ∧ i < n
  covers : ∀ i, 0 ≤ i → i < n → ∃ r < w, i ∈ lists r
  repeated : ∀ i, 1 < ∑ r ∈ Finset.range w, (lists r).count i → i = n - 1

section

variable {n w : ℕ}

/-- The length of a list, as a number. -/
def share (n w : ℕ) : ℕ := (n + w - 1) / w

theorem perRankOf_eq (hw : 1 ≤ w) : perRankOf n w = share n w := by
  have hsub : (n : ℤ) + w - 1 = ((n + w - 1 : ℕ) : ℤ) := by omega
  rw [perRankOf, hsub, share]
  rfl

theorem le_mul_share (hw : 1 ≤ w) : n ≤ w * share n w := le_smul_ceilDiv (show 0 < w from hw)

theorem mul_share_lt (hw : 1 ≤ w) : w * share n w < n + w := by
  have hle := Nat.mul_div_le (n + w - 1) w
  unfold share
  omega

/-- The entry at place `i` of rank `r`: its number, or the last sample. -/
def sampleAt (n w r i : ℕ) : ℕ := min (r * share n w + i) (n - 1)

theorem indexAt_eq (hn : 1 ≤ n) (r i : ℕ) : indexAt n (share n w) r i = sampleAt n w r i := by
  unfold indexAt sampleAt
  split_ifs with h <;> omega

/-- The list of rank `r`. -/
def sampleList (n w r : ℕ) : List ℤ := (List.range (share n w)).map fun i => (sampleAt n w r i : ℤ)

theorem fits_place (hw : 1 ≤ w) (hfit : (n : ℤ) + w < 2 ^ 63) {r : ℕ} (hr : r < w) :
    Fits (r * (share n w : ℤ)) ∧ Fits (r * (share n w : ℤ) + ((share n w : ℤ) - 1)) := by
  have hlt := mul_share_lt (n := n) hw
  have hmul : (r + 1) * share n w ≤ w * share n w := Nat.mul_le_mul_right _ hr
  rw [Nat.add_mul, one_mul] at hmul
  have hpos : (0 : ℤ) ≤ r * (share n w : ℤ) :=
    Int.mul_nonneg (Int.natCast_nonneg _) (Int.natCast_nonneg _)
  have hupper : (r : ℤ) * (share n w : ℤ) + share n w < n + w := by exact_mod_cast hmul.trans_lt hlt
  constructor <;> constructor <;> omega

/-- What `init` builds for a rank, where the arithmetic is defined. -/
def built (n w r : ℕ) (shuffle : Bool) (seed : Int64) : DistributedSampler where
  indices := sampleList n w r
  numSamples := n
  numSamplesPerRank := share n w
  epoch := 0
  worldSize := w
  rank := r
  shuffle := shuffle
  seed := seed

theorem samplerInit_eq (hn : 1 ≤ n) (hw : 1 ≤ w) (hfit : (n : ℤ) + w < 2 ^ 63) {r : ℕ}
    (hr : r < w) (shuffle : Bool) (seed : Int64) :
    samplerInit n w r shuffle seed = some (built n w r shuffle seed) := by
  obtain ⟨hplace, hlast⟩ := fits_place hw hfit hr
  have hsum : Fits ((n : ℤ) + w) := ⟨by omega, hfit⟩
  unfold samplerInit
  simp only [perRankOf_eq hw]
  rw [if_neg (by omega), if_neg (not_not.mpr hsum),
    if_neg (by rw [not_or, not_not, not_not]; exact ⟨hplace, hlast⟩)]
  simp only [Int.toNat_natCast, indexAt_eq hn, sampleList, built]

theorem samplerInit_none (hfit : ¬ (n : ℤ) + w < 2 ^ 63) (r : ℤ) (shuffle : Bool)
    (seed : Int64) : samplerInit n w r shuffle seed = none := by
  have hsum : ¬ Fits ((n : ℤ) + w) := fun h => hfit h.2
  unfold samplerInit
  dsimp only
  rw [if_pos hsum, ite_self]

/-- Before the last sample, an index is in one list at one place. -/
theorem count_sampleList_le {i : ℕ} (hi : i < n - 1) (r : ℕ) :
    (sampleList n w r).count (i : ℤ) ≤ if r = i / share n w then 1 else 0 := by
  rw [sampleList, List.count, List.countP_map, List.countP_eq_length_filter]
  have hplace : ∀ j ∈ (List.range (share n w)).filter ((· == (i : ℤ)) ∘ fun j => (sampleAt n w r j : ℤ)),
      j < share n w ∧ r * share n w + j = i := by
    intro j hj
    simp only [List.mem_filter, List.mem_range, Function.comp_apply, beq_iff_eq] at hj
    have heq : sampleAt n w r j = i := by exact_mod_cast hj.2
    unfold sampleAt at heq
    omega
  split_ifs with hr
  · rw [← List.toFinset_card_of_nodup (List.nodup_range.filter _), Finset.card_le_one]
    intro j hj j' hj'
    have h1 := hplace j (List.mem_toFinset.mp hj)
    have h2 := hplace j' (List.mem_toFinset.mp hj')
    omega
  · rw [Nat.le_zero, List.length_eq_zero_iff, List.eq_nil_iff_forall_not_mem]
    intro j hj
    obtain ⟨hlt, heq⟩ := hplace j hj
    apply hr
    rw [← heq, Nat.mul_comm, Nat.mul_add_div (by omega), Nat.div_eq_of_lt hlt, Nat.add_zero]

theorem shards_sampleList (hn : 1 ≤ n) (hw : 1 ≤ w) : Shards n w (sampleList n w) := by
  have hcover := le_mul_share (n := n) hw
  refine ⟨fun r _ r' _ => by simp [sampleList], ?_, ?_, ?_⟩
  · intro r _ i hi
    obtain ⟨j, -, rfl⟩ := List.mem_map.mp hi
    unfold sampleAt
    omega
  · intro i h0 hlt
    lift i to ℕ using h0
    have hi : i < n := by exact_mod_cast hlt
    have hpos : 0 < share n w := Nat.pos_of_ne_zero fun hzero => by rw [hzero] at hcover; omega
    refine ⟨i / share n w, Nat.div_lt_of_lt_mul (by rw [Nat.mul_comm]; omega), ?_⟩
    refine List.mem_map.mpr ⟨i % share n w, List.mem_range.mpr (Nat.mod_lt _ hpos), ?_⟩
    have hsplit := Nat.div_add_mod' i (share n w)
    unfold sampleAt
    rw [hsplit]
    omega
  · intro i hcount
    by_contra hne
    have hle : ∑ r ∈ Finset.range w, (sampleList n w r).count i ≤ 1 := by
      by_cases hrange : 0 ≤ i ∧ i < n
      · obtain ⟨h0, hlt⟩ := hrange
        lift i to ℕ using h0
        calc ∑ r ∈ Finset.range w, (sampleList n w r).count (i : ℤ)
            ≤ ∑ r ∈ Finset.range w, if r = i / share n w then 1 else 0 :=
              Finset.sum_le_sum fun r _ => count_sampleList_le (by omega) r
          _ ≤ 1 := by
              rw [Finset.sum_ite_eq']
              split_ifs <;> omega
      · rw [Finset.sum_eq_zero fun r _ => ?_]
        · omega
        · refine List.count_eq_zero.mpr fun hmem => hrange ?_
          obtain ⟨j, -, rfl⟩ := List.mem_map.mp hmem
          unfold sampleAt
          omega
    omega

/-! ## Epochs -/

variable {rand} {s t : DistributedSampler} {e : Int64} {epochs : List Int64}

theorem setEpoch_perm (h : setEpoch rand s e = some t) : t.indices.Perm s.indices := by
  unfold setEpoch at h
  dsimp only at h
  split_ifs at h
  · cases h
    exact shuffle_perm _ _ _ _
  · cases h
    exact List.Perm.refl _

/-- What the epochs do not change. -/
structure SameShard (s t : DistributedSampler) : Prop where
  perRank : s.numSamplesPerRank = t.numSamplesPerRank
  shuffle : s.shuffle = t.shuffle
  seed : s.seed = t.seed

theorem setEpoch_sameShard (h : setEpoch rand s e = some t) : SameShard t s := by
  unfold setEpoch at h
  dsimp only at h
  split_ifs at h
  all_goals
    cases h
    exact ⟨rfl, rfl, rfl⟩

theorem setEpochs_cons : setEpochs rand s (e :: epochs) = (setEpoch rand s e).bind (setEpochs rand · epochs) :=
  List.foldlM_cons

theorem setEpochs_sameShard (h : setEpochs rand s epochs = some t) : SameShard t s := by
  induction epochs generalizing s with
  | nil =>
    cases h
    exact ⟨rfl, rfl, rfl⟩
  | cons e epochs ih =>
    rw [setEpochs_cons] at h
    obtain ⟨s₁, hfirst, hrest⟩ := Option.bind_eq_some_iff.mp h
    have h1 := ih hrest
    have h2 := setEpoch_sameShard hfirst
    exact ⟨h1.perRank.trans h2.perRank, h1.shuffle.trans h2.shuffle, h1.seed.trans h2.seed⟩

theorem setEpoch_of_not_shuffle (h : s.shuffle = false) (e : Int64) :
    setEpoch rand s e = some { s with epoch := e } := by
  simp [setEpoch, h]

theorem setEpochs_of_not_shuffle (h : s.shuffle = false) (epochs : List Int64) :
    ∃ t, setEpochs rand s epochs = some t ∧ t.indices = s.indices := by
  induction epochs generalizing s with
  | nil => exact ⟨s, rfl, rfl⟩
  | cons e epochs ih =>
    rw [setEpochs_cons, setEpoch_of_not_shuffle h]
    exact @ih { s with epoch := e } h

theorem setEpoch_isSome (h : s.shuffle = false ∨ Fits (s.seed.toInt + e.toInt)) : ∃ t, setEpoch rand s e = some t := by
  unfold setEpoch
  dsimp only
  split_ifs with hshuffle hfits
  · exact ⟨_, rfl⟩
  · exact absurd h (not_or.mpr ⟨by simp [hshuffle], hfits⟩)
  · exact ⟨_, rfl⟩

theorem fits_of_setEpoch (h : setEpoch rand s e = some t) : s.shuffle = false ∨ Fits (s.seed.toInt + e.toInt) := by
  unfold setEpoch at h
  dsimp only at h
  split_ifs at h with hshuffle hfits
  · exact .inr hfits
  · exact .inl (by simpa using hshuffle)

/-- With shuffling, two lists give the same order for an epoch only if they are the same. -/
theorem setEpoch_inj {s' t' : DistributedSampler} (hst : SameShard s t) (hs : setEpoch rand s e = some s')
    (ht : setEpoch rand t e = some t') : s'.indices = t'.indices ↔ s.indices = t.indices := by
  unfold setEpoch at hs ht
  simp only [hst.shuffle, hst.seed, hst.perRank] at hs
  dsimp only at ht
  split_ifs at hs ht
  · cases hs
    cases ht
    exact (shuffle_injective _ _ _).eq_iff
  · cases hs
    cases ht
    exact Iff.rfl

/-! ## The whole contract -/

variable (rand)

/-- The samplers of all ranks are built and shard the samples, an epoch permutes each list, and the
order it gives after a history of epochs is the one it gives right after `init`. -/
def Contract (n w : ℕ) (shuffle : Bool) (seed : Int64) (history : List Int64) (e : Int64) : Prop :=
  ∃ s : ℕ → DistributedSampler,
    (∀ r < w, samplerInit n w r shuffle seed = some (s r)) ∧
    Shards n w (fun r => (s r).indices) ∧
    ∀ r < w, ∃ t u v, setEpochs rand (s r) history = some t ∧ setEpoch rand t e = some u ∧
      setEpoch rand (s r) e = some v ∧ u.indices.Perm t.indices ∧ u.indices = v.indices

/-- The list of a rank after a history of epochs is the one that `init` builds. -/
def Unmoved (n w : ℕ) (shuffle : Bool) (seed : Int64) (history : List Int64) (r : ℕ) : Prop :=
  ∀ s, samplerInit n w r shuffle seed = some s →
    ∃ t, setEpochs rand s history = some t ∧ t.indices = s.indices

/-- The contract holds where the arithmetic is defined and the list is not shuffled or is as `init`
built it. -/
theorem contract_iff (n w : ℕ) (hn : 1 ≤ n) (hw : 1 ≤ w) (shuffle : Bool) (seed : Int64)
    (history : List Int64) (e : Int64) :
    Contract rand n w shuffle seed history e ↔
      (n : ℤ) + w < 2 ^ 63 ∧
        (shuffle = false ∨ Fits (seed.toInt + e.toInt) ∧ ∀ r < w, Unmoved rand n w shuffle seed history r) := by
  constructor
  · rintro ⟨s, hinit, -, hepoch⟩
    have hfit : (n : ℤ) + w < 2 ^ 63 := by
      by_contra hfit
      have hnone := samplerInit_none hfit (0 : ℕ) shuffle seed
      rw [hinit 0 (by omega)] at hnone
      simp at hnone
    refine ⟨hfit, or_iff_not_imp_left.mpr fun hon => ⟨?_, fun r hr t ht => ?_⟩⟩
    · obtain ⟨t, u, v, -, -, hv, -⟩ := hepoch 0 (by omega)
      have hs := (samplerInit_eq hn hw hfit (by omega) shuffle seed).symm.trans (hinit 0 (by omega))
      have hsum := fits_of_setEpoch hv
      rw [← Option.some.inj hs] at hsum
      exact hsum.resolve_left hon
    · obtain rfl : s r = t := Option.some.inj ((hinit r hr).symm.trans ht)
      obtain ⟨t, u, v, hhistory, hu, hv, -, hsame⟩ := hepoch r hr
      exact ⟨t, hhistory, (setEpoch_inj (setEpochs_sameShard hhistory) hu hv).mp hsame⟩
  · rintro ⟨hfit, hcond⟩
    have hinit := fun r (hr : r < w) => samplerInit_eq hn hw hfit hr shuffle seed
    refine ⟨fun r => built n w r shuffle seed, hinit, shards_sampleList hn hw, fun r hr => ?_⟩
    obtain ⟨t, hhistory, hsame⟩ : ∃ t, setEpochs rand (built n w r shuffle seed) history = some t ∧
        t.indices = (built n w r shuffle seed).indices := by
      rcases hcond with hoff | hmoved
      · exact setEpochs_of_not_shuffle hoff history
      · exact hmoved.2 r hr _ (hinit r hr)
    have hshard := setEpochs_sameShard hhistory
    have hsum : shuffle = false ∨ Fits (seed.toInt + e.toInt) := hcond.imp_right And.left
    obtain ⟨v, hv⟩ : ∃ v, setEpoch rand (built n w r shuffle seed) e = some v := setEpoch_isSome hsum
    obtain ⟨u, hu⟩ : ∃ u, setEpoch rand t e = some u :=
      setEpoch_isSome (by rwa [hshard.shuffle, hshard.seed])
    exact ⟨t, u, v, hhistory, hu, hv, setEpoch_perm hu, (setEpoch_inj hshard hu hv).mpr hsame⟩

end

/-- The first draws of a C library's `rand` after `srand(0)` and after `srand(1)`, which are the
same. -/
def libraryRand : Generator := fun _ k => if k = 0 then 1804289383 else 846930886

/-- The exchanges of the first epochs leave lists of two indices as they are. -/
theorem contract_iff_resumed : Contract libraryRand 3 2 true 0 [0, 1] 2 := by
  refine (contract_iff libraryRand 3 2 (by decide) (by decide) true 0 [0, 1] 2).mpr
    ⟨by decide, .inr ⟨by decide, fun r hr s hs => ?_⟩⟩
  obtain rfl := Option.some.inj ((samplerInit_eq (by decide) (by decide) (by decide) hr true 0).symm.trans hs)
  interval_cases r <;> exact ⟨_, rfl, rfl⟩

/-- A job that has run epoch 0 shuffles epoch 1 differently than one that starts with it. -/
theorem not_contract_resumed : ¬ Contract libraryRand 3 1 true 0 [0] 1 := by
  rintro ⟨s, hinit, -, hepoch⟩
  have hs := (samplerInit_eq (n := 3) (w := 1) (by decide) (by decide) (by decide)
    (show 0 < 1 by decide) true 0).symm.trans (hinit 0 (by decide))
  obtain ⟨t, u, v, ht, hu, hv, -, hsame⟩ := hepoch 0 (by decide)
  rw [← Option.some.inj hs] at ht hv
  obtain rfl := Option.some.inj ht
  obtain rfl := Option.some.inj hu
  obtain rfl := Option.some.inj hv
  exact absurd hsame (by decide)

end SneppxAlg.Sampler
