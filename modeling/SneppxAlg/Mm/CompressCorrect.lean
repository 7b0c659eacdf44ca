import SneppxAlg.Mm.Compress
import Mathlib.Data.Int.Interval

/-!
# What the codecs of `compress.c` give back

Block floating point gives back every mantissa and every exponent (`packBlocks_unpack`): each bit of a mantissa has a
place of its own, all of them are inside of the array, and nothing else is set.

The sparse codec finds a value behind the bitmap by the number of values in front of it (`rank`). It writes nothing
behind the last whole float, and for a negative zero it writes a positive one; otherwise it gives back its input
(`sparse_roundTrips_iff`).
-/

namespace SneppxAlg.Compress

open Lib.AddingLoops Lib.BitArray Lib.Bytes

/-! ## Block floating point -/

section Bfp

variable {mb bs n b o i k : ℕ} {exponent : ℕ → Option Int16} {q : ℕ → Int32}

theorem lt_of_lt_blockLength (ho : o < blockLength bs n b) : b * bs + o < n := by
  rw [blockLength] at ho
  omega

theorem mod_lt_blockLength (hbs : 0 < bs) (hi : i < n) : i % bs < blockLength bs n (i / bs) := by
  have hmod := Nat.mod_lt i hbs
  have hdiv := Nat.div_add_mod' i bs
  rw [blockLength]
  omega

theorem div_eq_of_lt_blockLength (ho : o < blockLength bs n b) : (b * bs + o) / bs = b := by
  rw [blockLength] at ho
  rw [Nat.div_eq_iff (by omega)]
  constructor
  · omega
  · omega

theorem le_numBlocks_mul (hbs : 0 < bs) (n : ℕ) : n ≤ numBlocks n bs * bs := by
  have hdiv := Nat.div_add_mod' (n + bs - 1) bs
  have hmod := Nat.mod_lt (n + bs - 1) hbs
  rw [numBlocks]
  omega

theorem div_lt_numBlocks (hbs : 0 < bs) (hi : i < n) : i / bs < numBlocks n bs :=
  (Nat.div_lt_iff_lt_mul hbs).mpr (hi.trans_le (le_numBlocks_mul hbs n))

theorem bit_lt (hbs : 0 < bs) (hi : i < n) (hk : k < mb) : (i * mb + k) / 8 < mantissaBytes mb bs n := by
  have hplace : i * mb + k < numBlocks n bs * bs * mb := digit_lt (hi.trans_le (le_numBlocks_mul hbs n)) hk
  have hblocks : 0 < numBlocks n bs := Nat.zero_lt_of_lt (div_lt_numBlocks hbs hi)
  have hdiv := Nat.div_le_div_right (c := 8) hplace.le
  rw [mantissaBytes]
  omega

def BlockBit (mb bs n : ℕ) (q : ℕ → Int32) (b x : ℕ) : Prop :=
  ∃ o < blockLength bs n b, ∃ k < mb, mantissaBit (q (b * bs + o)) k = true ∧ x = (b * bs + o) * mb + k

theorem sets_packBlock (hbs : 0 < bs) (b : ℕ) :
    Sets (packBlock (mantissaBytes mb bs n) mb bs n b q) (BlockBit mb bs n q b) :=
  Sets.forLoop fun _ ho => Sets.forLoop fun _ hk => sets_setBitIf (bit_lt hbs (lt_of_lt_blockLength ho) hk)

/-- The mantissas and exponents of the first blocks. -/
def PackedUpTo (mb bs n : ℕ) (exponent : ℕ → Option Int16) (q : ℕ → Int32) (k : ℕ)
    (s : (ℕ → UInt8) × (ℕ → Int16)) : Prop :=
  (∀ x, bit s.1 x = true ↔ ∃ b < k, exponent b ≠ none ∧ BlockBit mb bs n q b x) ∧
    ∀ b < k, s.2 b = (exponent b).getD 0

theorem PackedUpTo.exponents {m : ℕ → UInt8} {e : ℕ → Int16} (h : PackedUpTo mb bs n exponent q k (m, e))
    {x : Int16} (hx : (exponent k).getD 0 = x) :
    ∀ b < k + 1, Function.update e k x b = (exponent b).getD 0 := by
  intro b hb
  rcases Nat.lt_succ_iff_lt_or_eq.mp hb with hlt | rfl
  · rw [Function.update_of_ne hlt.ne]
    exact h.2 b hlt
  · rw [Function.update_self, hx]

theorem exists_packBlocks (hbs : 0 < bs) (exponent : ℕ → Option Int16) (q : ℕ → Int32) :
    ∃ s, packBlocks mb bs n exponent q = some s ∧ PackedUpTo mb bs n exponent q (numBlocks n bs) s := by
  refine exists_forLoop_eq_some (PackedUpTo mb bs n exponent q)
    ⟨fun x => by simp [bit_zero], fun b hb => absurd hb (Nat.not_lt_zero b)⟩ ?_
  rintro b - ⟨m, e⟩ h
  cases he : exponent b with
  | none =>
    refine ⟨_, rfl, fun x => ?_, h.exponents (by rw [he]; rfl)⟩
    rw [h.1, Nat.exists_lt_succ_right]
    exact (or_iff_left fun hb => hb.1 he).symm
  | some y =>
    obtain ⟨m', hm', hset⟩ := sets_packBlock hbs b m
    refine ⟨(m', Function.update e b y), congrArg (Option.map _) hm', fun x => ?_,
      h.exponents (by rw [he]; rfl)⟩
    rw [hset, h.1, Nat.exists_lt_succ_right, he]
    simp

/-- A bit that is read back. -/
theorem PackedUpTo.bit_eq {s : (ℕ → UInt8) × (ℕ → Int16)}
    (h : PackedUpTo mb bs n exponent q (numBlocks n bs) s) (hbs : 0 < bs)
    (hzero : exponent (i / bs) = none → q i = 0) (hi : i < n) (hk : k < mb) :
    bit s.1 (i * mb + k) = mantissaBit (q i) k := by
  have hsplit : i / bs * bs + i % bs = i := Nat.div_add_mod' i bs
  rw [Bool.eq_iff_iff, h.1]
  constructor
  · rintro ⟨b, -, -, o, -, k', hk', hbit, hplace⟩
    obtain ⟨rfl, rfl⟩ := digit_inj hk hk' hplace
    exact hbit
  · intro hbit
    refine ⟨i / bs, div_lt_numBlocks hbs hi, fun hnone => ?_, i % bs, mod_lt_blockLength hbs hi, k, hk,
      by rwa [hsplit], by rw [hsplit]⟩
    rw [hzero hnone, mantissaBit, Int32.zero_and] at hbit
    exact absurd hbit (by decide)

/-- A mantissa from its bits. -/
def gather (mb : ℕ) (c : ℕ → Bool) : Int32 :=
  (List.range mb).foldl (fun q k => if c k then q ||| 1 <<< Int32.ofNat k else q) 0

theorem unpackMantissa_eq {cells pos : ℕ} {data : ℕ → UInt8} {c : ℕ → Bool}
    (h : ∀ k < mb, testBit cells (pos + k) data = some (c k)) :
    unpackMantissa cells mb pos data = some (signExtend mb (gather mb c)) := by
  have hloop : ∀ j ≤ mb, forLoop j (fun k q => (testBit cells (pos + k) data).map fun c =>
      if c then q ||| 1 <<< Int32.ofNat k else q) 0 = some (gather j c) := by
    intro j hj
    induction j with
    | zero => rfl
    | succ j ih =>
      rw [forLoop_succ, ih (by omega), Option.bind_some, h j (by omega), gather, gather, List.range_succ,
        List.foldl_append]
      rfl
  rw [unpackMantissa, hloop mb le_rfl, Option.map_some]

/-- The values of a mantissa. -/
def InRange (mb : ℕ) (q : Int32) : Prop := -2 ^ (mb - 1) ≤ q.toInt ∧ q.toInt < 2 ^ (mb - 1)

set_option maxRecDepth 20000 in
theorem signExtend_gather_ofInt :
    (∀ z : Fin 16, signExtend 4 (gather 4 (mantissaBit (Int32.ofInt (z - 8)))) = Int32.ofInt (z - 8)) ∧
      ∀ z : Fin 256, signExtend 8 (gather 8 (mantissaBit (Int32.ofInt (z - 128)))) = Int32.ofInt (z - 128) := by
  decide

theorem signExtend_gather (hmb : mb = 4 ∨ mb = 8) {q : Int32} (hq : InRange mb q) :
    signExtend mb (gather mb (mantissaBit q)) = q := by
  obtain ⟨hlo, hhi⟩ := hq
  rcases hmb with rfl | rfl
  · norm_num at hlo hhi
    have h := signExtend_gather_ofInt.1 ⟨(q.toInt + 8).toNat, by omega⟩
    rwa [show (((q.toInt + 8).toNat : ℕ) : ℤ) - 8 = q.toInt by omega, Int32.ofInt_toInt] at h
  · norm_num at hlo hhi
    have h := signExtend_gather_ofInt.2 ⟨(q.toInt + 128).toNat, by omega⟩
    rwa [show (((q.toInt + 128).toNat : ℕ) : ℤ) - 128 = q.toInt by omega, Int32.ofInt_toInt] at h

theorem PackedUpTo.unpackMantissa {s : (ℕ → UInt8) × (ℕ → Int16)}
    (h : PackedUpTo mb bs n exponent q (numBlocks n bs) s) (hmb : mb = 4 ∨ mb = 8) (hbs : 0 < bs)
    (hq : ∀ i < n, InRange mb (q i)) (hzero : ∀ i < n, exponent (i / bs) = none → q i = 0) (hi : i < n) :
    unpackMantissa (mantissaBytes mb bs n) mb (i * mb) s.1 = some (q i) := by
  rw [unpackMantissa_eq fun k hk => (testBit_eq_some (bit_lt hbs hi hk) s.1).trans
    (congrArg some (h.bit_eq hbs (hzero i hi) hi hk)), signExtend_gather hmb (hq i hi)]

variable {F : Type}

/-- `bfp_decompress` on packed mantissas. -/
theorem PackedUpTo.bfpDecompress {s : (ℕ → UInt8) × (ℕ → Int16)} {srcBytes : ℕ}
    (h : PackedUpTo mb bs (srcBytes / 4) exponent q (numBlocks (srcBytes / 4) bs) s) (hmb : mb = 4 ∨ mb = 8)
    (hbs : 0 < bs) (hq : ∀ i < srcBytes / 4, InRange mb (q i))
    (hzero : ∀ i < srcBytes / 4, exponent (i / bs) = none → q i = 0) (ops : FloatOps F) (dtype : ℤ) (dst : ℕ → F)
    {dstBytes : ℕ} (hdst : srcBytes ≤ dstBytes) :
    ∃ out, bfpDecompress ops (bfpBuffer mb bs srcBytes dtype s) dst dstBytes = some out ∧
      ∀ i < srcBytes / 4, out i = ops.unscaled (q i) (((exponent (i / bs)).getD 0).toInt - (mb - 1)) := by
  have hcodec : (if (bfpBuffer mb bs srcBytes dtype s).codec = .bfp4 then 4 else 8) = mb := by
    rcases hmb with rfl | rfl <;> rfl
  have hsize : (if (bfpBuffer mb bs srcBytes dtype s).blockSize = 0 then 16
      else (bfpBuffer mb bs srcBytes dtype s).blockSize) = bs := if_neg hbs.ne'
  have hroom : ¬dstBytes < (bfpBuffer mb bs srcBytes dtype s).originalBytes := not_lt.mpr hdst
  have hstores : Stores (forLoop (numBlocks (srcBytes / 4) bs) fun b =>
      forLoop (blockLength bs (srcBytes / 4) b) fun o fdst =>
        (Compress.unpackMantissa (mantissaBytes mb bs (srcBytes / 4)) mb ((b * bs + o) * mb) s.1).bind fun q =>
          storeAt (dstBytes / 4) (b * bs + o) (ops.unscaled q ((s.2 b).toInt - (mb - 1))) fdst)
      fun p r => ∃ b < numBlocks (srcBytes / 4) bs, ∃ o < blockLength bs (srcBytes / 4) b,
        p = b * bs + o ∧ r = ops.unscaled (q (b * bs + o)) ((s.2 b).toInt - (mb - 1)) := by
    refine Stores.forLoop fun b hb => Stores.forLoop fun o ho => ?_
    have hi := lt_of_lt_blockLength ho
    simp only [h.unpackMantissa hmb hbs hq hzero hi, Option.bind_some]
    exact stores_storeAt (hi.trans_le (Nat.div_le_div_right hdst))
  obtain ⟨out, hrun, hout⟩ := hstores dst
  refine ⟨out, ?_, fun i hi => ?_⟩
  · rw [Compress.bfpDecompress, if_neg hroom, hcodec, hsize]
    exact hrun
  · have hsplit : i / bs * bs + i % bs = i := Nat.div_add_mod' i bs
    rcases hout i with ⟨b, hb, o, ho, rfl, hr⟩ | ⟨hnone, -⟩
    · rw [div_eq_of_lt_blockLength ho, hr, h.2 b hb]
    · exact absurd ⟨i / bs, div_lt_numBlocks hbs hi, i % bs, mod_lt_blockLength hbs hi, hsplit.symm, rfl⟩
        (hnone _)

/-- **Block floating point gives back every mantissa and every exponent**, also those of a last block that is not
full, and of blocks that were skipped. -/
theorem packBlocks_unpack (hmb : mb = 4 ∨ mb = 8) (hbs : 0 < bs) (srcBytes : ℕ)
    (hq : ∀ i < srcBytes / 4, InRange mb (q i))
    (hzero : ∀ i < srcBytes / 4, exponent (i / bs) = none → q i = 0) :
    ∃ s, packBlocks mb bs (srcBytes / 4) exponent q = some s ∧
      (∀ i < srcBytes / 4, unpackMantissa (mantissaBytes mb bs (srcBytes / 4)) mb (i * mb) s.1 = some (q i)) ∧
      (∀ b < numBlocks (srcBytes / 4) bs, s.2 b = (exponent b).getD 0) ∧
      ∀ (ops : FloatOps F) (dtype : ℤ) (dst : ℕ → F) (dstBytes : ℕ), srcBytes ≤ dstBytes →
        ∃ out, bfpDecompress ops (bfpBuffer mb bs srcBytes dtype s) dst dstBytes = some out ∧
          ∀ i < srcBytes / 4, out i = ops.unscaled (q i) (((exponent (i / bs)).getD 0).toInt - (mb - 1)) := by
  obtain ⟨s, hrun, h⟩ := exists_packBlocks hbs exponent q
  exact ⟨s, hrun, fun i hi => h.unpackMantissa hmb hbs hq hzero hi, h.2,
    fun ops dtype dst dstBytes hdst => h.bfpDecompress hmb hbs hq hzero ops dtype dst hdst⟩

theorem packBlocks_unpack_partial :
    ∃ s, packBlocks 4 3 5 (fun b => if b = 0 then some 2 else none)
      (fun i => if i = 0 then -8 else if i < 3 then 7 else 0) = some s ∧
      (∀ i < 5, unpackMantissa (mantissaBytes 4 3 5) 4 (i * 4) s.1 =
        some (if i = 0 then -8 else if i < 3 then 7 else 0)) ∧
      (∀ b < numBlocks 5 3, s.2 b = (if b = 0 then some 2 else none : Option Int16).getD 0) ∧
      ∀ (ops : FloatOps ℤ) (dtype : ℤ) (dst : ℕ → ℤ) (dstBytes : ℕ), 20 ≤ dstBytes →
        ∃ out, bfpDecompress ops (bfpBuffer 4 3 20 dtype s) dst dstBytes = some out ∧
          ∀ i < 5, out i = ops.unscaled (if i = 0 then -8 else if i < 3 then 7 else 0)
            (((if i / 3 = 0 then some 2 else none : Option Int16).getD 0).toInt - ((4 : ℕ) - 1)) :=
  packBlocks_unpack (Or.inl rfl) (by decide) 20 (by unfold InRange; decide) (by decide)

theorem inRange_zero (mb : ℕ) : InRange mb 0 :=
  ⟨neg_nonpos.mpr (pow_nonneg (by decide) _), pow_pos (by decide) _⟩

theorem inRange_clamp (hmb : mb = 4 ∨ mb = 8) (x : Int32) : InRange mb (clamp mb x) := by
  have hhi : (1 <<< Int32.ofNat (mb - 1) - 1 : Int32).toInt = 2 ^ (mb - 1) - 1 := by
    rcases hmb with rfl | rfl <;> rfl
  have hlo : (-(1 <<< Int32.ofNat (mb - 1)) : Int32).toInt = -2 ^ (mb - 1) := by
    rcases hmb with rfl | rfl <;> rfl
  have hpow : (0 : ℤ) < 2 ^ (mb - 1) := pow_pos (by decide) _
  have hbelow : ∀ y : Int32, y.toInt < 2 ^ (mb - 1) →
      InRange mb (if y < -(1 <<< Int32.ofNat (mb - 1)) then -(1 <<< Int32.ofNat (mb - 1)) else y) := by
    intro y hy
    split_ifs with hlt
    · exact ⟨hlo.ge, by rw [hlo]; omega⟩
    · rw [Int32.lt_iff_toInt_lt, hlo, not_lt] at hlt
      exact ⟨hlt, hy⟩
  refine hbelow _ ?_
  split_ifs with hgt
  · rw [hhi]
    omega
  · rw [gt_iff_lt, Int32.lt_iff_toInt_lt, hhi, not_lt] at hgt
    omega

/-- What `bfp_decompress` gives for the output of `bfp_compress`. -/
theorem bfpDecompress_bfpCompress (ops : FloatOps F) {alloc : ℕ → Bool} {src : ℕ → F} {srcBytes : ℕ} {dtype : ℤ}
    {c : CompressedBuffer} (hmb : mb = 4 ∨ mb = 8)
    (h : bfpCompress ops alloc mb src srcBytes dtype = some c) (dst : ℕ → F) {dstBytes : ℕ}
    (hdst : srcBytes ≤ dstBytes) :
    ∃ out, bfpDecompress ops c dst dstBytes = some out ∧
      ∀ i < srcBytes / 4, out i = ops.unscaled (quantised ops mb src 16 (srcBytes / 4) i)
        ((((blockExponent ops src 16 (srcBytes / 4) (i / 16)).map Int16.ofInt).getD 0).toInt - (mb - 1)) := by
  obtain ⟨s, hrun, hpacked⟩ := @exists_packBlocks mb 16 (srcBytes / 4) (by decide)
    (fun b => (blockExponent ops src 16 (srcBytes / 4) b).map Int16.ofInt) (quantised ops mb src 16 (srcBytes / 4))
  rw [bfpCompress, hrun] at h
  split_ifs at h
  obtain rfl := Option.some.inj h
  refine hpacked.bfpDecompress hmb (by decide) (fun i _ => ?_) (fun i _ hnone => ?_) ops dtype dst hdst
  · rw [quantised]
    cases blockExponent ops src 16 (srcBytes / 4) (i / 16) with
    | none => exact inRange_zero mb
    | some e => exact inRange_clamp hmb _
  · rw [quantised, Option.map_eq_none_iff.mp hnone]

end Bfp

/-! ## Bitmap and values -/

section Sparse

variable {alloc : ℕ → Bool} {src : ℕ → UInt8} {n srcBytes i k : ℕ} {dtype : ℤ} {c : CompressedBuffer}

/-- The number of values in front of a float. -/
def rank (src : ℕ → UInt8) (i : ℕ) : ℕ := (List.range i).countP fun j => nonzero (float src j)

theorem rank_succ (src : ℕ → UInt8) (i : ℕ) :
    rank src (i + 1) = if nonzero (float src i) then rank src i + 1 else rank src i := by
  rw [rank, List.range_succ, List.countP_append, List.countP_singleton, rank]
  split_ifs <;> rfl

theorem rank_mono (src : ℕ → UInt8) : Monotone (rank src) := by
  refine monotone_nat_of_le_succ fun i => ?_
  rw [rank_succ]
  split_ifs
  · exact Nat.le_succ _
  · exact le_rfl

theorem rank_lt (hi : nonzero (float src i) = true) (hik : i < k) : rank src i < rank src k := by
  have hmono : rank src (i + 1) ≤ rank src k := rank_mono src hik
  rw [rank_succ, if_pos hi] at hmono
  exact hmono

theorem div_lt_bitmapBytes (hi : i < n) : i / 8 < (n + 7) / 8 := by omega

theorem exists_bitmapLoop (src : ℕ → UInt8) (n : ℕ) : ∃ m, bitmapLoop src n ((n + 7) / 8) = some (m, rank src n) ∧
    ∀ q, bit m q = true ↔ q < n ∧ nonzero (float src q) = true := by
  have hloop := exists_forLoop_eq_some (n := n) (f := fun i (s : (ℕ → UInt8) × ℕ) =>
      if nonzero (float src i) then (setBit ((n + 7) / 8) i s.1).map fun m => (m, s.2 + 1) else some s)
    (a := (0, 0))
    (fun k s => s.2 = rank src k ∧ ∀ q, bit s.1 q = true ↔ q < k ∧ nonzero (float src q) = true)
    ⟨rfl, fun q => by simp [bit_zero]⟩ ?_
  · obtain ⟨⟨m, count⟩, hrun, rfl, hbits⟩ := hloop
    exact ⟨m, hrun, hbits⟩
  rintro k hk ⟨m, count⟩ ⟨rfl, hbits⟩
  dsimp only at hbits ⊢
  by_cases hc : nonzero (float src k) = true
  · obtain ⟨m', hm', hset⟩ := exists_setBit (div_lt_bitmapBytes hk) m
    refine ⟨(m', rank src k + 1), by rw [if_pos hc, hm', Option.map_some], by rw [rank_succ, if_pos hc], fun q => ?_⟩
    rw [hset, hbits]
    rcases eq_or_ne q k with rfl | hne
    · simp [hc]
    · have hlt : q < k + 1 ↔ q < k := by omega
      simp [hne, hlt]
  · refine ⟨(m, rank src k), if_neg hc, by rw [rank_succ, if_neg hc], fun q => ?_⟩
    rw [hbits]
    rcases eq_or_ne q k with rfl | hne
    · simp [hc]
    · have hlt : q < k + 1 ↔ q < k := by omega
      rw [hlt]

/-- The values of an array are those of the floats that are not zero. -/
def Holds (src values : ℕ → UInt8) (k : ℕ) : Prop :=
  ∀ i < k, nonzero (float src i) = true → float values (rank src i) = float src i

theorem exists_valuesLoop {bitmap : ℕ → UInt8}
    (hbits : ∀ q, bit bitmap q = true ↔ q < n ∧ nonzero (float src q) = true) :
    ∃ v, valuesLoop src bitmap n ((n + 7) / 8) (rank src n) = some (v, rank src n) ∧ Holds src v n := by
  have hloop := exists_forLoop_eq_some (n := n) (f := fun i (s : (ℕ → UInt8) × ℕ) =>
      (testBit ((n + 7) / 8) i bitmap).bind fun c =>
        if c then (storeBytes (rank src n * 4) (s.2 * 4) (float src i) s.1).map fun v => (v, s.2 + 1) else some s)
    (a := (0, 0)) (fun k s => s.2 = rank src k ∧ Holds src s.1 k)
    ⟨rfl, fun i hi => absurd hi (Nat.not_lt_zero i)⟩ ?_
  · obtain ⟨⟨v, vi⟩, hrun, rfl, hholds⟩ := hloop
    exact ⟨v, hrun, hholds⟩
  rintro k hk ⟨v, vi⟩ ⟨rfl, hholds⟩
  dsimp only at hholds ⊢
  have hbit : bit bitmap k = nonzero (float src k) := by rw [Bool.eq_iff_iff, hbits, and_iff_right hk]
  rw [testBit_eq_some (div_lt_bitmapBytes hk), hbit, Option.bind_some]
  by_cases hc : nonzero (float src k) = true
  · have hroom : rank src k * 4 + 4 ≤ rank src n * 4 := by
      have := rank_lt hc hk
      omega
    obtain ⟨v', hv', hnow, hother⟩ := exists_storeBytes (length_item src k) hroom v
    refine ⟨(v', rank src k + 1), ?_, by rw [rank_succ, if_pos hc], fun i hi hic => ?_⟩
    · rw [if_pos hc, show float src k = item 4 src k from rfl, hv', Option.map_some]
    · rcases Nat.lt_succ_iff_lt_or_eq.mp hi with hlt | rfl
      · exact (hother _ (rank_lt hic hlt).ne).trans (hholds i hlt hic)
      · exact hnow
  · refine ⟨(v, rank src k), if_neg hc, by rw [rank_succ, if_neg hc], fun i hi hic => ?_⟩
    rcases Nat.lt_succ_iff_lt_or_eq.mp hi with hlt | rfl
    · exact hholds i hlt hic
    · exact absurd hic hc

theorem item_eq_iff {a b : ℕ → UInt8} {m p : ℕ} :
    item m a p = item m b p ↔ ∀ j < m, a (p * m + j) = b (p * m + j) := by
  simp [item]

/-- What the output of `sparse_compress` holds. -/
structure Encodes (c : CompressedBuffer) (src : ℕ → UInt8) (srcBytes : ℕ) : Prop where
  originalBytes : c.originalBytes = srcBytes
  originalElements : c.originalElements = srcBytes / 4
  metadata : c.metadata = .bitmapBytes ((srcBytes / 4 + 7) / 8)
  compressedBytes : c.compressedBytes = (srcBytes / 4 + 7) / 8 + rank src (srcBytes / 4) * 4
  bitmap : ∀ i < srcBytes / 4,
    testBit ((srcBytes / 4 + 7) / 8) i c.compressedData = some (nonzero (float src i))
  values : Holds src (fun p => c.compressedData ((srcBytes / 4 + 7) / 8 + p)) (srcBytes / 4)

theorem encodes_of_sparseCompress (h : sparseCompress alloc src srcBytes dtype = some c) :
    Encodes c src srcBytes := by
  obtain ⟨m, hm, hbits⟩ := exists_bitmapLoop src (srcBytes / 4)
  obtain ⟨v, hv, hholds⟩ := exists_valuesLoop hbits
  rw [sparseCompress] at h
  simp only [hm, hv, Option.bind_some] at h
  split_ifs at h
  obtain rfl := Option.some.inj h
  refine ⟨rfl, rfl, rfl, rfl, fun i hi => ?_, fun i hi hc => ?_⟩
  · have hbyte := div_lt_bitmapBytes hi
    rw [testBit_eq_some hbyte, bit]
    dsimp only
    rw [if_pos hbyte]
    exact congrArg some (Bool.eq_iff_iff.mpr (by rw [← bit, hbits, and_iff_right hi]))
  · refine Eq.trans ?_ (hholds i hi hc)
    refine item_eq_iff.mpr fun j _ => ?_
    dsimp only
    rw [if_neg (by omega), Nat.add_sub_cancel_left]

/-- What the loop of `sparse_decompress` has written. -/
structure Written (src dst : ℕ → UInt8) (n k : ℕ) (d : ℕ → UInt8) : Prop where
  done : ∀ i < k, float d i = if nonzero (float src i) then float src i else List.replicate 4 0
  todo : ∀ i, k ≤ i → i < n → float d i = List.replicate 4 0
  rest : ∀ i, n ≤ i → float d i = float dst i

theorem written_zero (src dst : ℕ → UInt8) (n : ℕ) :
    Written src dst n 0 fun p => if p < n * 4 then 0 else dst p where
  done i hi := absurd hi (Nat.not_lt_zero i)
  todo i _ hi := by
    rw [float, item, List.eq_replicate_iff, List.length_map, List.length_range]
    refine ⟨rfl, fun b hb => ?_⟩
    obtain ⟨j, hj, rfl⟩ := List.mem_map.mp hb
    rw [List.mem_range] at hj
    exact if_pos (by omega)
  rest i hi := item_eq_iff.mpr fun j _ => if_neg (by omega)

theorem Encodes.sparseDecompress (h : Encodes c src srcBytes) (dst : ℕ → UInt8) {dstBytes : ℕ}
    (hdst : srcBytes ≤ dstBytes) :
    ∃ out, sparseDecompress c dst dstBytes = some out ∧
      Written src dst (srcBytes / 4) (srcBytes / 4) out := by
  have hloop := exists_forLoop_eq_some (n := srcBytes / 4) (f := fun i (s : (ℕ → UInt8) × ℕ) =>
      (testBit ((srcBytes / 4 + 7) / 8) i c.compressedData).bind fun bit =>
        if bit then
          (loadFloat (c.compressedBytes - (srcBytes / 4 + 7) / 8)
            (fun p => c.compressedData ((srcBytes / 4 + 7) / 8 + p)) s.2).bind fun x =>
            (storeBytes dstBytes (i * 4) x s.1).map fun d => (d, s.2 + 1)
        else some s)
    (a := (fun p => if p < srcBytes / 4 * 4 then 0 else dst p, 0))
    (fun k s => s.2 = rank src k ∧ Written src dst (srcBytes / 4) k s.1)
    ⟨rfl, written_zero src dst _⟩ ?_
  · obtain ⟨⟨out, vi⟩, hrun, -, hout⟩ := hloop
    refine ⟨out, ?_, hout⟩
    rw [Compress.sparseDecompress, if_neg (by rw [h.originalBytes]; omega), h.originalElements]
    simp only [h.metadata]
    exact congrArg (Option.map Prod.fst) hrun
  rintro k hk ⟨d, vi⟩ ⟨rfl, hd⟩
  dsimp only at hd ⊢
  rw [h.bitmap k hk, Option.bind_some]
  by_cases hc : nonzero (float src k) = true
  · have hlt := rank_lt hc hk
    obtain ⟨d', hd', hnow, hother⟩ := exists_storeBytes (length_item src k)
      (show k * 4 + 4 ≤ dstBytes by omega) d
    refine ⟨(d', rank src k + 1), ?_, by rw [rank_succ, if_pos hc], ?_, ?_, ?_⟩
    · rw [if_pos hc, loadFloat, if_pos (by rw [h.compressedBytes]; omega), h.values k hk hc, Option.bind_some,
        show float src k = item 4 src k from rfl, hd', Option.map_some]
    · intro i hi
      rcases Nat.lt_succ_iff_lt_or_eq.mp hi with hlt | rfl
      · exact (hother i hlt.ne).trans (hd.done i hlt)
      · rw [if_pos hc]
        exact hnow
    · exact fun i hi hin => (hother i (by omega)).trans (hd.todo i (by omega) hin)
    · exact fun i hi => (hother i (by omega)).trans (hd.rest i hi)
  · refine ⟨(d, rank src k), if_neg hc, by rw [rank_succ, if_neg hc], ?_, ?_, hd.rest⟩
    · intro i hi
      rcases Nat.lt_succ_iff_lt_or_eq.mp hi with hlt | rfl
      · exact hd.done i hlt
      · rw [if_neg hc]
        exact hd.todo i le_rfl hk
    · exact fun i hi hin => hd.todo i (by omega) hin

/-- Decompression gives back the input, whatever the memory of the result holds before. -/
def RoundTrips (c : CompressedBuffer) (src : ℕ → UInt8) (srcBytes : ℕ) : Prop :=
  ∀ (dst : ℕ → UInt8) (dstBytes : ℕ), srcBytes ≤ dstBytes →
    ∃ out, sparseDecompress c dst dstBytes = some out ∧ ∀ p < srcBytes, out p = src p

/-- The pattern of `-0.0f`. -/
def negZero : ℕ := 0x80000000

theorem leVal_float_lt (src : ℕ → UInt8) (i : ℕ) : leVal (float src i) < 2 ^ 32 := by
  have h := leVal_lt (float src i)
  rwa [float, length_item] at h

/-- A float that is zero but not negative has no bit set. -/
theorem float_eq_zeros (hc : ¬nonzero (float src i) = true) (hneg : leVal (float src i) ≠ negZero) :
    float src i = List.replicate 4 0 := by
  have hlt := leVal_float_lt src i
  rw [nonzero, bne_iff_ne, not_not] at hc
  rw [negZero] at hneg
  refine eq_of_leVal_eq (by rw [float, length_item, List.length_replicate]) ?_
  rw [leVal_replicate_zero]
  omega

theorem Written.out_eq {dst out : ℕ → UInt8} (h : Written src dst n n out) (hneg : ∀ i < n, leVal (float src i) ≠ negZero)
    {p : ℕ} (hp : p < n * 4) : out p = src p := by
  have hfloat : float out (p / 4) = float src (p / 4) := by
    rw [h.done (p / 4) (by omega)]
    split_ifs with hc
    · rfl
    · exact (float_eq_zeros hc (hneg _ (by omega))).symm
  have hbyte := item_eq_iff.mp hfloat (p % 4) (Nat.mod_lt p (by decide))
  rwa [Nat.div_add_mod'] at hbyte

/-- **The sparse codec gives back its input just for whole floats without a negative zero.** -/
theorem sparse_roundTrips_iff (h : sparseCompress alloc src srcBytes dtype = some c) :
    RoundTrips c src srcBytes ↔ srcBytes % 4 = 0 ∧ ∀ i < srcBytes / 4, leVal (float src i) ≠ negZero := by
  have henc := encodes_of_sparseCompress h
  constructor
  · refine fun hround => ⟨?_, fun i hi hneg => ?_⟩
    · by_contra hmod
      -- the memory of the result holds other bytes than the input
      obtain ⟨out, hrun, hout⟩ := hround (fun p => src p + 1) srcBytes le_rfl
      obtain ⟨out', hrun', hwritten⟩ := henc.sparseDecompress (fun p => src p + 1) le_rfl
      obtain rfl := Option.some.inj (hrun.symm.trans hrun')
      have hbyte := item_eq_iff.mp (hwritten.rest (srcBytes / 4) le_rfl) 0 (by decide)
      rw [hout _ (by omega)] at hbyte
      exact absurd hbyte (by simp)
    · obtain ⟨out, hrun, hout⟩ := hround src srcBytes le_rfl
      obtain ⟨out', hrun', hwritten⟩ := henc.sparseDecompress src le_rfl
      obtain rfl := Option.some.inj (hrun.symm.trans hrun')
      have hfloat : float out i = float src i := item_eq_iff.mpr fun j hj => hout _ (by omega)
      have hzero : ¬nonzero (float src i) = true := by rw [nonzero, hneg]; decide
      rw [hwritten.done i hi, if_neg hzero] at hfloat
      rw [← hfloat, leVal_replicate_zero] at hneg
      exact absurd hneg (by decide)
  · rintro ⟨hmod, hneg⟩ dst dstBytes hdst
    obtain ⟨out, hrun, hwritten⟩ := henc.sparseDecompress dst hdst
    exact ⟨out, hrun, fun p hp => hwritten.out_eq hneg (by omega)⟩

def zeroOne (p : ℕ) : UInt8 := [0, 0, 0, 0, 0, 0, 0x80, 0x3F].getD p 0

theorem sparse_roundTrips_zeroOne : ∃ c, sparseCompress (fun _ => true) zeroOne 8 0 = some c ∧
    (RoundTrips c zeroOne 8 ↔ 8 % 4 = 0 ∧ ∀ i < 8 / 4, leVal (float zeroOne i) ≠ negZero) :=
  ⟨_, rfl, @sparse_roundTrips_iff (fun _ => true) zeroOne 8 0 _ rfl⟩

/-- A negative zero, as a float. -/
def minusZero (p : ℕ) : UInt8 := if p = 3 then 0x80 else 0

theorem not_roundTrips_minusZero : ∃ c, sparseCompress (fun _ => true) minusZero 4 0 = some c ∧
    ¬RoundTrips c minusZero 4 := by
  refine ⟨_, rfl, fun h => ?_⟩
  obtain ⟨out, hrun, hout⟩ := h (fun _ => 0) 4 le_rfl
  obtain rfl := Option.some.inj hrun
  exact absurd (hout 3 (by decide)) (by decide)

end Sparse

end SneppxAlg.Compress
