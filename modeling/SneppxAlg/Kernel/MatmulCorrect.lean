import SneppxAlg.Kernel.MatmulShapes

/-!
# What the matrix product computes

**The loops.** The batches store at places of their own unless an operand is a vector, when all of them store into the
first row or column. Otherwise each element is a sum of products, over a list of pairs of places: `pairsOfLoop`.

**Exactness.** The pairs are the right ones, for packed operands, if the offsets of the matrices are right, and so if
there is no more than one leading extent above 1.

Main result: `matmul_correct_iff`.
-/

namespace SneppxAlg.Matmul

open Lib.AddingLoops Lib.Strided
open FloatView
open TensorEngine (Outcome numel extents rowMajor isContiguous extents_cons PackedFrom packedFrom_one_iff
  dot_eq_zero_of_prod_eq_one dot_digits_zero)
open Finset (range)

variable {R : Type}

/-! ## Runs -/

section Runs

variable {a b : View R} {s : Sizes} {lead : List UInt64} {x y : ℕ → R} {c : List ℕ} {batch i j : ℕ}

/-- Prepared operands whose elements are `x` and `y`, one after another. -/
structure Ready (a b : View R) (s : Sizes) (lead : List UInt64) (x y : ℕ → R) : Prop where
  describes : s.Describes a.shape b.shape
  pos : 0 ∉ lead
  spreads_left : Spreads (leadOf a.shape) lead
  spreads_right : Spreads (leadOf b.shape) lead
  lead_fits : (extents lead).prod < 2 ^ 63
  result_fits : 4 * ((extents lead).prod * (s.aM.toNat * s.bN.toNat)) < 2 ^ 64
  read_left : ∀ q < (extents a.shape).prod, a.read q = some (x q)
  read_right : ∀ q < (extents b.shape).prod, b.read q = some (y q)

/-- Where the loops store an element. -/
def cellOf (s : Sizes) (batch i j : ℕ) : ℕ :=
  (batch * (if s.a1 then 0 else s.aM.toNat) * (if s.b1 then 0 else s.bN.toNat) + i * s.bN.toNat + j) % 2 ^ 64

theorem index_lt {p q m n i j : ℕ} (hp : p < q) (hi : i < m) (hj : j < n) : p * (m * n) + i * n + j < q * (m * n) := by
  calc p * (m * n) + i * n + j < p * (m * n) + (i + 1) * n := by
        rw [Nat.add_mul, Nat.one_mul]
        omega
    _ ≤ p * (m * n) + m * n := Nat.add_le_add_left (Nat.mul_le_mul_right n hi) _
    _ = (p + 1) * (m * n) := (Nat.succ_mul p (m * n)).symm
    _ ≤ q * (m * n) := Nat.mul_le_mul_right _ hp

theorem index_inj {m n p p' i i' j j' : ℕ} (hi : i < m) (hi' : i' < m) (hj : j < n) (hj' : j' < n)
    (h : p * (m * n) + i * n + j = p' * (m * n) + i' * n + j') : p = p' ∧ i = i' ∧ j = j' := by
  have hflat : ∀ q u v : ℕ, q * (m * n) + u * n + v = (q * m + u) * n + v := fun q u v => by ring
  rw [hflat, hflat] at h
  obtain ⟨hrow, hj_eq⟩ := digit_inj hj hj' h
  obtain ⟨hp_eq, hi_eq⟩ := digit_inj hi hi' hrow
  exact ⟨hp_eq, hi_eq, hj_eq⟩

/-- Each batch has its own part of the result. -/
theorem Ready.cellOf_eq (h : Ready a b s lead x y) (hapart : StoresApart s lead) (hbatch : batch < (extents lead).prod)
    (hi : i < s.aM.toNat) (hj : j < s.bN.toNat) :
    cellOf s batch i j = batch * (s.aM.toNat * s.bN.toNat) + i * s.bN.toNat + j := by
  have hlt := index_lt hbatch hi hj
  have hfits := h.result_fits
  by_cases hvec : s.a1 = true ∨ s.b1 = true
  · have hone : (extents lead).prod = 1 := by
      rcases hapart hvec with h0 | h0 | hone
      · rw [h0] at hi
        exact absurd hi (Nat.not_lt_zero i)
      · rw [h0] at hj
        exact absurd hj (Nat.not_lt_zero j)
      · exact hone
    obtain rfl : batch = 0 := by omega
    rw [cellOf, Nat.zero_mul, Nat.zero_mul, Nat.zero_mul] at *
    exact Nat.mod_eq_of_lt (by omega)
  · rw [not_or] at hvec
    rw [cellOf, if_neg hvec.1, if_neg hvec.2, Nat.mul_assoc]
    exact Nat.mod_eq_of_lt (by omega)

theorem Ready.cellOf_of_vector (h : Ready a b s lead x y) (hvec : s.a1 = true ∨ s.b1 = true) (hi : i < s.aM.toNat)
    (hj : j < s.bN.toNat) : cellOf s batch i j = i * s.bN.toNat + j := by
  have hlt := index_lt (prod_pos h.pos) hi hj
  have hfits := h.result_fits
  have hbase : batch * (if s.a1 then 0 else s.aM.toNat) * (if s.b1 then 0 else s.bN.toNat) = 0 := by
    rcases hvec with h1 | h1
    · rw [if_pos h1, Nat.mul_zero, Nat.zero_mul]
    · rw [if_pos h1, Nat.mul_zero]
  rw [Nat.zero_mul, Nat.zero_add] at hlt
  rw [cellOf, hbase, Nat.zero_add]
  exact Nat.mod_eq_of_lt (by omega)

theorem Ready.cellOf_lt (h : Ready a b s lead x y) (hbatch : batch < (extents lead).prod) (hi : i < s.aM.toNat)
    (hj : j < s.bN.toNat) : cellOf s batch i j < (extents lead).prod * (s.aM.toNat * s.bN.toNat) := by
  by_cases hvec : s.a1 = true ∨ s.b1 = true
  · have hlt := index_lt (prod_pos h.pos) hi hj
    rw [h.cellOf_of_vector hvec hi hj]
    omega
  · rw [h.cellOf_eq (fun h1 => absurd h1 hvec) hbatch hi hj]
    exact index_lt hbatch hi hj

variable [CommSemiring R]

/-- The sum that the loops compute. -/
def value (a b : View R) (s : Sizes) (x y : ℕ → R) (c : List ℕ) (i j : ℕ) : R :=
  ∑ l ∈ range s.aK.toNat, x (leadOffset (leadOf a.shape) c * (s.aM.toNat * s.aK.toNat) + i * s.aK.toNat + l) *
    y (leadOffset (leadOf b.shape) c * (s.aK.toNat * s.bN.toNat) + l * s.bN.toNat + j)

theorem Ready.product_eq (h : Ready a b s lead x y) (hc : Within c (extents lead)) (hi : i < s.aM.toNat)
    (hj : j < s.bN.toNat) :
    product a b s (leadOffset (leadOf a.shape) c * (s.aM.toNat * s.aK.toNat))
      (leadOffset (leadOf b.shape) c * (s.aK.toNat * s.bN.toNat)) i j = some (value a b s x y c i j) := by
  refine Adds.from_zero (Adds.forLoop fun l hl sum => ?_)
  have hleft := index_lt (h.spreads_left.leadOffset_lt hc) hi hl
  have hright := index_lt (h.spreads_right.leadOffset_lt hc) hl hj
  rw [← h.describes.prod_left] at hleft
  rw [← h.describes.prod_right] at hright
  rw [h.read_left _ hleft, h.read_right _ hright]
  rfl

theorem Ready.batchLoop_eq (h : Ready a b s lead x y) (hc : Within c (extents lead)) (cells batch : ℕ)
    (rd : ℕ → R) :
    batchLoop a b s cells (leadOffset (leadOf a.shape) c) (leadOffset (leadOf b.shape) c) batch rd =
      forLoop s.aM.toNat (fun i => forLoop s.bN.toNat fun j =>
        storeAt cells (cellOf s batch i j) (value a b s x y c i j)) rd := by
  have hleft := (h.spreads_left.leadOffset_lt hc).trans_le (h.spreads_left.prod_le h.pos)
  have hright := (h.spreads_right.leadOffset_lt hc).trans_le (h.spreads_right.prod_le h.pos)
  rw [batchLoop, if_pos ⟨hleft.trans h.lead_fits, hright.trans h.lead_fits⟩]
  refine forLoop_congr (fun i hi => ?_) rd
  refine funext fun rd => forLoop_congr (fun j hj => ?_) rd
  refine funext fun rd => ?_
  rw [h.product_eq hc hi hj]
  rfl

theorem Ready.stores (h : Ready a b s lead x y) :
    Stores (batchesLoop a b s lead ((extents lead).prod * (s.aM.toNat * s.bN.toNat))) fun p r =>
      ∃ batch < (extents lead).prod, ∃ i < s.aM.toNat, ∃ j < s.bN.toNat,
        p = cellOf s batch i j ∧ r = value a b s x y (unflatten (extents lead) batch) i j := by
  have hpos := prod_pos h.pos
  have hfits := h.lead_fits
  have hnumel : (numel lead).toNat = (extents lead).prod := TensorEngine.numel_toNat (by omega)
  have hne : numel lead ≠ 0 := by
    rw [ne_eq, ← UInt64.toNat_inj, hnumel]
    exact hpos.ne'
  rw [batchesLoop, if_neg hne, hnumel]
  refine Stores.forLoop fun batch hbatch => ?_
  rw [show (fun rd : ℕ → R => if 0 ∈ lead then none else batchLoop a b s _ _ _ batch rd) = _ from
    funext fun rd => (if_neg h.pos).trans (h.batchLoop_eq (within_unflatten hpos batch) _ batch rd)]
  exact Stores.forLoop fun i hi => Stores.forLoop fun j hj => stores_storeAt (h.cellOf_lt hbatch hi hj)

/-- Where the batches are apart, each element of the result is the sum for it. -/
theorem Ready.run (h : Ready a b s lead x y) (hapart : StoresApart s lead) (init : ℕ → R) :
    ∃ rd, batchesLoop a b s lead ((extents lead).prod * (s.aM.toNat * s.bN.toNat)) init = some rd ∧
      ∀ c, Within c (extents lead) → ∀ i < s.aM.toNat, ∀ j < s.bN.toNat,
        rd (dot c (packedStrides (extents lead)) * (s.aM.toNat * s.bN.toNat) + i * s.bN.toNat + j) =
          value a b s x y c i j := by
  obtain ⟨rd, hrun, hrd⟩ := h.stores init
  refine ⟨rd, hrun, fun c hc i hi j hj => ?_⟩
  have hbatch := dot_packed_lt hc
  rcases hrd (dot c (packedStrides (extents lead)) * (s.aM.toNat * s.bN.toNat) + i * s.bN.toNat + j) with hst | hnone
  · obtain ⟨batch', hbatch', i', hi', j', hj', hp, hr⟩ := hst
    rw [h.cellOf_eq hapart hbatch' hi' hj'] at hp
    obtain ⟨rfl, rfl, rfl⟩ := index_inj hi hi' hj hj' hp
    rw [hr, unflatten_dot hc]
  · exact absurd ⟨_, hbatch, i, hi, j, hj, (h.cellOf_eq hapart hbatch hi hj).symm, rfl⟩ (hnone.1 _)

/-- Otherwise the first element of the second batch is left as it was. -/
theorem Ready.run_of_not_apart (h : Ready a b s lead x y) (hapart : ¬StoresApart s lead) (init : ℕ → R) :
    ∃ rd, batchesLoop a b s lead ((extents lead).prod * (s.aM.toNat * s.bN.toNat)) init = some rd ∧
      rd (s.aM.toNat * s.bN.toNat) = init (s.aM.toNat * s.bN.toNat) := by
  obtain ⟨rd, hrun, hrd⟩ := h.stores init
  refine ⟨rd, hrun, (hrd _).elim (fun hst => ?_) And.right⟩
  obtain ⟨hvec, -⟩ := Classical.not_imp.mp hapart
  obtain ⟨batch, -, i, hi, j, hj, hp, -⟩ := hst
  have hlt := index_lt Nat.one_pos hi hj
  rw [h.cellOf_of_vector hvec hi hj] at hp
  omega

end Runs

/-! ## Sums of products -/

section Sums

variable [CommSemiring R]

def sumOfPairs (x y : ℕ → R) (l : List (ℕ × ℕ)) : R := (l.map fun p => x p.1 * y p.2).sum

theorem sumOfPairs_single [DecidableEq (ℕ × ℕ)] (l : List (ℕ × ℕ)) (p : ℕ × ℕ) :
    sumOfPairs (Pi.single p.1 1) (Pi.single p.2 (1 : R)) l = l.count p := by
  induction l with
  | nil => simp [sumOfPairs]
  | cons q l ih =>
    rw [sumOfPairs] at ih
    rw [sumOfPairs, List.map_cons, List.sum_cons, ih, List.count_cons, Pi.single_apply, Pi.single_apply]
    rw [ite_zero_mul_ite_zero, mul_one, add_comm]
    simp only [Prod.ext_iff, beq_iff_eq]
    split_ifs <;> simp

/-- The sums agree for all data if the pairs do, up to their order. -/
theorem sumOfPairs_eq_iff [CharZero R] {l l' : List (ℕ × ℕ)} :
    (∀ x y : ℕ → R, sumOfPairs x y l = sumOfPairs x y l') ↔ l.Perm l' := by
  constructor
  · intro h
    refine List.perm_iff_count.mpr fun p => ?_
    have hp := h (Pi.single p.1 1) (Pi.single p.2 1)
    rw [sumOfPairs_single, sumOfPairs_single] at hp
    exact Nat.cast_injective hp
  · intro h x y
    exact (h.map _).sum_eq

variable {a b a' b' : View R} {s : Sizes} {c : List ℕ} {i j : ℕ}

theorem value_eq_sumOfPairs (ha : a'.shape = a.shape) (hb : b'.shape = b.shape) (x y : ℕ → R) :
    value a' b' s (fun q => x (a.source q)) (fun q => y (b.source q)) c i j =
      sumOfPairs x y (pairsOfLoop a b s c i j) := by
  rw [value, ha, hb, sumOfPairs, pairsOfLoop, List.map_map]
  rfl

theorem sum_eq_sumOfPairs (x y : ℕ → R) :
    ∑ l ∈ range s.aK.toNat, x (a.place (leadCoords (leadOf a.shape) c ++ s.left i l)) *
        y (b.place (leadCoords (leadOf b.shape) c ++ s.right l j)) =
      sumOfPairs x y (pairs a b s c i j) := by
  rw [sumOfPairs, pairs, List.map_map]
  rfl

end Sums

/-! ## Packed operands -/

section Packed

variable {a b : View R} {s : Sizes} {lead : List UInt64}

theorem prod_eq_one_iff (l : List UInt64) : (extents l).prod = 1 ↔ l.countP (· ≠ 1) = 0 := by
  induction l with
  | nil => simp
  | cons s l ih =>
    rw [extents_cons, List.prod_cons, mul_eq_one, ih, List.countP_cons, Nat.add_eq_zero_iff, and_comm,
      ← UInt64.toNat_one, UInt64.toNat_inj]
    simp

/-- The products of the extents before are those of the extents after, for all coordinates, if no two
extents are above 1. -/
theorem packedFrom_iff {l : List UInt64} (hpos : 0 ∉ l) :
    PackedFrom (extents l) (packedStrides (extents l)) ↔ AtMostOne l := by
  induction l with
  | nil => simp [PackedFrom, AtMostOne, packedStrides, stridesFrom]
  | cons s l ih =>
    rw [List.mem_cons, not_or] at hpos
    rw [extents_cons, packedStrides_cons, AtMostOne, List.countP_cons]
    by_cases h1 : s = 1
    · subst h1
      rw [UInt64.toNat_one, packedFrom_one_iff, ih hpos.2, AtMostOne]
      simp
    · have hs : 1 < s.toNat := by
        have := toNat_pos hpos.1
        rw [← UInt64.toNat_inj, UInt64.toNat_one] at h1
        omega
      have hcount : l.countP (· ≠ 1) + (if decide (s ≠ 1) then 1 else 0) ≤ 1 ↔ (extents l).prod = 1 := by
        rw [prod_eq_one_iff, if_pos (by simpa using h1)]
        omega
      rw [hcount]
      constructor
      · intro h
        have hunit := h (1 :: digits (extents l) 0) (within_cons.mpr ⟨hs, within_digits (prod_pos hpos.2) 0⟩)
        rw [stridesFrom, dot_cons, dot_cons, dot_digits_zero, dot_digits_zero] at hunit
        omega
      · intro h i hi
        cases hi with
        | cons _ hi =>
          rw [stridesFrom, dot_cons, dot_cons, dot_eq_zero_of_prod_eq_one hi h, dot_eq_zero_of_prod_eq_one hi h, h]

/-- Two sequences of places with one difference between them. -/
theorem eq_of_perm_shift {u v k : ℕ} {g : ℕ → ℕ} (h0 : g 0 = 0) (hk : 0 < k)
    (h : ((List.range k).map fun l => u + g l).Perm ((List.range k).map fun l => v + g l)) : u = v := by
  have hle : ∀ {u v : ℕ}, ((List.range k).map fun l => u + g l).Perm ((List.range k).map fun l => v + g l) →
      v ≤ u := by
    intro u v h
    have hmem : u ∈ (List.range k).map fun l => u + g l :=
      List.mem_map.mpr ⟨0, List.mem_range.mpr hk, by rw [h0, Nat.add_zero]⟩
    obtain ⟨l, -, hl⟩ := List.mem_map.mp (h.mem_iff.mp hmem)
    omega
  exact Nat.le_antisymm (hle h.symm) (hle h)

/-- For packed operands the offsets are right if each of them has at most one extent above 1. -/
theorem multipliesRight_iff (D : s.Describes a.shape b.shape) (hpos : 0 ∉ lead)
    (hsa : Spreads (leadOf a.shape) lead) (hsb : Spreads (leadOf b.shape) lead) (hva : a.Valid) (hvb : b.Valid)
    (hapos : 0 ∉ leadOf a.shape) (hbpos : 0 ∉ leadOf b.shape)
    (hca : isContiguous a.desc = true) (hcb : isContiguous b.desc = true) :
    MultipliesRight a b s lead ↔ s.aM = 0 ∨ s.bN = 0 ∨ s.aK = 0 ∨
      AtMostOne (leadOf a.shape) ∧ AtMostOne (leadOf b.shape) := by
  by_cases hempty : s.aM = 0 ∨ s.bN = 0 ∨ s.aK = 0
  · refine iff_of_true (fun c _ i hi j hj => ?_) (by tauto)
    rcases hempty with h0 | h0 | h0
    · rw [h0] at hi
      exact absurd hi (Nat.not_lt_zero i)
    · rw [h0] at hj
      exact absurd hj (Nat.not_lt_zero j)
    · rw [pairsOfLoop, pairs, h0]
      exact .nil
  · rw [not_or, not_or] at hempty
    obtain ⟨hm, hn, hk⟩ := hempty
    have hm' : 0 < s.aM.toNat := toNat_pos (Ne.symm hm)
    have hn' : 0 < s.bN.toNat := toNat_pos (Ne.symm hn)
    have hk' : 0 < s.aK.toNat := toNat_pos (Ne.symm hk)
    have hpa : 0 < (extents a.shape).prod := by
      rw [D.prod_left]
      exact Nat.mul_pos (prod_pos hapos) (Nat.mul_pos hm' hk')
    have hpb : 0 < (extents b.shape).prod := by
      rw [D.prod_right]
      exact Nat.mul_pos (prod_pos hbpos) (Nat.mul_pos hk' hn')
    have hleft : ∀ c, Within c (extents lead) → ∀ i < s.aM.toNat, ∀ l,
        a.place (leadCoords (leadOf a.shape) c ++ s.left i l) =
          dot (leadCoords (leadOf a.shape) c) (packedStrides (extents (leadOf a.shape))) *
            (s.aM.toNat * s.aK.toNat) + i * s.aK.toNat + l := by
      intro c hc i hi l
      rw [View.place, hva.packed hpa hca, D.place_left (hsa.within hc) hi]
    have hright : ∀ c, Within c (extents lead) → ∀ l, ∀ j < s.bN.toNat,
        b.place (leadCoords (leadOf b.shape) c ++ s.right l j) =
          dot (leadCoords (leadOf b.shape) c) (packedStrides (extents (leadOf b.shape))) *
            (s.aK.toNat * s.bN.toNat) + l * s.bN.toNat + j := by
      intro c hc l j hj
      rw [View.place, hvb.packed hpb hcb, D.place_right (hsb.within hc) hj]
    have hsource : ∀ q, a.source q = q ∧ b.source q = q := fun q => ⟨if_pos hca, if_pos hcb⟩
    rw [or_iff_right hm, or_iff_right hn, or_iff_right hk, ← packedFrom_iff hapos, ← packedFrom_iff hbpos]
    constructor
    · intro h
      constructor
      · intro c' hc'
        obtain ⟨c, hc, rfl⟩ := hsa.exists_coords hpos hc'
        have hperm := (h c hc 0 hm' 0 hn').map Prod.fst
        rw [pairsOfLoop, pairs, List.map_map, List.map_map] at hperm
        simp only [Function.comp_def, hleft c hc 0 hm', hsource] at hperm
        have heq := eq_of_perm_shift (g := id) rfl hk' hperm
        rw [Nat.zero_mul, Nat.add_zero, Nat.add_zero] at heq
        exact Nat.eq_of_mul_eq_mul_right (Nat.mul_pos hm' hk') heq
      · intro c' hc'
        obtain ⟨c, hc, rfl⟩ := hsb.exists_coords hpos hc'
        have hperm := (h c hc 0 hm' 0 hn').map Prod.snd
        rw [pairsOfLoop, pairs, List.map_map, List.map_map] at hperm
        simp only [Function.comp_def, hright c hc _ 0 hn', hsource, Nat.add_zero] at hperm
        have heq := eq_of_perm_shift (g := fun l => l * s.bN.toNat) (Nat.zero_mul _) hk' hperm
        exact Nat.eq_of_mul_eq_mul_right (Nat.mul_pos hk' hn') heq
    · rintro ⟨ha, hb⟩ c hc i hi j hj
      refine List.Perm.of_eq (List.map_congr_left fun l _ => ?_)
      rw [hleft c hc i hi, hright c hc l j hj, (hsource _).1, (hsource _).2, ← ha _ (hsa.within hc),
        ← hb _ (hsb.within hc)]
      rfl

end Packed

/-! ## The result -/

section Result

variable [CommSemiring R] {alloc : ℕ → Bool} {a b : View R} {s : Sizes} {lead : List UInt64}

theorem batchesLoop_of_zero {cells : ℕ} (h : 0 ∈ lead) (init : ℕ → R) : batchesLoop a b s lead cells init = none := by
  have hpos : 0 < if numel lead = 0 then 1 else (numel lead).toNat := by
    split_ifs with h0
    · exact Nat.one_pos
    · exact toNat_pos (Ne.symm h0)
  exact forLoop_eq_none hpos (fun _ => if_pos h) init

section Accepted

variable (h : Accepted a b s lead) (hroom : Room alloc a b s lead) (ha : a.Valid) (hb : b.Valid)

include h hroom ha hb

/-- The loops run on prepared operands, and store into a tensor of the right shape. -/
theorem Accepted.matmulOnto_eq (x y : ℕ → R) :
    ∃ a' b', a'.shape = a.shape ∧ b'.shape = b.shape ∧
      (∀ q < (extents a.shape).prod, a'.read q = some (x (a.source q))) ∧
      (∀ q < (extents b.shape).prod, b'.read q = some (y (b.source q))) ∧
      ∀ init, matmulOnto init alloc (a.withData x) (b.withData y) =
        (Outcome.ofOption (batchesLoop a' b' s lead ((extents lead).prod * (s.aM.toNat * s.bN.toNat)) init)).bind
          fun rd => .ok ⟨lead ++ s.outDims, (extents lead).prod * (s.aM.toNat * s.bN.toNat), rd⟩ := by
  obtain ⟨a', hpa, hsa, hra⟩ := ha.prepContiguous hroom.left x
  obtain ⟨b', hpb, hsb, hrb⟩ := hb.prepContiguous hroom.right y
  have D := describes_of_sizes h.sizes h.dims_a.1 h.dims_b.1
  have hfits := hroom.result_fits
  have hnumel : (numel (lead ++ s.outDims)).toNat = (extents lead).prod * (s.aM.toNat * s.bN.toNat) := by
    rw [← D.prod_out] at hfits ⊢
    exact TensorEngine.numel_toNat (by omega)
  have hbytes : (numel (lead ++ s.outDims) * 4).toNat = 4 * ((extents lead).prod * (s.aM.toNat * s.bN.toNat)) := by
    rw [UInt64.toNat_mul, hnumel, show (4 : UInt64).toNat = 4 from rfl, Nat.mod_eq_of_lt (by omega), Nat.mul_comm]
  refine ⟨a', b', hsa, hsb, hra, hrb, fun init => ?_⟩
  have hdims : ¬((a.withData x).shape.length < 1 ∨ 8 < (a.withData x).shape.length ∨
      (b.withData y).shape.length < 1 ∨ 8 < (b.withData y).shape.length) := by
    have := h.dims_a
    have := h.dims_b
    simp only [View.withData]
    omega
  have hzeros : (tensorZeros alloc (lead ++ s.outDims) : Outcome (FloatTensor R)) =
      .ok ⟨lead ++ s.outDims, (extents lead).prod * (s.aM.toNat * s.bN.toNat), fun _ => 0⟩ := by
    rw [tensorZeros, hbytes, if_pos hroom.result, Nat.mul_div_cancel_left _ (by decide)]
  rw [matmulOnto, if_neg hdims, hpa, hpb]
  simp only [Outcome.ofOption, Outcome.bind, hsa, hsb, h.sizes, h.lead, hzeros]

/-- A leading extent of 0 is lost, or divided by. -/
theorem Accepted.not_correct_of_zero (h0 : 0 ∈ leadOf a.shape ∨ 0 ∈ leadOf b.shape) : ¬Correct alloc a b s := by
  intro hcorrect
  obtain ⟨r, hr, hproduct⟩ := hcorrect (fun _ => 0) (fun _ => 0) fun _ => 0
  obtain ⟨a', b', -, -, -, -, heq⟩ := h.matmulOnto_eq hroom ha hb (fun _ => 0) fun _ => 0
  rw [heq] at hr
  cases hrun : batchesLoop a' b' s lead ((extents lead).prod * (s.aM.toNat * s.bN.toNat)) fun _ => 0 with
  | none =>
    rw [hrun] at hr
    cases hr
  | some rd =>
    rw [hrun] at hr
    obtain rfl := Outcome.ok.inj hr
    have hlead : lead = broadcastLead (leadOf a.shape) (leadOf b.shape) := List.append_cancel_right hproduct.shape
    have hmem : 0 ∈ lead := hlead ▸ zero_mem_broadcastLead h.lead h0
    rw [batchesLoop_of_zero hmem] at hrun
    cases hrun

section Positive

variable (hapos : 0 ∉ leadOf a.shape) (hbpos : 0 ∉ leadOf b.shape)

include hapos hbpos

theorem Accepted.ready (x y : ℕ → R) :
    ∃ a' b', a'.shape = a.shape ∧ b'.shape = b.shape ∧
      Ready a' b' s lead (fun q => x (a.source q)) (fun q => y (b.source q)) ∧
      ∀ init, matmulOnto init alloc (a.withData x) (b.withData y) =
        (Outcome.ofOption (batchesLoop a' b' s lead ((extents lead).prod * (s.aM.toNat * s.bN.toNat)) init)).bind
          fun rd => .ok ⟨lead ++ s.outDims, (extents lead).prod * (s.aM.toNat * s.bN.toNat), rd⟩ := by
  obtain ⟨a', b', hsa, hsb, hra, hrb, heq⟩ := h.matmulOnto_eq hroom ha hb x y
  obtain ⟨-, hpos, hspreads_a, hspreads_b⟩ := outLead_of_ne_zero h.lead hapos hbpos
  refine ⟨a', b', hsa, hsb, ?_, heq⟩
  exact
    { describes := by
        rw [hsa, hsb]
        exact describes_of_sizes h.sizes h.dims_a.1 h.dims_b.1
      pos := hpos
      spreads_left := by rwa [hsa]
      spreads_right := by rwa [hsb]
      lead_fits := hroom.lead_fits
      result_fits := hroom.result_fits
      read_left := by rwa [hsa]
      read_right := by rwa [hsb] }

theorem Accepted.correct (hapart : StoresApart s lead) (hright : MultipliesRight a b s lead) :
    Correct alloc a b s := by
  intro init x y
  obtain ⟨a', b', hsa, hsb, hready, heq⟩ := h.ready hroom ha hb hapos hbpos x y
  obtain ⟨hlead, -⟩ := outLead_of_ne_zero h.lead hapos hbpos
  have D := describes_of_sizes h.sizes h.dims_a.1 h.dims_b.1
  obtain ⟨rd, hrun, hrd⟩ := hready.run hapart init
  refine ⟨⟨lead ++ s.outDims, _, rd⟩, by rw [heq, hrun]; rfl, by rw [hlead]; rfl, fun c hc i hi j hj => ?_⟩
  change Within c (extents (broadcastLead (leadOf a.shape) (leadOf b.shape))) at hc
  rw [← hlead] at hc
  change rd (dot (c ++ s.out i j) (packedStrides (extents (lead ++ s.outDims)))) = _
  rw [D.place_out hc hi hj, hrd c hc i hi j hj, value_eq_sumOfPairs hsa hsb]
  refine Eq.trans ?_ (sum_eq_sumOfPairs x y).symm
  exact ((hright c hc i hi j hj).map _).sum_eq

/-- If the result is right, these are its elements. -/
theorem Accepted.elems_of_correct (hcorrect : Correct alloc a b s) (init x y : ℕ → R) :
    ∃ a' b' rd, a'.shape = a.shape ∧ b'.shape = b.shape ∧
      Ready a' b' s lead (fun q => x (a.source q)) (fun q => y (b.source q)) ∧
      batchesLoop a' b' s lead ((extents lead).prod * (s.aM.toNat * s.bN.toNat)) init = some rd ∧
      ∀ c, Within c (extents lead) → ∀ i < s.aM.toNat, ∀ j < s.bN.toNat,
        rd (dot c (packedStrides (extents lead)) * (s.aM.toNat * s.bN.toNat) + i * s.bN.toNat + j) =
          sumOfPairs x y (pairs a b s c i j) := by
  obtain ⟨hlead, -⟩ := outLead_of_ne_zero h.lead hapos hbpos
  have D := describes_of_sizes h.sizes h.dims_a.1 h.dims_b.1
  obtain ⟨r, hr, hproduct⟩ := hcorrect init x y
  obtain ⟨a', b', hsa, hsb, hready, heq⟩ := h.ready hroom ha hb hapos hbpos x y
  obtain ⟨rd, hrun, -⟩ := hready.stores init
  rw [heq, hrun] at hr
  obtain rfl := Outcome.ok.inj hr
  refine ⟨a', b', rd, hsa, hsb, hready, hrun, fun c hc i hi j hj => ?_⟩
  rw [← D.place_out hc hi hj, ← sum_eq_sumOfPairs]
  exact hproduct.elems c (hlead ▸ hc) i hi j hj

theorem Accepted.storesApart [CharZero R] (hcorrect : Correct alloc a b s) : StoresApart s lead := by
  by_contra hapart
  obtain ⟨-, hpos, -⟩ := outLead_of_ne_zero h.lead hapos hbpos
  -- zeros, in a tensor of ones
  obtain ⟨a', b', rd, -, -, hready, hrun, hrd⟩ :=
    h.elems_of_correct hroom ha hb hapos hbpos hcorrect (fun _ => 1) (fun _ => 0) fun _ => 0
  obtain ⟨rd', hrun', hkept⟩ := hready.run_of_not_apart hapart fun _ => 1
  obtain rfl := Option.some.inj (hrun'.symm.trans hrun)
  obtain ⟨-, hbatches⟩ := Classical.not_imp.mp hapart
  rw [not_or, not_or] at hbatches
  obtain ⟨hm, hn, hone⟩ := hbatches
  have hprod := prod_pos hpos
  have hsecond := hrd _ (within_unflatten hprod 1) 0 (toNat_pos (Ne.symm hm)) 0 (toNat_pos (Ne.symm hn))
  rw [dot_unflatten (by omega), Nat.one_mul, Nat.zero_mul, Nat.add_zero, hkept] at hsecond
  simp [sumOfPairs] at hsecond

theorem Accepted.multipliesRight [CharZero R] (hapart : StoresApart s lead) (hcorrect : Correct alloc a b s) :
    MultipliesRight a b s lead := by
  intro c hc i hi j hj
  refine sumOfPairs_eq_iff.mp fun x y : ℕ → R => ?_
  obtain ⟨a', b', rd, hsa, hsb, hready, hrun, hrd⟩ :=
    h.elems_of_correct hroom ha hb hapos hbpos hcorrect (fun _ => 0) x y
  obtain ⟨rd', hrun', hvalue⟩ := hready.run hapart fun _ => 0
  obtain rfl := Option.some.inj (hrun'.symm.trans hrun)
  rw [← hrd c hc i hi j hj, hvalue c hc i hi j hj, value_eq_sumOfPairs hsa hsb]

end Positive

theorem Accepted.correct_iff_placed [CharZero R] :
    Correct alloc a b s ↔
      0 ∉ leadOf a.shape ∧ 0 ∉ leadOf b.shape ∧ StoresApart s lead ∧ MultipliesRight a b s lead := by
  constructor
  · intro hcorrect
    have hzero : ¬(0 ∈ leadOf a.shape ∨ 0 ∈ leadOf b.shape) := fun h0 =>
      h.not_correct_of_zero hroom ha hb h0 hcorrect
    obtain ⟨hapos, hbpos⟩ := not_or.mp hzero
    have hapart := h.storesApart hroom ha hb hapos hbpos hcorrect
    exact ⟨hapos, hbpos, hapart, h.multipliesRight hroom ha hb hapos hbpos hapart hcorrect⟩
  · rintro ⟨hapos, hbpos, hapart, hright⟩
    exact h.correct hroom ha hb hapos hbpos hapart hright

theorem Accepted.correct_iff_of_packed [CharZero R] (hca : isContiguous a.desc = true)
    (hcb : isContiguous b.desc = true) :
    Correct alloc a b s ↔
      0 ∉ leadOf a.shape ∧ 0 ∉ leadOf b.shape ∧ StoresApart s lead ∧
        (s.aM = 0 ∨ s.bN = 0 ∨ s.aK = 0 ∨ AtMostOne (leadOf a.shape) ∧ AtMostOne (leadOf b.shape)) := by
  rw [h.correct_iff_placed hroom ha hb]
  refine and_congr_right fun hapos => and_congr_right fun hbpos => and_congr_right fun _ => ?_
  obtain ⟨-, hpos, hspreads_a, hspreads_b⟩ := outLead_of_ne_zero h.lead hapos hbpos
  exact multipliesRight_iff (describes_of_sizes h.sizes h.dims_a.1 h.dims_b.1) hpos hspreads_a hspreads_b ha hb
    hapos hbpos hca hcb

end Accepted

/-- The product of two operands is right, for all data, if and only if they have no leading extent of 0, a vector meets
one matrix only, and the loops multiply the right elements. For packed operands with elements, these are the right
ones if and only if neither has two leading extents above 1. -/
theorem matmul_correct_iff [CharZero R] (h : Accepted a b s lead) (hroom : Room alloc a b s lead) (ha : a.Valid)
    (hb : b.Valid) :
    (Correct alloc a b s ↔
      0 ∉ leadOf a.shape ∧ 0 ∉ leadOf b.shape ∧ StoresApart s lead ∧ MultipliesRight a b s lead) ∧
    (isContiguous a.desc = true → isContiguous b.desc = true →
      (Correct alloc a b s ↔
        0 ∉ leadOf a.shape ∧ 0 ∉ leadOf b.shape ∧ StoresApart s lead ∧
          (s.aM = 0 ∨ s.bN = 0 ∨ s.aK = 0 ∨ AtMostOne (leadOf a.shape) ∧ AtMostOne (leadOf b.shape)))) :=
  ⟨h.correct_iff_placed hroom ha hb, h.correct_iff_of_packed hroom ha hb⟩

end Result

/-! ## Some operands -/

/-- There is always memory. -/
theorem room_of_packed {aShape bShape lead : List UInt64} {s : Sizes} {x y : ℕ → R}
    (h : 4 * ((extents lead).prod * (s.aM.toNat * s.bN.toNat)) < 2 ^ 64) (hlead : (extents lead).prod < 2 ^ 63) :
    Room (fun _ => true) (View.packed aShape x) (View.packed bShape y) s lead :=
  ⟨hlead, h, rfl, rfl, rfl⟩

/-- A matrix and two matrices. -/
theorem matmul_correct_iff_small :
    Correct (fun _ => true) (View.packed [1, 2] fun q => (q : ℤ)) (View.packed [2, 2, 1] fun q => (q : ℤ))
      ⟨false, false, 1, 2, 1⟩ :=
  have h : Accepted (View.packed [1, 2] fun q => (q : ℤ)) (View.packed [2, 2, 1] fun q => (q : ℤ))
      ⟨false, false, 1, 2, 1⟩ [2] := ⟨by decide, by decide, by decide, by decide⟩
  ((matmul_correct_iff h (room_of_packed (by decide) (by decide)) (View.packed_valid (by decide) _)
    (View.packed_valid (by decide) _)).2 (View.packed_isContiguous _ _) (View.packed_isContiguous _ _)).mpr
      ⟨by decide, by decide, by decide, by decide⟩

/-- Two by two matrices with one element each; a vector and two matrices; no matrix and one. -/
theorem not_correct_operands :
    ¬Correct (fun _ => true) (View.packed [2, 2, 1, 1] fun q => (q : ℤ)) (View.packed [1, 1] fun q => (q : ℤ))
        ⟨false, false, 1, 1, 1⟩ ∧
      ¬Correct (fun _ => true) (View.packed [1] fun q => (q : ℤ)) (View.packed [2, 1, 1] fun q => (q : ℤ))
        ⟨true, false, 1, 1, 1⟩ ∧
      ¬Correct (fun _ => true) (View.packed [0, 1, 1] fun q => (q : ℤ)) (View.packed [1, 1, 1] fun q => (q : ℤ))
        ⟨false, false, 1, 1, 1⟩ := by
  refine ⟨?_, ?_, ?_⟩
  · have h : Accepted (View.packed [2, 2, 1, 1] fun q => (q : ℤ)) (View.packed [1, 1] fun q => (q : ℤ))
        ⟨false, false, 1, 1, 1⟩ [2, 2] := ⟨by decide, by decide, by decide, by decide⟩
    rw [h.correct_iff_of_packed (room_of_packed (by decide) (by decide)) (View.packed_valid (by decide) _)
      (View.packed_valid (by decide) _) (View.packed_isContiguous _ _) (View.packed_isContiguous _ _)]
    exact fun h => absurd h.2.2.2 (by decide)
  · have h : Accepted (View.packed [1] fun q => (q : ℤ)) (View.packed [2, 1, 1] fun q => (q : ℤ))
        ⟨true, false, 1, 1, 1⟩ [2] := ⟨by decide, by decide, by decide, by decide⟩
    rw [h.correct_iff_of_packed (room_of_packed (by decide) (by decide)) (View.packed_valid (by decide) _)
      (View.packed_valid (by decide) _) (View.packed_isContiguous _ _) (View.packed_isContiguous _ _)]
    exact fun h => absurd h.2.2.1 (by decide)
  · have h : Accepted (View.packed [0, 1, 1] fun q => (q : ℤ)) (View.packed [1, 1, 1] fun q => (q : ℤ))
        ⟨false, false, 1, 1, 1⟩ [1] := ⟨by decide, by decide, by decide, by decide⟩
    rw [h.correct_iff_of_packed (room_of_packed (by decide) (by decide)) (View.packed_valid (by decide) _)
      (View.packed_valid (by decide) _) (View.packed_isContiguous _ _) (View.packed_isContiguous _ _)]
    exact fun h => absurd h.1 (by decide)

end SneppxAlg.Matmul
