import SneppxAlg.Kernel.FloatView
import SneppxAlg.Lib.RowOperations
import SneppxAlg.Lib.StoringLoops

/-!
# The inverse and the determinant of a matrix

`SNEPPX_tensor_inverse` and `SNEPPX_tensor_det` of `tensor.c`, over the rationals. Both eliminate one column after
another, with the largest entry that is left in the column as its pivot, and give up when that is below a threshold.

The arrays `a` and `m` that they work on are row-major and have their functions for themselves; here they are functions
of the row and the column. The elements of the operand are read one after another, whatever its strides are.

If no pivot is below the threshold, the results are the inverse and the determinant of the matrix that is read
(`inverseLoop_eq_some`, `detLoop_eq_some`).
-/

namespace SneppxAlg.MatrixInverse

open Lib.AddingLoops Lib.RowOperations
open FloatView
open TensorEngine (Outcome numel)

/-! ## The functions -/

/-- `1e-10f`. -/
def threshold : ℚ := 1 / 10 ^ 10

/-- The row of the largest entry of column `i`, from row `i` on. -/
def selectPivot (n i : ℕ) (a : Rows ℚ) : ℕ :=
  forRange (i + 1) n (fun r pivot => if |a r i| > |a pivot i| then r else pivot) i

def exchangeRows (width i pivot : ℕ) (a : Rows ℚ) : Rows ℚ :=
  forRange 0 width (fun j a => store (store a i j (a pivot j)) pivot j (a i j)) a

/-- The pivot's row is brought to row `i`. -/
def bringPivot (n width i : ℕ) (a : Rows ℚ) : Rows ℚ :=
  if selectPivot n i a ≠ i then exchangeRows width i (selectPivot n i a) a else a

/-- The operand, and the unit matrix on the right of it. -/
def loadAugmented (src : View ℚ) (n : ℕ) (a : Rows ℚ) : Option (Rows ℚ) :=
  forLoop n (fun i a => do
    let a ← forLoop n (fun j a => do
      let x ← src.read (i * n + j)
      some (store a i j x)) a
    some (forRange 0 n (fun j a => store a i (n + j) (if i = j then 1 else 0)) a)) a

/-- The body of the main loop of `SNEPPX_tensor_inverse`. -/
def inverseStep (n i : ℕ) (a : Rows ℚ) : Option (Rows ℚ) :=
  let a := bringPivot n (2 * n) i a
  let piv := a i i
  if |piv| < threshold then none
  else
    let a := forRange 0 (2 * n) (fun j a => store a i j (a i j / piv)) a
    some (forRange 0 n (fun k a =>
      if k = i then a
      else
        let factor := a k i
        forRange 0 (2 * n) (fun j a => store a k j (a k j - factor * a i j)) a) a)

/-- `SNEPPX_tensor_inverse`; the memory of the tensor is `init`. -/
def tensorInverse (init : ℕ → ℚ) (alloc : ℕ → Bool) (src : View ℚ) : Outcome (FloatTensor ℚ) :=
  match src.shape with
  | [d0, d1] =>
    if d0 ≠ d1 then .null
    else
      let n := d0.toNat
      let bytes := (numel [d0, d1] * 4).toNat
      if alloc bytes && alloc (d0 * d0 * 2 * 4).toNat then
        (Outcome.ofOption (loadAugmented src n fun _ _ => 0)).bind fun a =>
          match forLoop n (inverseStep n) a with
          | none => .null
          | some a =>
            Outcome.ofOption do
              let rd ← forLoop n (fun i => forLoop n fun j => storeAt (bytes / 4) (i * n + j) (a i (n + j))) init
              some ⟨[d0, d1], bytes / 4, rd⟩
      else .null
  | _ => .null

/-- `m[i] = s[i]` for the elements one after another. -/
def loadMatrix (src : View ℚ) (n : ℕ) (m : Rows ℚ) : Option (Rows ℚ) :=
  forLoop (n * n) (fun i m => do
    let x ← src.read i
    some (store m (i / n) (i % n) x)) m

/-- The body of the main loop of `SNEPPX_tensor_det`; the state is `m` and `det`. -/
def detStep (n i : ℕ) (s : Rows ℚ × ℚ) : Option (Rows ℚ × ℚ) :=
  let det := if selectPivot n i s.1 ≠ i then -s.2 else s.2
  let m := bringPivot n n i s.1
  if |m i i| < threshold then none
  else
    some
      (forRange (i + 1) n (fun j m =>
        let f := m j i / m i i
        forRange (i + 1) n (fun k m => store m j k (m j k - f * m i k)) m) m,
        det * m i i)

/-- `SNEPPX_tensor_det`, which is 0 on every error. -/
def tensorDet (alloc : ℕ → Bool) (src : View ℚ) : Outcome ℚ :=
  match src.shape with
  | [d0, d1] =>
    if d0 ≠ d1 then .ok 0
    else
      let n := d0.toNat
      if alloc (d0 * d0 * 4).toNat then
        (Outcome.ofOption (loadMatrix src n fun _ _ => 0)).bind fun m =>
          match forLoop n (detStep n) (m, 1) with
          | none => .ok 0
          | some s => .ok s.2
      else .ok 0
  | _ => .ok 0

/-! ## Pivots -/

section Pivots

variable {n i width : ℕ} {a : Rows ℚ}

theorem selectPivot_mem (hi : i < n) (a : Rows ℚ) : i ≤ selectPivot n i a ∧ selectPivot n i a < n := by
  have hinv := forRange_invariant (f := fun r pivot => if |a r i| > |a pivot i| then r else pivot)
    (fun r pivot => i ≤ pivot ∧ pivot < r) (Nat.succ_le_of_lt hi) (s := i) ⟨le_rfl, Nat.lt_succ_self i⟩ ?_
  · exact hinv
  · rintro r pivot hr - ⟨hlo, hhi⟩
    split_ifs <;> omega

/-- Nothing below in the column: the row stays. -/
theorem selectPivot_of_zero (hi : i < n) (hbelow : ∀ r, i < r → r < n → a r i = 0) : selectPivot n i a = i := by
  refine forRange_invariant (fun _ pivot => pivot = i) (Nat.succ_le_of_lt hi) rfl ?_
  rintro r _ hr hrn rfl
  rw [hbelow r hr hrn, abs_zero]
  exact if_neg (not_lt.mpr (abs_nonneg _))

theorem bringPivot_apply (a : Rows ℚ) (r c : ℕ) :
    bringPivot n width i a r c = if c < width then a (Equiv.swap i (selectPivot n i a) r) c else a r c := by
  rw [bringPivot]
  split_ifs with hne hc hc
  · exact (forRange_exchange width i _ a r c).trans (if_pos hc)
  · exact (forRange_exchange width i _ a r c).trans (if_neg hc)
  · rw [not_not] at hne
    rw [hne, Equiv.swap_self, Equiv.refl_apply]
  · rfl

/-- Only rows from `i` on take part. -/
theorem swap_pivot (hi : i < n) (a : Rows ℚ) {r : ℕ} :
    (r < i → Equiv.swap i (selectPivot n i a) r = r) ∧ (r < n → Equiv.swap i (selectPivot n i a) r < n) ∧
      (i ≤ r → i ≤ Equiv.swap i (selectPivot n i a) r) := by
  have hpivot := selectPivot_mem hi a
  rw [Equiv.swap_apply_def]
  split_ifs <;> omega

end Pivots

/-! ## Elimination for the inverse -/

section Inverse

variable {n i : ℕ} {a : Rows ℚ} {A : Matrix (Fin n) (Fin n) ℚ}

theorem inverseStep_eq_some (h : threshold ≤ |bringPivot n (2 * n) i a i i|) :
    ∃ b, inverseStep n i a = some b ∧
      let s := bringPivot n (2 * n) i a
      (∀ c < 2 * n, b i c = s i c / s i i) ∧
      ∀ r < n, r ≠ i → ∀ c < 2 * n, b r c = s r c - s r i * (s i c / s i i) := by
  refine ⟨_, if_neg (not_lt.mpr h), ?_⟩
  intro s
  have hdivided := forRange_combine (Nat.zero_le (2 * n)) (Nat.succ_ne_self i) (fun x _ => x / s i i) s
  have hrows := forRange_rows (i := i) (Nat.zero_le n) (f := fun k a =>
      if k = i then a else forRange 0 (2 * n) (fun j b => store b k j (b k j - a k i * b i j)) a)
    (g := fun v w c => if 0 ≤ c ∧ c < 2 * n then w c - w i * v c else w c)
    (fun k a _ _ hki => by
      rw [if_neg hki]
      exact forRange_combine (Nat.zero_le (2 * n)) (Ne.symm hki) (fun x y => x - a k i * y) a)
    (fun _ a => if_pos rfl) (forRange 0 (2 * n) (fun j a => store a i j (a i j / s i i)) s)
  refine ⟨fun c hc => ?_, fun r hr hri c hc => ?_⟩
  · refine (congrFun (hrows i) c).trans ?_
    rw [if_neg fun h => h.2.2 rfl, hdivided, Function.update_self, if_pos ⟨Nat.zero_le c, hc⟩]
  · refine (congrFun (hrows r) c).trans ?_
    rw [if_pos ⟨Nat.zero_le r, hr, hri⟩, hdivided, if_pos ⟨Nat.zero_le c, hc⟩, Function.update_self,
      Function.update_of_ne hri, if_pos ⟨Nat.zero_le c, hc⟩]

/-- The rows still solve the equations, and the columns before `i` are those of the unit matrix. -/
structure Inverting (A : Matrix (Fin n) (Fin n) ℚ) (i : ℕ) (a : Rows ℚ) : Prop where
  solves : ∀ r < n, Solves A (a r)
  unit : ∀ r < n, ∀ c < i, a r c = if r = c then 1 else 0

theorem threshold_pos : 0 < threshold := by
  rw [threshold]
  positivity

theorem ne_zero_of_threshold_le {x : ℚ} (h : threshold ≤ |x|) : x ≠ 0 :=
  abs_pos.mp (threshold_pos.trans_le h)

theorem Inverting.step (hi : i < n) (h : Inverting A i a) (hpiv : threshold ≤ |bringPivot n (2 * n) i a i i|) :
    ∃ b, inverseStep n i a = some b ∧ Inverting A (i + 1) b := by
  obtain ⟨b, hb, hpivot, hrow⟩ := inverseStep_eq_some hpiv
  have hne := ne_zero_of_threshold_le hpiv
  set s := bringPivot n (2 * n) i a with hs
  have hswap : ∀ r < n, ∀ c < 2 * n, s r c = a (Equiv.swap i (selectPivot n i a) r) c := fun r _ c hc => by
    rw [hs, bringPivot_apply, if_pos hc]
  have hsolves : ∀ r < n, Solves A (s r) := fun r hr =>
    (h.solves _ ((swap_pivot hi a).2.1 hr)).of_eq fun c hc => hswap r hr c hc
  have hunit : ∀ r < n, ∀ c < i, s r c = if r = c then 1 else 0 := by
    intro r hr c hc
    rw [hswap r hr c (by omega), h.unit _ ((swap_pivot hi a).2.1 hr) c hc]
    rcases Nat.lt_or_ge r i with hri | hri
    · rw [(swap_pivot hi a).1 hri]
    · have hge : i ≤ Equiv.swap i (selectPivot n i a) r := (swap_pivot hi a).2.2 hri
      rw [if_neg (by omega), if_neg (by omega)]
  refine ⟨b, hb, fun r hr => ?_, fun r hr c hc => ?_⟩
  · by_cases hri : r = i
    · rw [hri]
      exact ((hsolves i hi).div (s i i)).of_eq hpivot
    · exact ((hsolves r hr).sub_mul ((hsolves i hi).div (s i i)) (s r i)).of_eq (hrow r hr hri)
  · by_cases hci : c = i
    · by_cases hri : r = i
      · rw [hri, hci, hpivot i (by omega), div_self hne, if_pos rfl]
      · rw [hci, hrow r hr hri i (by omega), div_self hne, mul_one, sub_self, if_neg hri]
    · have hlt : c < i := by omega
      have hzero : s i c = 0 := by rw [hunit i hi c hlt, if_neg (Ne.symm hci)]
      by_cases hri : r = i
      · rw [hri, hpivot c (by omega), hzero, zero_div, if_neg (Ne.symm hci)]
      · rw [hrow r hr hri c (by omega), hzero, zero_div, mul_zero, sub_zero, hunit r hr c hlt]

/-- The elements of the operand one after another, and the unit matrix. -/
def augmented (n : ℕ) (x : ℕ → ℚ) : Rows ℚ := fun r c =>
  if r < n then if c < n then x (r * n + c) else if c < n + n then if r = c - n then 1 else 0 else 0 else 0

/-- The matrix whose elements are `x`, one after another. -/
def flat (n : ℕ) (x : ℕ → ℚ) : Matrix (Fin n) (Fin n) ℚ := Matrix.of fun r c => x (r * n + c)

theorem inverting_augmented (x : ℕ → ℚ) : Inverting (flat n x) 0 (augmented n x) where
  solves := by
    intro r hr
    refine solves_augmented ⟨r, hr⟩ (fun c => ?_) fun l => ?_
    · rw [augmented, if_pos hr, if_pos c.isLt]
      rfl
    · rw [augmented, if_pos hr, if_neg (by omega), if_pos (by omega), Nat.add_sub_cancel_left]
      exact if_congr Fin.mk_eq_mk.symm rfl rfl
  unit := fun _ _ c hc => absurd hc (Nat.not_lt_zero c)

/-- No pivot that `SNEPPX_tensor_inverse` selects is below the threshold. -/
def InversePivots (n : ℕ) (x : ℕ → ℚ) : Prop :=
  ∀ i < n, ∀ a, forLoop i (inverseStep n) (augmented n x) = some a → threshold ≤ |bringPivot n (2 * n) i a i i|

theorem inverseLoop_eq_some {x : ℕ → ℚ} (h : InversePivots n x) :
    ∃ a, forLoop n (inverseStep n) (augmented n x) = some a ∧
      let right : Matrix (Fin n) (Fin n) ℚ := Matrix.of fun r l => a r (n + l)
      right * flat n x = 1 ∧ flat n x * right = 1 := by
  have hloop := exists_forLoop_eq_some (n := n) (f := inverseStep n) (a := augmented n x)
    (fun i a => forLoop i (inverseStep n) (augmented n x) = some a ∧ Inverting (flat n x) i a)
    ⟨rfl, inverting_augmented x⟩ ?_
  · obtain ⟨a, ha, -, hinv⟩ := hloop
    exact ⟨a, ha, inverse_of_solves hinv.solves hinv.unit⟩
  · rintro i hi a ⟨ha, hinv⟩
    obtain ⟨b, hb, hinv'⟩ := hinv.step hi (h i hi a ha)
    exact ⟨b, hb, by rw [forLoop_succ, ha, Option.bind_some, hb], hinv'⟩

end Inverse

/-! ## Elimination for the determinant -/

section Det

variable {n i : ℕ} {s : Rows ℚ × ℚ} {A : Matrix (Fin n) (Fin n) ℚ}

theorem detStep_eq_some (hi : i < n) (h : threshold ≤ |bringPivot n n i s.1 i i|) :
    ∃ b, detStep n i s = some (b, (if selectPivot n i s.1 ≠ i then -s.2 else s.2) * bringPivot n n i s.1 i i) ∧
      let m := bringPivot n n i s.1
      (∀ r ≤ i, b r = m r) ∧
      ∀ r, i < r → r < n → ∀ c, i < c → c < n → b r c = m r c - m r i / m i i * m i c := by
  refine ⟨_, if_neg (not_lt.mpr h), ?_⟩
  intro m
  have hrows := forRange_rows (i := i) (Nat.succ_le_of_lt hi) (f := fun j (m : Rows ℚ) =>
      forRange (i + 1) n (fun k b => store b j k (b j k - m j i / m i i * b i k)) m)
    (g := fun v w c => if i + 1 ≤ c ∧ c < n then w c - w i / v i * v c else w c)
    (fun j m _ _ hji =>
      forRange_combine (Nat.succ_le_of_lt hi) (Ne.symm hji) (fun x y : ℚ => x - m j i / m i i * y) m)
    (fun h => absurd h (Nat.not_succ_le_self i)) m
  refine ⟨fun r hr => (hrows r).trans (if_neg (by omega)), fun r hir hr c hic hc => ?_⟩
  refine (congrFun (hrows r) c).trans ?_
  rw [if_pos ⟨hir, hr, by omega⟩, if_pos ⟨hic, hc⟩]

/-- The determinant, up to the pivots so far and the sign of the exchanges so far. -/
structure Eliminating (n i : ℕ) (d : ℚ) (s : Rows ℚ × ℚ) : Prop where
  exists_sign : ∃ k : ℚ, d = k * (cleared n i s.1).det ∧ s.2 = k * ∏ c ∈ Finset.range i, s.1 c c

theorem Eliminating.step (hi : i < n) {d : ℚ} (h : Eliminating n i d s)
    (hpiv : threshold ≤ |bringPivot n n i s.1 i i|) :
    ∃ s', detStep n i s = some s' ∧ Eliminating n (i + 1) d s' := by
  obtain ⟨b, hb, habove, hbelow⟩ := detStep_eq_some hi hpiv
  obtain ⟨k, hd, hdet⟩ := h.exists_sign
  have hne := ne_zero_of_threshold_le hpiv
  set m := bringPivot n n i s.1 with hm
  have hswap : ∀ r < n, ∀ c < n, m r c = s.1 (Equiv.swap i (selectPivot n i s.1) r) c := fun r _ c hc => by
    rw [hm, bringPivot_apply, if_pos hc]
  have hdiag : ∏ c ∈ Finset.range (i + 1), b c c = (∏ c ∈ Finset.range i, s.1 c c) * m i i := by
    rw [Finset.prod_range_succ, habove i le_rfl]
    congr 1
    refine Finset.prod_congr rfl fun c hc => ?_
    have hci := Finset.mem_range.mp hc
    rw [habove c hci.le, hswap c (by omega) c (by omega), (swap_pivot hi s.1).1 hci]
  refine ⟨_, hb, ⟨if selectPivot n i s.1 ≠ i then -k else k, ?_, ?_⟩⟩
  · rw [det_cleared_eliminate hi hne habove hbelow, hd]
    obtain ⟨hlo, hhi⟩ := selectPivot_mem hi s.1
    split_ifs with hpivot
    · rw [det_cleared_exchange hi (Nat.lt_of_le_of_ne hlo (Ne.symm hpivot)) hhi hswap, neg_mul_neg]
    · rw [hm, bringPivot, if_neg hpivot]
  · change _ = _ * ∏ c ∈ Finset.range (i + 1), b c c
    rw [hdiag, hdet]
    split_ifs <;> ring

/-- The elements of the operand one after another. -/
def square (n : ℕ) (x : ℕ → ℚ) : Rows ℚ := fun r c => if r < n ∧ c < n then x (r * n + c) else 0

/-- No pivot that `SNEPPX_tensor_det` selects is below the threshold. -/
def DetPivots (n : ℕ) (x : ℕ → ℚ) : Prop :=
  ∀ i < n, ∀ s, forLoop i (detStep n) (square n x, 1) = some s → threshold ≤ |bringPivot n n i s.1 i i|

theorem detLoop_eq_some {x : ℕ → ℚ} (h : DetPivots n x) :
    ∃ m, forLoop n (detStep n) (square n x, 1) = some (m, (flat n x).det) := by
  have hzero : cleared n 0 (square n x) = flat n x := by
    rw [cleared_zero]
    ext r c
    exact if_pos ⟨r.isLt, c.isLt⟩
  have hloop := exists_forLoop_eq_some (n := n) (f := detStep n) (a := (square n x, 1))
    (fun i s => forLoop i (detStep n) (square n x, 1) = some s ∧ Eliminating n i (flat n x).det s)
    ⟨rfl, ⟨1, by rw [hzero, one_mul], by rw [Finset.prod_range_zero, one_mul]⟩⟩ ?_
  · obtain ⟨⟨m, d⟩, hs, -, k, hd, hdet⟩ := hloop
    rw [det_cleared_last, Finset.prod_fin_eq_prod_range] at hd
    refine ⟨m, hs.trans ?_⟩
    rw [hd]
    refine congrArg some (congrArg (Prod.mk m) (hdet.trans (congrArg _ (Finset.prod_congr rfl fun c hc => ?_))))
    rw [dif_pos (Finset.mem_range.mp hc)]
  · rintro i hi s ⟨hs, hinv⟩
    obtain ⟨s', hs', hinv'⟩ := hinv.step hi (h i hi s hs)
    exact ⟨s', hs', by rw [forLoop_succ, hs, Option.bind_some, hs'], hinv'⟩

end Det

end SneppxAlg.MatrixInverse
