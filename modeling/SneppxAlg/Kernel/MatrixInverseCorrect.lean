import SneppxAlg.Kernel.MatrixInverse

/-!
# Matrices whose inverse and determinant are right

The functions read an operand as if it was stored row after row. They are right for an operand that is, and for one
with at most one element. Any other layout is told apart by two triangular matrices, which need no exchange of
rows: their inverse is computed, and it is that of the matrix that is read.

Main result: `inverse_det_correct_iff`.
-/

namespace SneppxAlg.MatrixInverse

open Lib.AddingLoops Lib.RowOperations Lib.Strided
open FloatView
open TensorEngine (Outcome numel extents)

variable {n : ℕ} {x : ℕ → ℚ} {src : View ℚ}

/-! ## Reading the operand -/

section Loads

theorem loadAugmented_eq (h : ∀ q < n * n, src.read q = some (x q)) :
    loadAugmented src n (fun _ _ => 0) = some (augmented n x) := by
  have hloop := exists_forLoop_eq_some (n := n) (a := fun _ _ => 0)
    (f := fun i a => do
      let a ← forLoop n (fun j a => do
        let x ← src.read (i * n + j)
        some (store a i j x)) a
      some (forRange 0 n (fun j a => store a i (n + j) (if i = j then 1 else 0)) a))
    (fun i a => ∀ r c, a r c = if r < i then augmented n x r c else 0) (fun r c => rfl) fun i hi a ha => ?_
  · obtain ⟨a, ha, hrows⟩ := hloop
    refine ha.trans (congrArg some (funext fun r => funext fun c => (hrows r c).trans ?_))
    rw [augmented]
    split_ifs <;> rfl
  · have hinner := exists_forLoop_eq_some (n := n) (a := a)
      (f := fun j a => do
        let x ← src.read (i * n + j)
        some (store a i j x))
      (fun j b => ∀ r c, b r c = if r = i ∧ c < j then augmented n x r c else a r c)
      (fun r c => (if_neg fun h => Nat.not_lt_zero _ h.2).symm) fun j hj b hb => ?_
    · obtain ⟨b, hb, hleft⟩ := hinner
      refine ⟨_, by rw [hb]; rfl, fun r c => ?_⟩
      have hright := forRange_invariant (f := fun j a => store a i (n + j) (if i = j then (1 : ℚ) else 0))
        (fun j (b' : Rows ℚ) => ∀ r c, b' r c = if r = i ∧ n ≤ c ∧ c < n + j then augmented n x r c else b r c)
        (Nat.zero_le n) (s := b) (fun r c => (if_neg (by omega)).symm) fun j b' _ hj hb' r c => ?_
      · rw [hright r c, hleft r c, ha r c]
        by_cases hr : r = i
        · have hout : n + n ≤ c → augmented n x r c = 0 := fun hc => by
            rw [augmented, if_pos (by omega), if_neg (by omega), if_neg (by omega)]
          grind
        · rw [if_neg fun h => hr h.1, if_neg fun h => hr h.1]
          exact if_congr (by omega) rfl rfl
      · rw [store_apply, hb' r c]
        by_cases hrc : r = i ∧ c = n + j
        · have hentry : augmented n x i (n + j) = if i = j then 1 else 0 := by
            rw [augmented, if_pos hi, if_neg (by omega), if_pos (by omega), Nat.add_sub_cancel_left]
          have hnow : r = i ∧ n ≤ c ∧ c < n + (j + 1) := by omega
          rw [if_pos hrc, if_pos hnow, hrc.1, hrc.2, hentry]
        · rw [if_neg hrc]
          exact if_congr (by omega) rfl rfl
    · refine ⟨_, by rw [h _ (digit_lt hi hj)]; rfl, fun r c => ?_⟩
      rw [store_apply, hb r c]
      by_cases hrc : r = i ∧ c = j
      · rw [if_pos hrc, if_pos (by omega), hrc.1, hrc.2, augmented, if_pos hi, if_pos hj]
      · rw [if_neg hrc]
        exact if_congr (by omega) rfl rfl

/-- An element outside of the storage is read. -/
theorem loadAugmented_eq_none (hn : 0 < n) (h : src.read ((n - 1) * n + (n - 1)) = none) :
    loadAugmented src n (fun _ _ => 0) = none := by
  refine forLoop_eq_none (i := n - 1) (by omega) (fun a => ?_) _
  rw [forLoop_eq_none (i := n - 1) (by omega) fun a => by rw [h]; rfl]
  rfl

theorem loadMatrix_eq (h : ∀ q < n * n, src.read q = some (x q)) :
    loadMatrix src n (fun _ _ => 0) = some (square n x) := by
  have hloop := exists_forLoop_eq_some (n := n * n) (a := fun _ _ => 0)
    (f := fun i m => do
      let x ← src.read i
      some (store m (i / n) (i % n) x))
    (fun q m => ∀ r c, m r c = if c < n ∧ r * n + c < q then x (r * n + c) else 0)
    (fun r c => (if_neg fun h => Nat.not_lt_zero _ h.2).symm) fun q hq m hm => ?_
  · obtain ⟨m, hm, hcells⟩ := hloop
    refine hm.trans (congrArg some (funext fun r => funext fun c => (hcells r c).trans ?_))
    refine if_congr ⟨fun ⟨hc, hlt⟩ => ⟨?_, hc⟩, fun ⟨hr, hc⟩ => ⟨hc, digit_lt hr hc⟩⟩ rfl rfl
    exact Nat.lt_of_mul_lt_mul_right (a := n) (by omega)
  · refine ⟨_, by rw [h q hq]; rfl, fun r c => ?_⟩
    have hn : 0 < n := Nat.pos_of_ne_zero fun h0 => by simp [h0] at hq
    rw [store_apply, hm r c]
    by_cases hrc : r = q / n ∧ c = q % n
    · have hq_eq : r * n + c = q := by rw [hrc.1, hrc.2, Nat.div_add_mod']
      rw [if_pos hrc, if_pos ⟨hrc.2 ▸ Nat.mod_lt q hn, by omega⟩, hq_eq]
    · rw [if_neg hrc]
      refine if_congr (and_congr_right fun hc => ?_) rfl rfl
      have hne : r * n + c ≠ q := fun hq_eq => hrc (by
        rw [← hq_eq, Nat.mul_add_mod', Nat.mod_eq_of_lt hc, Nat.mul_comm, Nat.mul_add_div hn, Nat.div_eq_of_lt hc]
        exact ⟨rfl, rfl⟩)
      omega

end Loads

/-! ## Triangular matrices -/

section Triangular

/-- Zero below the diagonal, and no pivot below 1. -/
structure Triangular (n : ℕ) (x : ℕ → ℚ) : Prop where
  below : ∀ r < n, ∀ c < r, x (r * n + c) = 0
  diagonal : ∀ r < n, 1 ≤ x (r * n + r)

theorem threshold_le_one : threshold ≤ 1 := by
  rw [threshold]
  norm_num

/-- Elimination leaves the rows that it has not come to. -/
theorem Triangular.inversePivots (h : Triangular n x) : InversePivots n x := by
  have hbring : ∀ i < n, ∀ a : Rows ℚ, (∀ r < n, i ≤ r → ∀ c < n, a r c = x (r * n + c)) →
      bringPivot n (2 * n) i a = a ∧ threshold ≤ |a i i| := by
    intro i hi a ha
    have hselect : selectPivot n i a = i := selectPivot_of_zero hi fun r hir hr => by
      rw [ha r hr hir.le i hi, h.below r hr i hir]
    refine ⟨by rw [bringPivot, hselect]; exact if_neg (not_not.mpr rfl), ?_⟩
    rw [ha i hi le_rfl i hi]
    exact (threshold_le_one.trans (h.diagonal i hi)).trans (le_abs_self _)
  intro i hi a ha
  have hloop := exists_forLoop_eq_some (n := i) (f := inverseStep n) (a := augmented n x)
    (fun i a => ∀ r < n, i ≤ r → ∀ c < n, a r c = x (r * n + c))
    (fun r hr _ c hc => by rw [augmented, if_pos hr, if_pos hc]) fun k hk a hrest => ?_
  · obtain ⟨a', ha', hrest⟩ := hloop
    obtain rfl := Option.some.inj (ha'.symm.trans ha)
    obtain ⟨heq, hpiv⟩ := hbring i hi a' hrest
    rwa [heq]
  · obtain ⟨heq, hpiv⟩ := hbring k (hk.trans hi) a hrest
    obtain ⟨b, hb, -, hrow⟩ := inverseStep_eq_some (heq.symm ▸ hpiv)
    refine ⟨b, hb, fun r hr hkr c hc => ?_⟩
    rw [hrow r hr (by omega) c (by omega), heq, hrest r hr (by omega) k (by omega), h.below r hr k hkr, zero_mul,
      sub_zero, hrest r hr (by omega) c hc]

/-- The unit matrix, with 2 for one of its elements. -/
def probe (n t : ℕ) (q : ℕ) : ℚ := if q = t then 2 else if q / n = q % n then 1 else 0

theorem probe_eq_two {t q : ℕ} : probe n t q = 2 ↔ q = t := by
  rw [probe]
  split_ifs <;> simp_all

theorem triangular_probe {i j : ℕ} (hij : i ≤ j) (hj : j < n) : Triangular n (probe n (i * n + j)) := by
  have hdiv : ∀ r c, c < n → (r * n + c) / n = r ∧ (r * n + c) % n = c := fun r c hc => by
    rw [Nat.mul_add_mod', Nat.mod_eq_of_lt hc, Nat.mul_comm, Nat.mul_add_div (by omega), Nat.div_eq_of_lt hc]
    exact ⟨rfl, rfl⟩
  constructor
  · intro r hr c hc
    have hne : r * n + c ≠ i * n + j := fun h => by
      obtain ⟨rfl, rfl⟩ := digit_inj (by omega) hj h
      omega
    obtain ⟨hr_eq, hc_eq⟩ := hdiv r c (by omega)
    rw [probe, if_neg hne, hr_eq, hc_eq, if_neg (by omega)]
  · intro r hr
    obtain ⟨hr_eq, hc_eq⟩ := hdiv r r hr
    rw [probe, hr_eq, hc_eq, if_pos rfl]
    split_ifs <;> norm_num

end Triangular

/-! ## The results -/

section Result

def matrix (n : ℕ) (v : View ℚ) : Matrix (Fin n) (Fin n) ℚ := Matrix.of fun r c => v.data (v.place [r, c])

/-- There is memory for the result and for the arrays of the functions. -/
structure Room (alloc : ℕ → Bool) (n : ℕ) : Prop where
  fits : 8 * (n * n) < 2 ^ 64
  result : alloc (4 * (n * n)) = true
  augmented : alloc (8 * (n * n)) = true

/-- For all data that lets no pivot be below the threshold, the inverse and the determinant are right. -/
def Correct (alloc : ℕ → Bool) (v : View ℚ) (n : ℕ) : Prop :=
  ∀ init x : ℕ → ℚ,
    (InversePivots n x →
      ∃ r, tensorInverse init alloc (v.withData x) = .ok r ∧ r.shape = v.shape ∧
        flat n r.data * matrix n (v.withData x) = 1 ∧ matrix n (v.withData x) * flat n r.data = 1) ∧
    (DetPivots n x → tensorDet alloc (v.withData x) = .ok (matrix n (v.withData x)).det)

variable {alloc : ℕ → Bool} {v : View ℚ} {d : UInt64} (hshape : v.shape = [d, d]) (hroom : Room alloc d.toNat)
include hshape hroom

/-- What is left of the function when the operand and the memory are as they should be. -/
theorem tensorInverse_eq (init : ℕ → ℚ) :
    tensorInverse init alloc v =
      (Outcome.ofOption (loadAugmented v d.toNat fun _ _ => 0)).bind fun a =>
        match forLoop d.toNat (inverseStep d.toNat) a with
        | none => .null
        | some a =>
          Outcome.ofOption ((forLoop d.toNat (fun i => forLoop d.toNat fun j =>
            storeAt (d.toNat * d.toNat) (i * d.toNat + j) (a i (d.toNat + j))) init).bind fun rd =>
              some ⟨[d, d], d.toNat * d.toNat, rd⟩) := by
  have hfits := hroom.fits
  have hnumel : (numel [d, d]).toNat = d.toNat * d.toNat := by
    rw [TensorEngine.numel_toNat (by simp [extents]; omega)]
    simp [extents]
  have hbytes : (numel [d, d] * 4).toNat = 4 * (d.toNat * d.toNat) := by
    rw [UInt64.toNat_mul, hnumel, show (4 : UInt64).toNat = 4 from rfl, Nat.mod_eq_of_lt (by omega), Nat.mul_comm]
  have hwork : (d * d * 2 * 4).toNat = 8 * (d.toNat * d.toNat) := by
    rw [UInt64.toNat_mul, UInt64.toNat_mul, UInt64.toNat_mul, show (4 : UInt64).toNat = 4 from rfl,
      show (2 : UInt64).toNat = 2 from rfl]
    generalize d.toNat * d.toNat = m at hfits ⊢
    omega
  rw [tensorInverse, hshape]
  simp only [ne_eq, not_true_eq_false, if_false, hbytes, hwork, hroom.result, hroom.augmented, Bool.and_self, if_true,
    Nat.mul_div_cancel_left _ (show 0 < 4 by decide)] <;> rfl

theorem tensorDet_eq :
    tensorDet alloc v =
      (Outcome.ofOption (loadMatrix v d.toNat fun _ _ => 0)).bind fun m =>
        match forLoop d.toNat (detStep d.toNat) (m, 1) with
        | none => .ok 0
        | some s => .ok s.2 := by
  have hfits := hroom.fits
  have hwork : (d * d * 4).toNat = 4 * (d.toNat * d.toNat) := by
    rw [UInt64.toNat_mul, UInt64.toNat_mul, show (4 : UInt64).toNat = 4 from rfl]
    generalize d.toNat * d.toNat = m at hfits ⊢
    omega
  rw [tensorDet, hshape]
  simp only [ne_eq, not_true_eq_false, if_false, hwork, hroom.result, if_true] <;> rfl

theorem tensorInverse_eq_ok (hread : ∀ q < d.toNat * d.toNat, v.read q = some (x q)) (hpivots : InversePivots d.toNat x)
    (init : ℕ → ℚ) :
    ∃ r, tensorInverse init alloc v = .ok r ∧ r.shape = v.shape ∧
      flat d.toNat r.data * flat d.toNat x = 1 ∧ flat d.toNat x * flat d.toNat r.data = 1 := by
  obtain ⟨a, ha, hleft, hright⟩ := inverseLoop_eq_some hpivots
  obtain ⟨rd, hrd, hcells⟩ := exists_forLoop_rows (n := d.toNat) (m := d.toNat) le_rfl
    (fun i j => a i (d.toNat + j)) init
  have hflat : flat d.toNat rd = Matrix.of fun r l : Fin d.toNat => a r (d.toNat + l) := by
    ext r l
    exact hcells r r.isLt l l.isLt
  refine ⟨⟨[d, d], d.toNat * d.toNat, rd⟩, ?_, hshape.symm, by rw [hflat]; exact hleft, by rw [hflat]; exact hright⟩
  rw [tensorInverse_eq hshape hroom, loadAugmented_eq hread]
  simp only [Outcome.ofOption, Outcome.bind, ha, hrd]
  rfl

theorem tensorDet_eq_ok (hread : ∀ q < d.toNat * d.toNat, v.read q = some (x q)) (hpivots : DetPivots d.toNat x) :
    tensorDet alloc v = .ok (flat d.toNat x).det := by
  obtain ⟨m, hm⟩ := detLoop_eq_some hpivots
  rw [tensorDet_eq hshape hroom, loadMatrix_eq hread]
  simp only [Outcome.ofOption, Outcome.bind, hm]

/-- When the elements are read where they are. -/
theorem correct_of_place (hv : v.Valid) (hplace : ∀ r < d.toNat, ∀ c < d.toNat, v.place [r, c] = r * d.toNat + c) :
    Correct alloc v d.toNat := by
  have hfits := hroom.fits
  intro init x
  have hmatrix : matrix d.toNat (v.withData x) = flat d.toNat x := by
    ext r c
    exact congrArg x (hplace r r.isLt c c.isLt)
  have hread : ∀ q < d.toNat * d.toNat, (v.withData x).read q = some (x q) := by
    intro q hq
    have hpos : 0 < d.toNat := Nat.pos_of_ne_zero fun h0 => by simp [h0] at hq
    have hr : q / d.toNat < d.toNat := Nat.div_lt_of_lt_mul hq
    have hc : q % d.toNat < d.toNat := Nat.mod_lt q hpos
    have hin : Within [q / d.toNat, q % d.toNat] (extents v.shape) := by
      rw [hshape]
      exact within_cons.mpr ⟨hr, within_cons.mpr ⟨hc, .nil⟩⟩
    have hlt := hv.below _ hin
    rw [Layout.address, Nat.zero_add, ← View.place, hplace _ hr _ hc, Nat.div_add_mod'] at hlt
    rw [View.read, Nat.mod_eq_of_lt (by omega)]
    exact if_pos hlt
  rw [hmatrix]
  exact ⟨fun h => tensorInverse_eq_ok (v := v.withData x) hshape hroom hread h init,
    tensorDet_eq_ok (v := v.withData x) hshape hroom hread⟩

theorem Correct.matrix_eq (h : Correct alloc v d.toNat) (hx : Triangular d.toNat x) :
    matrix d.toNat (v.withData x) = flat d.toNat x := by
  have hfits := hroom.fits
  obtain ⟨r, hr, -, -, hmatrix⟩ := (h (fun _ => 0) x).1 hx.inversePivots
  by_cases hcells : d.toNat * d.toNat ≤ v.cells
  · have hread : ∀ q < d.toNat * d.toNat, (v.withData x).read q = some (x q) := fun q hq => by
      rw [View.read, Nat.mod_eq_of_lt (by omega)]
      exact if_pos (by exact hq.trans_le hcells)
    obtain ⟨r', hr', -, hflat, -⟩ :=
      tensorInverse_eq_ok (v := v.withData x) hshape hroom hread hx.inversePivots fun _ => 0
    obtain rfl := Outcome.ok.inj (hr'.symm.trans hr)
    calc matrix d.toNat (v.withData x) = matrix d.toNat (v.withData x) * (flat d.toNat r'.data * flat d.toNat x) := by
          rw [hflat, mul_one]
      _ = flat d.toNat x := by rw [← mul_assoc, hmatrix, one_mul]
  · have hn : 0 < d.toNat := Nat.pos_of_ne_zero fun h0 => hcells (by rw [h0]; omega)
    have hlast : (d.toNat - 1) * d.toNat + (d.toNat - 1) = d.toNat * d.toNat - 1 := by
      obtain ⟨k, hk⟩ := Nat.exists_eq_add_of_lt hn
      rw [hk]
      simp only [Nat.zero_add, Nat.add_sub_cancel]
      ring_nf
      omega
    have hread : (v.withData x).read ((d.toNat - 1) * d.toNat + (d.toNat - 1)) = none := by
      rw [hlast, View.read, Nat.mod_eq_of_lt (by omega)]
      exact if_neg (by change ¬_ < v.cells; omega)
    rw [tensorInverse_eq (v := v.withData x) hshape hroom, loadAugmented_eq_none hn hread] at hr
    cases hr

/-- The inverse and the determinant of an `n` by `n` operand are right, for all data that lets no pivot be below the
threshold, if and only if it has at most one element or is stored row after row. -/
theorem inverse_det_correct_iff (hv : v.Valid) : Correct alloc v d.toNat ↔ d.toNat ≤ 1 ∨ v.strides = [d, 1] := by
  obtain ⟨s0, s1, hstrides⟩ : ∃ s0 s1, v.strides = [s0, s1] := by
    have hlen : v.strides.length = 2 := by rw [← hv.lengths, hshape]; rfl
    exact List.length_eq_two.mp hlen
  have hplace : ∀ r c : ℕ, v.place [r, c] = r * s0.toNat + c * s1.toNat := fun r c => by
    simp [View.place, hstrides, extents, dot_cons]
  constructor
  · intro h
    rw [or_iff_not_imp_left]
    intro hd
    rw [not_le] at hd
    have hprobe : ∀ i j, i ≤ j → j < d.toNat → v.place [i, j] = i * d.toNat + j := by
      intro i j hij hj
      have heq := congrFun (congrFun (h.matrix_eq hshape hroom (triangular_probe hij hj)) ⟨i, by omega⟩) ⟨j, hj⟩
      exact probe_eq_two.mp (heq.trans (probe_eq_two.mpr rfl))
    have h01 := (hplace 0 1).symm.trans (hprobe 0 1 (by decide) hd)
    have h11 := (hplace 1 1).symm.trans (hprobe 1 1 le_rfl hd)
    have hs1 : s1 = 1 := UInt64.toNat_inj.mp (by simpa using h01)
    have hs0 : s0 = d := UInt64.toNat_inj.mp (by rw [hs1] at h11; simpa using h11)
    rw [hstrides, hs0, hs1]
  · intro h
    refine correct_of_place hshape hroom hv fun r hr c hc => ?_
    rcases h with hone | hrow
    · obtain ⟨rfl, rfl⟩ : r = 0 ∧ c = 0 := by omega
      rw [hplace]
      simp
    · rw [hstrides] at hrow
      obtain ⟨rfl, htail⟩ := List.cons.inj hrow
      obtain ⟨rfl, -⟩ := List.cons.inj htail
      rw [hplace, UInt64.toNat_one, Nat.mul_one]

end Result

/-! ## Some operands -/

/-- There is always memory. -/
theorem room_of_fits {n : ℕ} (h : 8 * (n * n) < 2 ^ 64) : Room (fun _ => true) n := ⟨h, rfl, rfl⟩

/-- Two by two matrices, stored row after row. -/
theorem inverse_det_correct_iff_packed : Correct (fun _ => true) (View.packed [2, 2] fun q => (q : ℚ)) 2 :=
  (inverse_det_correct_iff (d := 2) rfl (room_of_fits (by decide)) (View.packed_valid (by decide) _)).mpr
    (Or.inr (by decide))

/-- A transposed two by two matrix. -/
def transposed (x : ℕ → ℚ) : View ℚ := ⟨[2, 2], [1, 2], 4, x⟩

/-- The elements 1, 2, 0, 1 of a transposed matrix: the result is not its inverse. -/
theorem not_correct_transposed :
    ¬Correct (fun _ => true) (transposed fun q => if q = 2 then 0 else if q = 1 then 2 else 1) 2 := by
  intro h
  have hx : Triangular 2 fun q => if q = 2 then 0 else if q = 1 then 2 else 1 := by
    constructor <;> decide
  have heq := congrFun (congrFun
    (Correct.matrix_eq (d := 2) (v := transposed _) rfl (room_of_fits (by decide)) h hx) ⟨0, by decide⟩)
      ⟨1, by decide⟩
  change (0 : ℚ) = 2 at heq
  exact absurd heq (by decide)

end SneppxAlg.MatrixInverse
