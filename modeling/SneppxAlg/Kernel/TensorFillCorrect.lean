import SneppxAlg.Kernel.TensorFill

/-!
# Which types the constructors fill

A loop that stores one value in each element of a new tensor is right if the value has the size of the items, and
it leaves the memory if it is larger (`loop_same_iff`, `loop_larger_iff`); bytes are right if they are the value
(`bytes_iff`). The diagonal and the random numbers are stored item after item.

Main result: `constructors_fill_iff`.
-/

namespace SneppxAlg.TensorEngine

open Lib.AddingLoops Lib.Bytes Lib.FloatBits

/-! ## Stores of one value -/

section Uniform

variable {n m s : ℕ} {bytes : List UInt8} {w : ℕ → Option (List UInt8)}

theorem loop_same_iff (hlen : bytes.length = s) :
    (∃ data, forLoop n (fun i => storeBytes (n * s) (i * s) bytes) (fun _ => 0) = some data ∧
      ∀ k < n, w k = some (item s data k)) ↔ ∀ k < n, w k = some bytes := by
  obtain ⟨data, hrun, hitems, -⟩ := @exists_forLoop_storeBytes _ n (n * s) _ (fun i => i)
    (fun _ => bytes) (fun _ _ => hlen) (fun i hi => by rw [← Nat.succ_mul]; exact Nat.mul_le_mul_right _ hi)
    (fun i _ j hj => hj.ne) (fun _ => 0)
  rw [hrun]
  constructor
  · rintro ⟨data', hdata, h⟩ k hk
    obtain rfl := Option.some.inj hdata
    rw [h k hk, hitems k hk]
  · exact fun h => ⟨data, rfl, fun k hk => by rw [h k hk, hitems k hk]⟩

theorem loop_larger_iff (hlen : bytes.length = m) (h : s < m) :
    (∃ data, forLoop n (fun i => storeBytes (n * s) (i * m) bytes) (fun _ => 0) = some data ∧
      ∀ k < n, w k = some (item s data k)) ↔ n = 0 := by
  constructor
  · rintro ⟨data, hrun, -⟩
    by_contra h0
    have hpos := Nat.pos_of_ne_zero h0
    rw [forLoop_storeBytes_eq_none hpos] at hrun
    · cases hrun
    · rw [hlen, ← Nat.succ_mul, Nat.succ_eq_add_one, Nat.sub_add_cancel hpos]
      exact Nat.mul_lt_mul_of_pos_left h hpos
  · rintro rfl
    exact ⟨_, rfl, fun k hk => absurd hk (Nat.not_lt_zero k)⟩

theorem item_replicate {c : UInt8} {data : ℕ → UInt8} {k : ℕ} (h : ∀ p < n * s, data p = c) (hk : k < n) :
    item s data k = List.replicate s c := by
  refine List.eq_replicate_iff.mpr ⟨length_item data k, fun b hb => ?_⟩
  obtain ⟨p, hp, rfl⟩ := List.mem_map.mp hb
  exact h _ (digit_lt hk (List.mem_range.mp hp))

theorem storeBytes_replicate (cells : ℕ) (c : UInt8) (a : ℕ → UInt8) :
    ∃ data, storeBytes cells 0 (List.replicate cells c) a = some data ∧ ∀ p < cells, data p = c := by
  refine ⟨_, if_pos (by rw [List.length_replicate, Nat.zero_add]), fun p hp => ?_⟩
  rw [if_pos (Nat.zero_le p), Nat.sub_zero, List.getD_eq_getElem _ _ (by rwa [List.length_replicate]),
    List.getElem_replicate]

theorem bytes_iff (c : UInt8) :
    (∃ data, storeBytes (n * s) 0 (List.replicate (n * s) c) (fun _ => 0) = some data ∧
      ∀ k < n, w k = some (item s data k)) ↔ ∀ k < n, w k = some (List.replicate s c) := by
  obtain ⟨data, hrun, hdata⟩ := storeBytes_replicate (n * s) c fun _ => 0
  rw [hrun]
  constructor
  · rintro ⟨data', heq, h⟩ k hk
    obtain rfl := Option.some.inj heq
    rw [h k hk, item_replicate hdata hk]
  · exact fun h => ⟨data, rfl, fun k hk => by rw [h k hk, item_replicate hdata hk]⟩

theorem zeros_iff :
    (∃ data, some (fun _ => (0 : UInt8)) = some data ∧ ∀ k < n, w k = some (item s data k)) ↔
      ∀ k < n, w k = some (List.replicate s 0) := by
  constructor
  · rintro ⟨data, heq, h⟩ k hk
    obtain rfl := Option.some.inj heq
    rw [h k hk, item_replicate (fun _ _ => rfl) hk]
  · exact fun h => ⟨_, rfl, fun k hk => by rw [h k hk, item_replicate (fun _ _ => rfl) hk]⟩

/-- A value that is the same for all elements. -/
theorem forall_lt_const {p : Prop} : (∀ k < n, p) ↔ n = 0 ∨ p := by
  rcases Nat.eq_zero_or_pos n with rfl | hpos
  · simp
  · exact ⟨fun h => Or.inr (h 0 hpos), fun h k _ => h.resolve_left hpos.ne'⟩

end Uniform

/-! ## Values -/

section Values

variable (R : Roundings)

theorem float32_one : R.float32 (UInt64.ofNat one64) = UInt32.ofNat one32 := by
  have h := R.float32_widen (UInt32.ofNat one32) (by decide)
  rwa [show widen (UInt32.ofNat one32) = UInt64.ofNat one64 by decide] at h

theorem float32_zero : R.float32 0 = 0 := by
  have h := R.float32_widen 0 (by decide)
  rwa [show widen 0 = 0 by decide] at h

theorem length_castInt {n : ℕ} {lo hi : ℤ} {v : UInt64} {bytes : List UInt8} (h : castInt n lo hi v = some bytes) :
    bytes.length = n := by
  obtain ⟨z, -, h⟩ := Option.bind_eq_some_iff.mp h
  split_ifs at h
  obtain rfl := Option.some.inj h
  exact length_leBytes _ _

theorem castInt_zero (n : ℕ) {lo hi : ℤ} (hlo : lo ≤ 0) (hhi : 0 ≤ hi) : castInt n lo hi 0 = some (leBytes n 0) := by
  rw [castInt, trunc_zero, Option.bind_some, if_pos ⟨hlo, hhi⟩]
  rfl

end Values

theorem complex64_eq_zero {x : UInt32} : leBytes 4 x.toNat ++ leBytes 4 0 = List.replicate 8 0 ↔ x = 0 := by
  constructor
  · intro h
    have hleft : leBytes 4 x.toNat = leBytes 4 0 := List.append_cancel_right (h.trans (by decide))
    have hmod := leBytes_inj hleft
    rw [Nat.mod_eq_of_lt (show x.toNat < 256 ^ 4 from x.toNat_lt)] at hmod
    exact UInt32.toNat_inj.mp hmod
  · rintro rfl
    decide

theorem complex128_eq_zero {v : UInt64} : leBytes 8 v.toNat ++ leBytes 8 0 = List.replicate 16 0 ↔ v = 0 := by
  constructor
  · intro h
    have hleft : leBytes 8 v.toNat = leBytes 8 0 := List.append_cancel_right (h.trans (by decide))
    have hmod := leBytes_inj hleft
    rw [Nat.mod_eq_of_lt (show v.toNat < 256 ^ 8 from v.toNat_lt)] at hmod
    exact UInt64.toNat_inj.mp hmod
  · rintro rfl
    decide

/-! ## `ones`, `full` and `fill_scalar` -/

section Ones

variable {h : Heap} {shape : List UInt64} {dtype : Dtype} (hzero : Zeroed h)
include hzero

theorem ones_iff (R : Roundings) :
    Fills (tensorOnes h shape dtype) shape dtype (fun _ => encode R dtype (UInt64.ofNat one64)) ↔
      (extents shape).prod * dtype.size.toNat < 2 ^ 64 ∧
        ((extents shape).prod = 0 ∨ dtype ∈ [.float32, .float64, .int8, .uint8, .bool]) := by
  refine (fills_iff hzero _ _).trans (and_congr_right fun hfits => ?_)
  have hsize : (numel shape).toNat = (extents shape).prod :=
    numel_toNat (Nat.lt_of_le_of_lt (Nat.le_mul_of_pos_right _ (size_pos dtype)) hfits)
  have hbytes := numel_mul_size hfits
  have hfloat : encode R .float32 (UInt64.ofNat one64) = some (leBytes 4 one32) := by rw [encode, float32_one]; rfl
  have hcomplex : encode R .complex64 (UInt64.ofNat one64) = some (leBytes 4 one32 ++ leBytes 4 0) := by
    rw [encode, float32_one]; rfl
  change (∃ data, onesLoop dtype (numel shape) _ _ = _ ∧ _) ↔ _
  generalize (extents shape).prod = n at *
  cases dtype <;> simp only [onesLoop, hsize, hbytes]
  case float32 =>
    exact (loop_same_iff (s := 4) (length_leBytes 4 _)).trans
      (forall_lt_const.trans (or_congr_right (iff_of_true hfloat (by decide))))
  case float64 =>
    exact (loop_same_iff (s := 8) (length_leBytes 8 _)).trans
      (forall_lt_const.trans (or_congr_right (iff_of_true rfl (by decide))))
  case float16 | bfloat16 =>
    exact (loop_larger_iff (s := 2) (length_leBytes 4 _) (by decide)).trans (or_iff_left (by decide)).symm
  case float8 =>
    exact (loop_larger_iff (s := 1) (length_leBytes 4 _) (by decide)).trans (or_iff_left (by decide)).symm
  case int8 | uint8 | bool =>
    exact (bytes_iff (s := 1) 1).trans (forall_lt_const.trans (or_congr_right (iff_of_true (by rfl) (by decide))))
  case int16 =>
    refine (bytes_iff (s := 2) 1).trans (forall_lt_const.trans (or_congr_right (iff_of_false ?_ (by decide))))
    exact show castInt 2 _ _ _ ≠ _ by decide
  case int32 =>
    refine (bytes_iff (s := 4) 1).trans (forall_lt_const.trans (or_congr_right (iff_of_false ?_ (by decide))))
    exact show castInt 4 _ _ _ ≠ _ by decide
  case int64 =>
    refine (bytes_iff (s := 8) 1).trans (forall_lt_const.trans (or_congr_right (iff_of_false ?_ (by decide))))
    exact show castInt 8 _ _ _ ≠ _ by decide
  case complex64 =>
    refine (zeros_iff (s := 8)).trans (forall_lt_const.trans (or_congr_right (iff_of_false ?_ (by decide))))
    rw [hcomplex]
    decide
  case complex128 =>
    refine (zeros_iff (s := 16)).trans (forall_lt_const.trans (or_congr_right (iff_of_false ?_ (by decide))))
    exact show some (leBytes 8 one64 ++ leBytes 8 0) ≠ _ by decide

theorem full_iff {value : List UInt8} (hvalue : value.length = dtype.size.toNat) :
    Fills (tensorFull h shape dtype (some value)) shape dtype (fun _ => some value) ↔
      (extents shape).prod * dtype.size.toNat < 2 ^ 64 := by
  refine (fills_iff hzero _ _).trans (and_iff_left_of_imp fun hfits => ?_)
  have hsize : (numel shape).toNat = (extents shape).prod :=
    numel_toNat (Nat.lt_of_le_of_lt (Nat.le_mul_of_pos_right _ (size_pos dtype)) hfits)
  have hloop : fullLoop dtype value (numel shape) ((extents shape).prod * dtype.size.toNat) (fun _ => 0) =
      forLoop (extents shape).prod (fun i => storeBytes ((extents shape).prod * dtype.size.toNat)
        (i * dtype.size.toNat) value) fun _ => 0 := by
    rw [fullLoop, hsize, ← hvalue, List.take_length]
    refine forLoop_congr (fun i hi => ?_) _
    have hlt : i * value.length < 2 ^ 64 :=
      Nat.lt_of_le_of_lt (Nat.mul_le_mul_right _ hi.le) (by rwa [hvalue])
    have hsmall : i < 2 ^ 64 := hi.trans (Nat.lt_of_le_of_lt (Nat.le_mul_of_pos_right _ (size_pos dtype)) hfits)
    rw [if_neg (lt_irrefl _), UInt64.toNat_mul, UInt64.toNat_ofNat_of_lt' hsmall, ← hvalue, Nat.mod_eq_of_lt hlt]
  change ∃ data, fullLoop dtype value (numel shape) _ _ = _ ∧ _
  rw [hloop]
  exact (loop_same_iff hvalue).mpr fun _ _ => rfl

/-- The value is a `double` that has a value of the type. -/
theorem fillScalar_iff (R : Roundings) {v : UInt64} (hv : (encode R dtype v).isSome) :
    Fills (tensorFillScalar R (tensorCreate h shape dtype).1 (tensorCreate h shape dtype).2 v) shape dtype
        (fun _ => encode R dtype v) ↔
      (extents shape).prod * dtype.size.toNat < 2 ^ 64 ∧
        ((extents shape).prod = 0 ∨ dtype ∈ [.float32, .float64, .int32, .int64, .int16, .int8, .uint8, .bool] ∨
          dtype = .complex64 ∧ R.float32 v = 0 ∨ dtype = .complex128 ∧ v = 0) := by
  refine (fills_iff hzero _ _).trans (and_congr_right fun hfits => ?_)
  have hsize : (numel shape).toNat = (extents shape).prod :=
    numel_toNat (Nat.lt_of_le_of_lt (Nat.le_mul_of_pos_right _ (size_pos dtype)) hfits)
  have hbytes := numel_mul_size hfits
  obtain ⟨bytes, henc⟩ := Option.isSome_iff_exists.mp hv
  change (∃ data, fillLoop R dtype v (numel shape) _ _ = _ ∧ _) ↔ _
  generalize (extents shape).prod = n at *
  cases dtype <;> simp only [fillLoop, hsize, hbytes]
  case float32 =>
    exact (loop_same_iff (s := 4) (length_leBytes 4 _)).trans
      (forall_lt_const.trans (or_congr_right (iff_of_true rfl (Or.inl (by decide)))))
  case float64 =>
    exact (loop_same_iff (s := 8) (length_leBytes 8 _)).trans
      (forall_lt_const.trans (or_congr_right (iff_of_true rfl (Or.inl (by decide)))))
  case float16 | bfloat16 =>
    exact (loop_larger_iff (s := 2) (length_leBytes 4 _) (by decide)).trans (or_iff_left (by simp)).symm
  case float8 =>
    exact (loop_larger_iff (s := 1) (length_leBytes 4 _) (by decide)).trans (or_iff_left (by simp)).symm
  case int8 | int16 | int32 | int64 | uint8 =>
    rw [encode] at henc
    rw [henc]
    refine (loop_same_iff (length_castInt henc)).trans
      (forall_lt_const.trans (or_congr_right (iff_of_true ?_ (Or.inl (by decide)))))
    exact henc
  case bool =>
    exact (loop_same_iff (s := 1) rfl).trans
      (forall_lt_const.trans (or_congr_right (iff_of_true rfl (Or.inl (by decide)))))
  case complex64 =>
    refine (bytes_iff (s := 8) 0).trans (forall_lt_const.trans (or_congr_right ?_))
    rw [encode, Option.some_inj]
    exact complex64_eq_zero.trans (by simp)
  case complex128 =>
    refine (bytes_iff (s := 16) 0).trans (forall_lt_const.trans (or_congr_right ?_))
    rw [encode, Option.some_inj]
    exact complex128_eq_zero.trans (by simp)

end Ones

/-! ## `eye` -/

section Eye

variable {h : Heap} {dtype : Dtype} (hzero : Zeroed h)

def unitValue (R : Roundings) (dtype : Dtype) (n k : ℕ) : Option (List UInt8) :=
  encode R dtype (if k / n = k % n then UInt64.ofNat one64 else 0)

theorem diagonal_iff {n k : ℕ} (hk : k < n * n) : k / n = k % n ↔ ∃ i < n, i * n + i = k := by
  have hn : 0 < n := Nat.pos_of_ne_zero fun h0 => by simp [h0] at hk
  constructor
  · intro hd
    refine ⟨k % n, Nat.mod_lt k hn, ?_⟩
    conv_rhs => rw [← Nat.div_add_mod' k n, hd]
  · rintro ⟨i, hi, rfl⟩
    rw [Nat.mul_add_mod', Nat.mod_eq_of_lt hi, Nat.mul_comm, Nat.mul_add_div hn, Nat.div_eq_of_lt hi, Nat.add_zero]

theorem place_lt {n i : ℕ} (hi : i < n) : i * n + i < n * n := digit_lt hi hi

theorem place_inj {n i j : ℕ} (hi : i < n) (hj : j < n) (h : j * n + j = i * n + i) : j = i := (digit_inj hj hi h).1

/-- The diagonal, in items of `m` bytes of which an element has `c`. -/
theorem exists_diagonal {n m c : ℕ} {bytes : List UInt8} (hlen : bytes.length = m) (hc : 0 < c) :
    ∃ data, forLoop n (fun i => storeBytes (n * n * (c * m)) ((i * n + i) * (c * m)) bytes) (fun _ => 0) = some data ∧
      (∀ i < n, item m data ((i * n + i) * c) = bytes) ∧
      ∀ q, (∀ i < n, (i * n + i) * c ≠ q) → item m data q = List.replicate m 0 := by
  have hroom : ∀ i < n, (i * n + i) * c * m + m ≤ n * n * (c * m) := by
    intro i hi
    calc (i * n + i) * c * m + m = ((i * n + i) * c + 1) * m := (Nat.succ_mul _ _).symm
      _ ≤ ((i * n + i) * c + c) * m := Nat.mul_le_mul_right m (Nat.add_le_add_left hc _)
      _ = (i * n + i + 1) * (c * m) := by rw [← Nat.succ_mul, Nat.mul_assoc]
      _ ≤ n * n * (c * m) := Nat.mul_le_mul_right _ (place_lt hi)
  have hloop := @exists_forLoop_storeBytes _ n (n * n * (c * m)) _
    (fun i => (i * n + i) * c) (fun _ => bytes) (fun _ _ => hlen) hroom
    (fun i hi j hj heq => hj.ne (place_inj hi (hj.trans hi) (Nat.eq_of_mul_eq_mul_right hc heq))) fun _ => 0
  obtain ⟨data, hrun, hitems, hrest⟩ := hloop
  refine ⟨data, by simpa only [Nat.mul_assoc] using hrun, hitems, fun q hq => (hrest q hq).trans ?_⟩
  exact item_replicate (n := q + 1) (fun _ _ => rfl) (Nat.lt_succ_self q)

variable {n : ℕ} {w : ℕ → Option (List UInt8)} {bytes : List UInt8}

/-- Items of which the first `m` bytes are stored. -/
theorem diagonal_part_iff {m c : ℕ} (hlen : bytes.length = m) (hc : 0 < c) :
    (∃ data, forLoop n (fun i => storeBytes (n * n * (c * m)) ((i * n + i) * (c * m)) bytes) (fun _ => 0) = some data ∧
      ∀ k < n * n, w k = some (item (c * m) data k)) ↔
      ∀ k < n * n, w k = some (if k / n = k % n then bytes ++ List.replicate ((c - 1) * m) 0 else
        List.replicate (c * m) 0) := by
  obtain ⟨data, hrun, hitems, hrest⟩ := exists_diagonal (n := n) hlen hc
  have hfirst : ∀ k < n * n, (item (c * m) data k).take m = if k / n = k % n then bytes else List.replicate m 0 := by
    intro k hk
    have htake := take_drop_item (m := m) hc data k
    rw [Nat.zero_mul, List.drop_zero, Nat.add_zero] at htake
    rw [htake]
    split_ifs with hd
    · obtain ⟨i, hi, rfl⟩ := (diagonal_iff hk).mp hd
      exact hitems i hi
    · exact hrest _ fun i hi heq => hd ((diagonal_iff hk).mpr ⟨i, hi, Nat.eq_of_mul_eq_mul_right hc heq⟩)
  have hothers : ∀ k, (item (c * m) data k).drop m = List.replicate ((c - 1) * m) 0 := by
    intro k
    refine List.eq_replicate_iff.mpr ⟨?_, fun b hb => ?_⟩
    · rw [List.length_drop, length_item, Nat.sub_mul, Nat.one_mul]
    · obtain ⟨p, hp, rfl⟩ := List.mem_iff_getElem.mp hb
      rw [List.length_drop, length_item] at hp
      have hm : 0 < m := Nat.pos_of_ne_zero fun h0 => by simp [h0] at hp
      have hpart : item m data (k * c + (m + p) / m) = List.replicate m 0 := by
        refine hrest _ fun i _ heq => ?_
        have hmod := congrArg (· % c) heq
        have hlt : (m + p) / m < c := Nat.div_lt_of_lt_mul (by rw [Nat.mul_comm]; omega)
        have hone : 0 < (m + p) / m := Nat.div_pos (Nat.le_add_right m p) hm
        simp only [Nat.mul_mod_left, Nat.mul_add_mod', Nat.mod_eq_of_lt hlt] at hmod
        omega
      have hcell := List.eq_of_mem_replicate (hpart ▸ List.mem_map.mpr
        ⟨(m + p) % m, List.mem_range.mpr (Nat.mod_lt _ hm), rfl⟩ :
          data ((k * c + (m + p) / m) * m + (m + p) % m) ∈ List.replicate m 0)
      rw [Nat.add_mul, Nat.add_assoc, Nat.div_add_mod', Nat.mul_assoc] at hcell
      simpa [item] using hcell
  have hdata : ∀ k < n * n, item (c * m) data k =
      if k / n = k % n then bytes ++ List.replicate ((c - 1) * m) 0 else List.replicate (c * m) 0 := by
    intro k hk
    rw [← List.take_append_drop m (item (c * m) data k), hfirst k hk, hothers k]
    split_ifs with hd
    · rfl
    · rw [List.replicate_append_replicate, Nat.add_comm, ← Nat.succ_mul, Nat.succ_eq_add_one, Nat.sub_add_cancel hc]
  rw [hrun]
  constructor
  · rintro ⟨data', heq, h⟩ k hk
    obtain rfl := Option.some.inj heq
    rw [h k hk, hdata k hk]
  · exact fun h => ⟨data, rfl, fun k hk => by rw [h k hk, hdata k hk]⟩

theorem diagonal_same_iff {s : ℕ} (hlen : bytes.length = s) :
    (∃ data, forLoop n (fun i => storeBytes (n * n * s) ((i * n + i) * s) bytes) (fun _ => 0) = some data ∧
      ∀ k < n * n, w k = some (item s data k)) ↔
      ∀ k < n * n, w k = some (if k / n = k % n then bytes else List.replicate s 0) := by
  simpa using diagonal_part_iff (n := n) (w := w) hlen Nat.one_pos

/-- The last item leaves the memory. -/
theorem diagonal_larger_iff {m s : ℕ} (hlen : bytes.length = m) (h : s < m) :
    (∃ data, forLoop n (fun i => storeBytes (n * n * s) ((i * n + i) * s) bytes) (fun _ => 0) = some data ∧
      ∀ k < n * n, w k = some (item s data k)) ↔ n = 0 := by
  constructor
  · rintro ⟨data, hrun, -⟩
    by_contra h0
    obtain ⟨i, rfl⟩ := Nat.exists_eq_succ_of_ne_zero h0
    rw [forLoop_storeBytes_eq_none (Nat.succ_pos i)] at hrun
    · cases hrun
    · rw [hlen, Nat.succ_sub_one, Nat.succ_eq_add_one]
      calc (i + 1) * (i + 1) * s = (i * (i + 1) + i) * s + s := by ring
        _ < (i * (i + 1) + i) * s + m := Nat.add_lt_add_left h _
  · rintro rfl
    exact ⟨_, rfl, fun k hk => absurd hk (Nat.not_lt_zero k)⟩

theorem storeBytes_zeros (cells : ℕ) :
    storeBytes cells 0 (List.replicate cells (0 : UInt8)) (fun _ => 0) = some fun _ => 0 := by
  refine (if_pos (by rw [List.length_replicate, Nat.zero_add])).trans (congrArg some (funext fun p => ?_))
  rw [if_pos (Nat.zero_le p)]
  rcases Nat.lt_or_ge (p - 0) cells with hlt | hge
  · rw [List.getD_eq_getElem _ _ (by rwa [List.length_replicate]), List.getElem_replicate]
  · rw [List.getD_eq_default _ _ (by rwa [List.length_replicate])]

/-- No index wraps. -/
theorem eyeLoop_eq {n size : UInt64} (hfits : n.toNat * n.toNat * dtype.size.toNat < 2 ^ 64)
    (hbytes : (size * dtype.size).toNat = n.toNat * n.toNat * dtype.size.toNat) :
    eyeLoop dtype n size (n.toNat * n.toNat * dtype.size.toNat) (fun _ => 0) =
      forLoop n.toNat (fun i => storeBytes (n.toNat * n.toNat * dtype.size.toNat)
        ((i * n.toNat + i) * dtype.size.toNat) (eyeBytes dtype)) fun _ => 0 := by
  rw [eyeLoop, hbytes, storeBytes_zeros]
  refine forLoop_congr (fun i hi => ?_) _
  have hplace := place_lt hi
  have hlt : (i * n.toNat + i) * dtype.size.toNat < 2 ^ 64 := (Nat.mul_le_mul_right _ hplace.le).trans_lt hfits
  have hsmall : i * n.toNat + i < 2 ^ 64 :=
    (Nat.le_mul_of_pos_right _ (size_pos dtype)).trans_lt hlt
  have hi_nat : (UInt64.ofNat i).toNat = i := UInt64.toNat_ofNat_of_lt' (show i < 2 ^ 64 by omega)
  rw [UInt64.toNat_mul, UInt64.toNat_add, UInt64.toNat_mul, hi_nat, Nat.mod_eq_of_lt (show i * n.toNat < 2 ^ 64 by omega),
    Nat.mod_eq_of_lt hsmall, Nat.mod_eq_of_lt hlt]

/-- The values of the unit matrix are those of its diagonal and zeros, or the first is not. -/
theorem forall_diagonal_iff {one zero bytes rest : List UInt8} (hzero : zero = rest) :
    (∀ k < n * n, (if k / n = k % n then some one else some zero) = some (if k / n = k % n then bytes else rest)) ↔
      n = 0 ∨ one = bytes := by
  subst hzero
  constructor
  · intro h
    refine or_iff_not_imp_left.mpr fun hn => ?_
    have hpos := Nat.pos_of_ne_zero hn
    simpa [Nat.zero_div, Nat.zero_mod] using h 0 (Nat.mul_pos hpos hpos)
  · rintro (rfl | rfl) k hk
    · exact absurd hk (Nat.not_lt_zero k)
    · split_ifs <;> rfl

include hzero

theorem eye_iff (R : Roundings) (n : UInt64) :
    Fills (tensorEye h n dtype) [n, n] dtype (unitValue R dtype n.toNat) ↔
      n.toNat * n.toNat * dtype.size.toNat < 2 ^ 64 ∧ (n = 0 ∨ dtype ∈ [.float32, .float64, .complex64]) := by
  have hprod : (extents [n, n]).prod = n.toNat * n.toNat := by simp [extents]
  rw [← hprod]
  refine (fills_iff hzero _ _).trans (and_congr_right fun hfits => ?_)
  have hbytes := numel_mul_size hfits
  rw [hprod] at hfits hbytes ⊢
  have hn : n = 0 ↔ n.toNat = 0 := by rw [← UInt64.toNat_inj, UInt64.toNat_zero]
  change (∃ data, eyeLoop dtype n (numel [n, n]) _ _ = _ ∧ _) ↔ _
  rw [eyeLoop_eq hfits hbytes, hn]
  have hunit : ∀ {one zero}, encode R dtype (UInt64.ofNat one64) = some one → encode R dtype 0 = some zero →
      unitValue R dtype n.toNat = fun k => if k / n.toNat = k % n.toNat then some one else some zero := by
    intro one zero hone hzero
    refine funext fun k => ?_
    rw [unitValue, ← hone, ← hzero]
    split_ifs <;> rfl
  generalize n.toNat = N at *
  cases dtype with
  | float32 =>
    rw [hunit (by rw [encode, float32_one]) (by rw [encode, float32_zero])]
    refine (diagonal_same_iff (s := 4) (length_leBytes 4 _)).trans ((forall_diagonal_iff (by decide)).trans ?_)
    exact or_congr_right (iff_of_true (by decide) (by decide))
  | float64 =>
    rw [hunit rfl rfl]
    refine (diagonal_same_iff (s := 8) (length_leBytes 8 _)).trans ((forall_diagonal_iff (by decide)).trans ?_)
    exact or_congr_right (iff_of_true (by decide) (by decide))
  | complex64 =>
    rw [hunit (by rw [encode, float32_one]) (by rw [encode, float32_zero])]
    refine (diagonal_part_iff (c := 2) (m := 4) (length_leBytes 4 _) (by decide)).trans
      ((forall_diagonal_iff (by decide)).trans ?_)
    exact or_congr_right (iff_of_true (by decide) (by decide))
  | complex128 =>
    rw [hunit rfl rfl]
    refine (diagonal_part_iff (c := 4) (m := 4) (length_leBytes 4 _) (by decide)).trans
      ((forall_diagonal_iff (by decide)).trans ?_)
    exact or_congr_right (iff_of_false (by decide) (by decide))
  | int32 =>
    rw [hunit (show castInt 4 _ _ _ = some [1, 0, 0, 0] by decide) (castInt_zero 4 (by decide) (by decide))]
    refine (diagonal_same_iff (s := 4) (by decide)).trans ((forall_diagonal_iff (by decide)).trans ?_)
    exact or_congr_right (iff_of_false (by decide) (by decide))
  | int64 =>
    rw [hunit (show castInt 8 _ _ _ = some [1, 0, 0, 0, 0, 0, 0, 0] by decide)
      (castInt_zero 8 (by decide) (by decide))]
    refine (diagonal_same_iff (s := 8) (by decide)).trans ((forall_diagonal_iff (by decide)).trans ?_)
    exact or_congr_right (iff_of_false (by decide) (by decide))
  | float16 | bfloat16 | int16 =>
    exact (diagonal_larger_iff (s := 2) (length_leBytes 4 _) (by decide)).trans (or_iff_left (by decide)).symm
  | float8 | int8 | uint8 | bool =>
    exact (diagonal_larger_iff (s := 1) (length_leBytes 4 _) (by decide)).trans (or_iff_left (by decide)).symm

end Eye

/-! ## `randn` -/

section Randn

variable {gauss : ℕ → ℕ → UInt32 × UInt32} {n size : UInt64} {s : UInt64}

theorem draw_le (s : UInt64) : draw s ≤ 32767 := by
  rw [draw, UInt64.toNat_and]
  exact Nat.and_le_right

theorem sample_finite (hg : Gaussian gauss) (s : UInt64) (k : ℕ) : exponent32 (sample gauss s k) < 255 := by
  have hfinite := hg.finite _ (draw_le (lcgNext^[2 * (k / 2) + 1] s)) _ (draw_le (lcgNext^[2 * (k / 2) + 2] s))
  rw [sample]
  split_ifs
  · exact hfinite.1
  · exact hfinite.2

theorem sample_pair (gauss : ℕ → ℕ → UInt32 × UInt32) (s : UInt64) (j : ℕ) :
    (sample gauss s (2 * j), sample gauss s (2 * j + 1)) =
      gauss (draw (lcgNext (lcgNext^[2 * j] s))) (draw (lcgNext (lcgNext (lcgNext^[2 * j] s)))) := by
  unfold sample
  generalize lcgNext = next
  rw [← Function.iterate_succ_apply' next, ← Function.iterate_succ_apply' next, Nat.mul_div_cancel_left j (by decide),
    if_pos (Nat.mul_mod_right 2 j), show (2 * j + 1) / 2 = j by omega, if_neg (by omega)]

/-- The first `m` samples are stored; the generator has taken as many steps. -/
structure Sampled (gauss : ℕ → ℕ → UInt32 × UInt32) (s : UInt64) (n m : ℕ) (st : (ℕ → UInt8) × UInt64) : Prop where
  state : st.2 = lcgNext^[m] s
  items : ∀ k < m, k < n → item 4 st.1 k = leBytes 4 (sample gauss s k).toNat
  rest : ∀ k, m ≤ k ∨ n ≤ k → item 4 st.1 k = List.replicate 4 0

theorem Sampled.step {cells j : ℕ} {st : (ℕ → UInt8) × UInt64} (h : Sampled gauss s size.toNat (2 * j) st)
    (hj : 2 * j < size.toNat) (hcells : size.toNat * 4 ≤ cells) :
    ∃ st', randnRound gauss size cells j st = some st' ∧ Sampled gauss s size.toNat (2 * (j + 1)) st' := by
  have hpair := sample_pair gauss s j
  obtain ⟨d1, hd1, hnow1, hother1⟩ := exists_storeBytes (q := 2 * j) (length_leBytes 4 (sample gauss s (2 * j)).toNat)
    (show 2 * j * 4 + 4 ≤ cells by omega) st.1
  have hstate : lcgNext (lcgNext st.2) = lcgNext^[2 * (j + 1)] s := by
    rw [h.state]
    generalize lcgNext = next
    rw [← Function.iterate_succ_apply' next, ← Function.iterate_succ_apply' next, Nat.mul_succ]
  rw [← h.state] at hpair
  have hround : randnRound gauss size cells j st = (if 2 * j + 1 < size.toNat then
      storeBytes cells ((2 * j + 1) * 4) (leBytes 4 (sample gauss s (2 * j + 1)).toNat) d1 else some d1).map
        fun data => (data, lcgNext^[2 * (j + 1)] s) := by
    simp only [randnRound, ← hpair, hd1]
    rw [← hstate]
    rfl
  rw [hround]
  by_cases hlast : 2 * j + 1 < size.toNat
  · obtain ⟨d2, hd2, hnow2, hother2⟩ := exists_storeBytes (q := 2 * j + 1)
      (length_leBytes 4 (sample gauss s (2 * j + 1)).toNat) (show (2 * j + 1) * 4 + 4 ≤ cells by omega) d1
    refine ⟨(d2, lcgNext^[2 * (j + 1)] s), by rw [if_pos hlast, hd2, Option.map_some], rfl,
      fun k hk hkn => ?_, fun k hk => ?_⟩
    · rcases Nat.lt_or_ge k (2 * j) with hlt | hge
      · rw [hother2 k (by omega), hother1 k (by omega), h.items k hlt hkn]
      · obtain rfl | rfl : k = 2 * j ∨ k = 2 * j + 1 := by omega
        · rw [hother2 _ (by omega), hnow1]
        · exact hnow2
    · rw [hother2 k (by omega), hother1 k (by omega), h.rest k (by omega)]
  · refine ⟨(d1, lcgNext^[2 * (j + 1)] s), by rw [if_neg hlast, Option.map_some], rfl, fun k hk hkn => ?_, fun k hk => ?_⟩
    · rcases Nat.lt_or_ge k (2 * j) with hlt | hge
      · rw [hother1 k (by omega), h.items k hlt hkn]
      · obtain rfl : k = 2 * j := by omega
        exact hnow1
    · rw [hother1 k (by omega), h.rest k (by omega)]

/-- The samples are stored one after another. -/
theorem exists_randnLoop {cells : ℕ} (hcells : size.toNat * 4 ≤ cells) (s : UInt64) :
    ∃ r, randnLoop gauss size cells (fun _ => 0) s = some r ∧
      (∀ k < size.toNat, item 4 r.1 k = leBytes 4 (sample gauss s k).toNat) ∧
      ∀ k, size.toNat ≤ k → item 4 r.1 k = List.replicate 4 0 := by
  obtain ⟨r, hr, hsampled⟩ := exists_forLoop_eq_some (n := (size.toNat + 1) / 2) (f := randnRound gauss size cells)
    (a := (fun _ => 0, s)) (fun j st => Sampled gauss s size.toNat (2 * j) st)
    ⟨rfl, fun k hk => absurd hk (Nat.not_lt_zero k),
      fun k _ => item_replicate (n := k + 1) (fun _ _ => rfl) (Nat.lt_succ_self k)⟩
    fun j hj st h => h.step (by omega) hcells
  exact ⟨r, hr, fun k hk => hsampled.items k (by omega) hk, fun k hk => hsampled.rest k (Or.inr hk)⟩

/-- The last sample leaves the memory. -/
theorem randnLoop_eq_none {cells : ℕ} (hcells : cells < size.toNat * 4)
    (data : ℕ → UInt8) (s : UInt64) : randnLoop gauss size cells data s = none := by
  refine forLoop_eq_none (i := (size.toNat + 1) / 2 - 1) (by omega) (fun st => ?_) _
  simp only [randnRound]
  by_cases hodd : 2 * ((size.toNat + 1) / 2 - 1) + 1 < size.toNat
  · refine Option.bind_eq_none_iff.mpr fun d _ => ?_
    rw [if_pos hodd, storeBytes_eq_none (by rw [length_leBytes]; omega)]
    rfl
  · rw [storeBytes_eq_none (by rw [length_leBytes]; omega)]
    rfl

/-- The first bytes of an element are not those of the sample. -/
theorem take_encode_ne (R : Roundings) {x : UInt32} (hlo : 0 < exponent32 x) (hhi : exponent32 x ≤ 129)
    {dtype : Dtype} (hdtype : dtype ∈ [.float64, .int32, .int64, .complex128]) {bytes : List UInt8}
    (henc : encode R dtype (widen x) = some bytes) : bytes.take 4 ≠ leBytes 4 x.toNat := by
  have hfinite : exponent32 x < 255 := hhi.trans_lt (by decide)
  have htake : ∀ v, (leBytes 8 v).take 4 = leBytes 4 v := fun v => by
    rw [leBytes_add 4 4 v, List.take_left' (length_leBytes 4 v)]
  have hne : ∀ v, v % 2 ^ 32 ≠ x.toNat → leBytes 4 v ≠ leBytes 4 x.toNat := fun v hv heq => by
    have hmod := leBytes_inj heq
    rw [Nat.mod_eq_of_lt (show x.toNat < 256 ^ 4 from x.toNat_lt)] at hmod
    exact hv hmod
  simp only [List.mem_cons, List.not_mem_nil, or_false] at hdtype
  rcases hdtype with rfl | rfl | rfl | rfl
  · obtain rfl := Option.some.inj henc
    rw [htake]
    exact hne _ (toNat_widen_mod hlo hfinite)
  · obtain ⟨z, hz, henc⟩ := Option.bind_eq_some_iff.mp henc
    split_ifs at henc
    obtain rfl := Option.some.inj henc
    have hint := (emod_trunc_ne hlo hfinite hhi hz).1
    rw [List.take_of_length_le (by rw [length_leBytes])]
    refine hne _ ?_
    rwa [Nat.mod_eq_of_lt (by omega)]
  · obtain ⟨z, hz, henc⟩ := Option.bind_eq_some_iff.mp henc
    split_ifs at henc
    obtain rfl := Option.some.inj henc
    rw [htake]
    exact hne _ (emod_trunc_ne hlo hfinite hhi hz).2
  · obtain rfl := Option.some.inj henc
    rw [List.take_append_of_le_length (by rw [length_leBytes]; decide), htake]
    exact hne _ (toNat_widen_mod hlo hfinite)

/-- The samples from the initial state on. -/
theorem draw_initial : draw (lcgNext 123456789) = 3536 ∧ draw (lcgNext (lcgNext 123456789)) = 17195 := by decide

variable {h : Heap} {shape : List UInt64} {dtype : Dtype}

theorem tensorRandn_eq (gauss : ℕ → ℕ → UInt32 × UInt32) (s : UInt64) :
    ((tensorRandn gauss h shape dtype s).bind fun r => .ok r.1) =
      fillMemory (tensorCreate h shape dtype).1 (tensorCreate h shape dtype).2 fun cells data =>
        (randnLoop gauss (numel shape) cells data s).map Prod.fst := by
  rw [tensorRandn, fillMemory]
  cases memory (tensorCreate h shape dtype).1 (tensorCreate h shape dtype).2 with
  | none => rfl
  | some m =>
    change Outcome.bind (Outcome.ofOption ((randnLoop gauss (numel shape) m.1 m.2 s).bind _)) _ =
      Outcome.ofOption (((randnLoop gauss (numel shape) m.1 m.2 s).map Prod.fst).bind _)
    cases randnLoop gauss (numel shape) m.1 m.2 s <;> rfl

/-- Whatever the state of the generator is, the samples are the elements. -/
theorem randn_iff (R : Roundings) (hg : Gaussian gauss) (hzero : Zeroed h) :
    (∀ s, Fills ((tensorRandn gauss h shape dtype s).bind fun r => .ok r.1) shape dtype
      (fun k => encode R dtype (widen (sample gauss s k)))) ↔
      (extents shape).prod * dtype.size.toNat < 2 ^ 64 ∧
        ((extents shape).prod = 0 ∨ dtype = .float32 ∨ dtype = .complex64 ∧ (extents shape).prod = 1) := by
  simp only [tensorRandn_eq, fills_iff hzero]
  have hsize : (extents shape).prod * dtype.size.toNat < 2 ^ 64 → (numel shape).toNat = (extents shape).prod :=
    fun hfits => numel_toNat (Nat.lt_of_le_of_lt (Nat.le_mul_of_pos_right _ (size_pos dtype)) hfits)
  constructor
  · intro hall
    obtain ⟨hfits, data, hrun, hdata⟩ := hall 123456789
    refine ⟨hfits, or_iff_not_imp_left.mpr fun h0 => ?_⟩
    have hpos := Nat.pos_of_ne_zero h0
    have hroom : 4 ≤ dtype.size.toNat := by
      by_contra hlt
      rw [randnLoop_eq_none (by rw [hsize hfits]; exact Nat.mul_lt_mul_of_pos_left (not_le.mp hlt) hpos)] at hrun
      cases hrun
    have hcells : (numel shape).toNat * 4 ≤ (extents shape).prod * dtype.size.toNat := by
      rw [hsize hfits]
      exact Nat.mul_le_mul_left _ hroom
    obtain ⟨r, hr, hitems, -⟩ := @exists_randnLoop gauss _ _ hcells 123456789
    rw [hr] at hrun
    obtain rfl := Option.some.inj hrun
    rw [hsize hfits] at hitems
    have hpair := sample_pair gauss 123456789 0
    rw [Nat.mul_zero, Function.iterate_zero_apply, draw_initial.1, draw_initial.2] at hpair
    have hfirst : sample gauss 123456789 0 = (gauss 3536 17195).1 := congrArg Prod.fst hpair
    obtain ⟨hlo, hhi⟩ := hg.first 3536 (by decide) 17195 (by decide)
    rw [← hfirst] at hlo hhi
    have hother : ∀ c, 0 < c → dtype.size.toNat = c * 4 → dtype ∉ [.float64, .int32, .int64, .complex128] := by
      intro c hc hsize_eq hmem
      refine take_encode_ne R hlo hhi hmem (hdata 0 hpos) ?_
      have htake := take_drop_item (m := 4) hc r.1 0
      rwa [Nat.zero_mul, List.drop_zero, Nat.zero_mul, Nat.add_zero, hitems 0 hpos, ← hsize_eq] at htake
    cases dtype with
    | float32 => exact Or.inl rfl
    | complex64 =>
      refine Or.inr ⟨rfl, ?_⟩
      by_contra hne
      have htwo : 1 < (extents shape).prod := by omega
      have hsecond := take_drop_item (m := 4) (show 1 < 2 by decide) r.1 0
      have henc := Option.some.inj (hdata 0 hpos)
      have hzeros : (item (2 * 4) r.1 0).drop (1 * 4) = leBytes 4 0 := by
        refine (congrArg (List.drop (1 * 4)) henc.symm).trans ?_
        rw [Nat.one_mul, List.drop_left' (length_leBytes 4 _)]
      rw [hzeros, hitems _ htwo, List.take_of_length_le (by rw [length_leBytes])] at hsecond
      have hmod := leBytes_inj hsecond
      rw [Nat.mod_eq_of_lt (show (sample gauss 123456789 (0 * 2 + 1)).toNat < 256 ^ 4 from UInt32.toNat_lt _)] at hmod
      refine hg.second 3536 (by decide) 17195 (by decide) (by decide) ?_
      rw [← hpair]
      exact UInt32.toNat_inj.mp hmod.symm
    | float64 => exact absurd (by decide) (hother 2 (by decide) rfl)
    | int32 => exact absurd (by decide) (hother 1 (by decide) rfl)
    | int64 => exact absurd (by decide) (hother 2 (by decide) rfl)
    | complex128 => exact absurd (by decide) (hother 4 (by decide) rfl)
    | float8 | float16 | bfloat16 | int8 | int16 | uint8 | bool => exact absurd hroom (by decide)
  · rintro ⟨hfits, hcase⟩ s
    refine ⟨hfits, ?_⟩
    have hroom : (numel shape).toNat * 4 ≤ (extents shape).prod * dtype.size.toNat := by
      rw [hsize hfits]
      rcases hcase with h0 | rfl | ⟨rfl, -⟩
      · rw [h0, Nat.zero_mul, Nat.zero_mul]
      · exact le_rfl
      · exact Nat.mul_le_mul_left _ (by decide)
    obtain ⟨r, hr, hitems, hrest⟩ := @exists_randnLoop gauss _ _ hroom s
    rw [hsize hfits] at hitems hrest
    refine ⟨r.1, by rw [hr, Option.map_some], fun k hk => ?_⟩
    have hfloat := R.float32_widen _ (sample_finite hg s k)
    rcases hcase with h0 | rfl | ⟨rfl, hone⟩
    · omega
    · exact congrArg some ((congrArg (fun x => leBytes 4 (UInt32.toNat x)) hfloat).trans (hitems k hk).symm)
    · obtain rfl : k = 0 := by omega
      have hlow := take_drop_item (m := 4) (show 0 < 2 by decide) r.1 0
      have hhigh := take_drop_item (m := 4) (show 1 < 2 by decide) r.1 0
      rw [hitems _ (by omega), Nat.zero_mul, List.drop_zero] at hlow
      rw [hrest _ (by omega), List.take_of_length_le (by rw [List.length_drop, length_item])] at hhigh
      have hitem : item (2 * 4) r.1 0 = leBytes 4 (sample gauss s 0).toNat ++ List.replicate 4 0 := by
        rw [← List.take_append_drop 4 (item (2 * 4) r.1 0), hlow]
        exact congrArg (_ ++ ·) hhigh
      rw [encode, hfloat]
      exact congrArg some hitem.symm

end Randn

/-! ## The result -/

/-- Each constructor stays inside its tensor and gives every element the value in its type, if and only if the bytes can
be counted and the tensor is empty or has one of the constructor's types. -/
theorem constructors_fill_iff (R : Roundings) {gauss : ℕ → ℕ → UInt32 × UInt32} (hg : Gaussian gauss) {h : Heap}
    (hzero : Zeroed h) (dtype : Dtype) :
    (∀ shape, Fills (tensorOnes h shape dtype) shape dtype (fun _ => encode R dtype (UInt64.ofNat one64)) ↔
      (extents shape).prod * dtype.size.toNat < 2 ^ 64 ∧
        ((extents shape).prod = 0 ∨ dtype ∈ [.float32, .float64, .int8, .uint8, .bool])) ∧
    (∀ shape value, value.length = dtype.size.toNat →
      (Fills (tensorFull h shape dtype (some value)) shape dtype (fun _ => some value) ↔
        (extents shape).prod * dtype.size.toNat < 2 ^ 64)) ∧
    (∀ shape v, (encode R dtype v).isSome →
      (Fills (tensorFillScalar R (tensorCreate h shape dtype).1 (tensorCreate h shape dtype).2 v) shape dtype
        (fun _ => encode R dtype v) ↔
      (extents shape).prod * dtype.size.toNat < 2 ^ 64 ∧
        ((extents shape).prod = 0 ∨ dtype ∈ [.float32, .float64, .int32, .int64, .int16, .int8, .uint8, .bool] ∨
          dtype = .complex64 ∧ R.float32 v = 0 ∨ dtype = .complex128 ∧ v = 0))) ∧
    (∀ n, Fills (tensorEye h n dtype) [n, n] dtype (unitValue R dtype n.toNat) ↔
      n.toNat * n.toNat * dtype.size.toNat < 2 ^ 64 ∧ (n = 0 ∨ dtype ∈ [.float32, .float64, .complex64])) ∧
    ∀ shape, (∀ s, Fills ((tensorRandn gauss h shape dtype s).bind fun r => .ok r.1) shape dtype
        (fun k => encode R dtype (widen (sample gauss s k)))) ↔
      (extents shape).prod * dtype.size.toNat < 2 ^ 64 ∧
        ((extents shape).prod = 0 ∨ dtype = .float32 ∨ dtype = .complex64 ∧ (extents shape).prod = 1) :=
  ⟨fun _ => ones_iff hzero R, fun _ _ hvalue => full_iff hzero hvalue, fun _ _ hv => fillScalar_iff hzero R hv,
    fun n => eye_iff hzero R n, fun _ => randn_iff R hg hzero⟩

/-- The two numbers that the generator gives from its initial state on. -/
def initialGauss (_ _ : ℕ) : UInt32 × UInt32 := (0xc0056b6e, 0xbea77169)

theorem initialGauss_gaussian : Gaussian initialGauss where
  finite _ _ _ _ := show exponent32 0xc0056b6e < 255 ∧ exponent32 0xbea77169 < 255 by decide
  first _ _ _ _ := show 0 < exponent32 0xc0056b6e ∧ exponent32 0xc0056b6e ≤ 129 by decide
  second _ _ _ _ _ := show (0xbea77169 : UInt32) ≠ 0 by decide

/-- A heap without storages, whose new memory is zeros. -/
def zeroHeap : Heap := ⟨fun _ => none, 0, fun _ _ => 0⟩

/-- Tensors of floats. -/
theorem constructors_fill_iff_floats :
    Fills (tensorOnes zeroHeap [2, 3] .float32) [2, 3] .float32
        (fun _ => encode cutting .float32 (UInt64.ofNat one64)) ∧
      Fills (tensorFull zeroHeap [2, 3] .float32 (some [0, 0, 0, 64])) [2, 3] .float32 (fun _ => some [0, 0, 0, 64]) ∧
      Fills (tensorEye zeroHeap 2 .float32) [2, 2] .float32 (unitValue cutting .float32 2) ∧
      Fills ((tensorRandn initialGauss zeroHeap [1] .float32 123456789).bind fun r => .ok r.1) [1] .float32
        (fun k => encode cutting .float32 (widen (sample initialGauss 123456789 k))) := by
  obtain ⟨hones, hfull, -, heye, hrandn⟩ :=
    constructors_fill_iff cutting initialGauss_gaussian (h := zeroHeap) (fun _ _ => rfl) .float32
  exact ⟨(hones _).mpr ⟨by decide, by decide⟩, (hfull _ _ rfl).mpr (by decide), (heye 2).mpr ⟨by decide, by decide⟩,
    (hrandn [1]).mpr ⟨by decide, by decide⟩ 123456789⟩

/-- Ones of 16 bits, as floats and as integers; a unit matrix of integers; random doubles. -/
theorem not_fills_types :
    ¬Fills (tensorOnes zeroHeap [1] .float16) [1] .float16 (fun _ => encode cutting .float16 (UInt64.ofNat one64)) ∧
      ¬Fills (tensorOnes zeroHeap [1] .int16) [1] .int16 (fun _ => encode cutting .int16 (UInt64.ofNat one64)) ∧
      ¬Fills (tensorEye zeroHeap 1 .int32) [1, 1] .int32 (unitValue cutting .int32 1) ∧
      ¬∀ s, Fills ((tensorRandn initialGauss zeroHeap [1] .float64 s).bind fun r => .ok r.1) [1] .float64
        (fun k => encode cutting .float64 (widen (sample initialGauss s k))) := by
  have hzero : Zeroed zeroHeap := fun _ _ => rfl
  refine ⟨fun h => ?_, fun h => ?_, fun h => ?_, fun h => ?_⟩
  · exact absurd ((ones_iff hzero cutting).mp h).2 (by decide)
  · exact absurd ((ones_iff hzero cutting).mp h).2 (by decide)
  · exact absurd ((eye_iff hzero cutting 1).mp h).2 (by decide)
  · exact absurd ((randn_iff cutting initialGauss_gaussian hzero).mp h).2 (by decide)

end SneppxAlg.TensorEngine
