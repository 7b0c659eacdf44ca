import SneppxAlg.Lib.AddingLoops
import SneppxAlg.Lib.RowMajor
import SneppxAlg.Npe.Vm

/-!
# The kernels on matrices

A matrix is a tensor of two dimensions whose cells are its rows, one after the other. Where the
arithmetic is exact and the allocator has room for the result, `tensor_matmul`, `tensor_add` with a
bias and `tensor_relu` are the operations on matrices. `tensor_matmul` does not compare the inner
extents: of a right operand with more rows it takes the first ones (`tensorMatmul_ofMatrix`), and
of one with fewer it reads past the end (`tensorMatmul_short`).
-/

namespace SneppxAlg.Npe

open Lib.RowMajor Lib.AddingLoops

variable {F : Type} {m n k : ℕ}

/-! ## Tensors that hold matrices -/

def ofMatrix (A : Matrix (Fin m) (Fin n) F) : Tensor F := ⟨[m, n], m * n, rowMajor A⟩

theorem ofMatrix_injective : Function.Injective (ofMatrix : Matrix (Fin m) (Fin n) F → _) :=
  fun _ _ h => rowMajor_injective (congrArg Tensor.data h)

theorem ofMatrix_get (A : Matrix (Fin m) (Fin n) F) (i : Fin m) (j : Fin n) :
    (ofMatrix A).get (i * n + j) = some (A i j) := getElem?_rowMajor A i j

/-- The allocator has room for `n` cells. -/
def Grants (env : Env F) (n : ℕ) : Prop := ∃ l, env.alloc n = some l

variable {env : Env F}

theorem Grants.lt (h : Grants env n) : n < 2 ^ 61 := by
  obtain ⟨l, hl⟩ := h
  by_contra hn
  rw [env.alloc_large n (not_lt.mp hn)] at hl
  cases hl

theorem tensorCreate_eq {shape : List ℕ} (hs : shape.prod = n) (h : Grants env n) :
    ∃ l, l.length = n ∧ tensorCreate env shape = some ⟨shape, n, l⟩ := by
  have hfold (t : ℕ) (ht : t < 2 ^ 64) :
      shape.foldl (fun total d => total * d % 2 ^ 64) t = t * shape.prod % 2 ^ 64 := by
    clear hs
    induction shape generalizing t with
    | nil => simpa using (Nat.mod_eq_of_lt ht).symm
    | cons d shape ih =>
      rw [List.foldl_cons, ih _ (Nat.mod_lt _ (by norm_num)), List.prod_cons, Nat.mod_mul_mod,
        Nat.mul_assoc]
  have hlt := h.lt
  obtain ⟨l, hl⟩ := h
  refine ⟨l, env.alloc_length n l hl, ?_⟩
  have htotal : shape.foldl (fun total d => total * d % 2 ^ 64) 1 = n := by
    rw [hfold 1 (by norm_num), Nat.one_mul, hs, Nat.mod_eq_of_lt (by omega)]
  have hbytes : n * 4 % 2 ^ 64 / 4 = n := by omega
  simp only [tensorCreate, htotal, hbytes, hl, Option.map_some]

theorem fill_eq {shape : List ℕ} {l values : List F} (hl : l.length = n)
    (hv : values.length = n) : fill ⟨shape, n, l⟩ values = some (some ⟨shape, n, values⟩) := by
  rw [fill, if_pos (by simp [hl, hv]), List.drop_of_length_le (by simp [hl, hv]), List.append_nil]

theorem build_eq {shape : List ℕ} {values : List F} (hs : shape.prod = n) (h : Grants env n)
    (hv : values.length = n) :
    build env shape (some values) = some (some ⟨shape, n, values⟩) := by
  obtain ⟨l, hl, hc⟩ := tensorCreate_eq hs h
  simp only [build, hc, Option.bind_some, fill_eq hl hv]

theorem buildZeros_eq {shape : List ℕ} (hs : shape.prod = n) (h : Grants env n)
    (values : Option (List F)) (hv : ∀ v, values = some v → v.length = n) :
    buildZeros env shape values = values.map fun v => some ⟨shape, n, v⟩ := by
  obtain ⟨l, hl, hc⟩ := tensorCreate_eq hs h
  have hzeros : fill ⟨shape, n, l⟩ (List.replicate n (env.lit 0)) = _ :=
    fill_eq hl List.length_replicate
  simp only [buildZeros, hc, hzeros]
  cases values with
  | none => rfl
  | some v => simpa using fill_eq hl (hv v rfl)

theorem build_ofMatrix {A : Matrix (Fin m) (Fin n) F} (h : Grants env (m * n)) :
    build env [m, n] (some (rowMajor A)) = some (some (ofMatrix A)) :=
  build_eq (by simp) h (length_rowMajor A)

theorem forRange_get {t : Tensor F} (ht : t.data.length = t.size) :
    forRange t.size t.get = some t.data := by
  have h : forRange t.data.length t.get = some (List.ofFn t.data.get) :=
    mapM_range fun i => by simp [Tensor.get]
  rw [← ht, h, List.ofFn_get]

theorem copyTensor_ofMatrix (A : Matrix (Fin m) (Fin n) F) (h : Grants env (m * n)) :
    copyTensor env (ofMatrix A) = some (some (ofMatrix A)) := by
  rw [copyTensor, forRange_get (t := ofMatrix A) (length_rowMajor A)]
  exact build_ofMatrix h

/-- One cell of the product, with the reads that `tensor_matmul` makes. -/
def productCell {k' : ℕ} (env : Env F) (A : Matrix (Fin m) (Fin k) F)
    (B : Matrix (Fin k') (Fin n) F) (i j : ℕ) : Option F :=
  accumulate k (env.lit 0) fun x l => do
    some (env.add x (env.mul (← (ofMatrix A).get (i * k + l)) (← (ofMatrix B).get (l * n + j))))

theorem tensorMatmul_eq {k' : ℕ} (A : Matrix (Fin m) (Fin k) F) (B : Matrix (Fin k') (Fin n) F) :
    tensorMatmul env (ofMatrix A) (ofMatrix B) =
      buildZeros env [m, n] (forRange2 m n (productCell env A B)) := rfl

/-- **A product whose right operand has too few rows is undefined**: it reads past the end. -/
theorem tensorMatmul_short {k' : ℕ} (hk : k' < k) (hm : 0 < m) (hn : 0 < n)
    (A : Matrix (Fin m) (Fin k) F) (B : Matrix (Fin k') (Fin n) F) (h : Grants env (m * n)) :
    tensorMatmul env (ofMatrix A) (ofMatrix B) = none := by
  have hread : (ofMatrix B).get (k' * n) = none := by
    rw [Tensor.get, List.getElem?_eq_none (by simp [ofMatrix])]
  have hcell : productCell env A B 0 0 = none :=
    forLoop_eq_none (f := fun l x => do
      some (env.add x (env.mul (← (ofMatrix A).get (0 * k + l)) (← (ofMatrix B).get (l * n + 0)))))
      hk (fun x => by simp [hread]) (env.lit 0)
  have hvalues : forRange2 m n (productCell env A B) = none :=
    Option.map_eq_none_iff.mpr (mapM_range_eq_none hm (mapM_range_eq_none hn hcell))
  rw [tensorMatmul_eq, hvalues, buildZeros_eq (by simp) h _ (by simp), Option.map_none]

section Exact

variable [Semiring F] [LinearOrder F]

/-- Sums, products and comparisons of floats are those of an ordered semiring. -/
structure Env.Exact (env : Env F) : Prop where
  lit_zero : env.lit 0 = 0
  add : ∀ x y, env.add x y = x + y
  mul : ∀ x y, env.mul x y = x * y
  gt : ∀ x y, env.gt x y = decide (y < x)

variable (hex : env.Exact)
include hex

theorem productCell_eq {k' : ℕ} (hk : k ≤ k') (A : Matrix (Fin m) (Fin k) F)
    (B : Matrix (Fin k') (Fin n) F) (i : Fin m) (j : Fin n) :
    productCell env A B i j = some ((A * B.submatrix (Fin.castLE hk) id) i j) := by
  have hsum := foldlM_range_add (R := F)
    (f := fun x l => do
      some (env.add x (env.mul (← (ofMatrix A).get (i * k + l)) (← (ofMatrix B).get (l * n + j)))))
    (g := fun l => A i l * B (Fin.castLE hk l) j)
    (fun l x => by
      have hB := ofMatrix_get B (Fin.castLE hk l) j
      rw [Fin.val_castLE] at hB
      simp [ofMatrix_get A i l, hB, hex.add, hex.mul]) (env.lit 0)
  rw [productCell, accumulate, hsum, hex.lit_zero, zero_add, Matrix.mul_apply]
  rfl

/-- **The product takes as many rows of the right operand as the left one has columns.** -/
theorem tensorMatmul_ofMatrix {k' : ℕ} (hk : k ≤ k') (A : Matrix (Fin m) (Fin k) F)
    (B : Matrix (Fin k') (Fin n) F) (hroom : Grants env (m * n)) :
    tensorMatmul env (ofMatrix A) (ofMatrix B) =
      some (some (ofMatrix (A * B.submatrix (Fin.castLE hk) id))) := by
  have hvalues : forRange2 m n (productCell env A B) =
      some (rowMajor (A * B.submatrix (Fin.castLE hk) id)) :=
    mapM_range_rows (productCell_eq hex hk A B)
  rw [tensorMatmul_eq, hvalues, buildZeros_eq (by simp) hroom]
  · rfl
  · rintro v ⟨⟩
    exact length_rowMajor _

end Exact

end SneppxAlg.Npe
