import SneppxAlg.Npe.Compiler

/-!
# When the emitted attention is attention

The program that `compile_attention` emits multiplies the queries by the matrix of the keys as it
lies in memory, not by its transpose, and `tensor_matmul` compares no extents. With more dimensions
than positions the product reads past the end of the keys. Otherwise only as many keys and values
take part as there are dimensions: the last values never do when there are more positions
(`compiled`). So the program computes attention for all queries and values exactly when there are
as many positions as dimensions and the matrix of the keys is symmetric.
-/

namespace SneppxAlg.Npe

open Lib.RowMajor

/-! ## Softmax of real matrices -/

section Softmax

variable {m n : ℕ} {env : Env ℝ}

/-- The floats are the real numbers. -/
structure Env.Real (env : Env ℝ) : Prop extends env.Exact where
  sub : ∀ x y, env.sub x y = x - y
  div : ∀ x y, env.div x y = x / y
  exp : ∀ x, env.exp x = Real.exp x

noncomputable def softmaxRows (S : Matrix (Fin m) (Fin n) ℝ) : Matrix (Fin m) (Fin n) ℝ :=
  Matrix.of fun i j => Real.exp (S i j) / ∑ k, Real.exp (S i k)

theorem sum_exp_pos (S : Matrix (Fin m) (Fin n) ℝ) (i : Fin m) (j : Fin n) :
    0 < ∑ k, Real.exp (S i k) :=
  Finset.sum_pos (fun _ _ => Real.exp_pos _) ⟨j, Finset.mem_univ j⟩

theorem softmaxRows_pos (S : Matrix (Fin m) (Fin n) ℝ) (i : Fin m) (j : Fin n) :
    0 < softmaxRows S i j :=
  div_pos (Real.exp_pos _) (sum_exp_pos S i j)

/-- A row is determined by its softmax and one of its entries. -/
theorem eq_of_softmaxRows_eq {S T : Matrix (Fin m) (Fin n) ℝ} (h : softmaxRows S = softmaxRows T)
    {i : Fin m} {j₀ : Fin n} (h₀ : S i j₀ = T i j₀) (j : Fin n) : S i j = T i j := by
  have hsums : ∑ k, Real.exp (S i k) = ∑ k, Real.exp (T i k) := by
    have hj₀ : softmaxRows S i j₀ = softmaxRows T i j₀ := by rw [h]
    rw [softmaxRows, softmaxRows, Matrix.of_apply, Matrix.of_apply, h₀] at hj₀
    rw [div_eq_div_iff (sum_exp_pos S i j₀).ne' (sum_exp_pos T i j₀).ne'] at hj₀
    exact (mul_left_cancel₀ (Real.exp_pos _).ne' hj₀).symm
  have hj : softmaxRows S i j = softmaxRows T i j := by rw [h]
  rw [softmaxRows, softmaxRows, Matrix.of_apply, Matrix.of_apply, hsums,
    div_left_inj' (sum_exp_pos T i j).ne'] at hj
  exact Real.exp_injective hj

/-- The loop that looks for the maximum of a row ends. -/
theorem exists_foldlM_eq_some {α β : Type} {f : β → α → Option β} {l : List α}
    (h : ∀ b, ∀ a ∈ l, ∃ b', f b a = some b') (b : β) : ∃ b', l.foldlM f b = some b' := by
  induction l generalizing b with
  | nil => exact ⟨b, rfl⟩
  | cons a l ih =>
    obtain ⟨b', hb'⟩ := h b a List.mem_cons_self
    obtain ⟨c, hc⟩ := ih (fun b a ha => h b a (List.mem_cons_of_mem _ ha)) b'
    exact ⟨c, by rw [List.foldlM_cons, hb']; exact hc⟩

/-- One row of `tensor_softmax`: the shift by the maximum cancels. -/
theorem softmaxRow_eq (henv : env.Real) (hn : 0 < n) {row : ℕ → Option ℝ} {x : Fin n → ℝ}
    (hrow : ∀ j : Fin n, row j = some (x j)) :
    softmaxRow env n row =
      some (List.ofFn fun j => Real.exp (x j) / ∑ k, Real.exp (x k)) := by
  obtain ⟨m, hm⟩ := exists_foldlM_eq_some (l := List.range' 1 (n - 1))
    (f := fun m i => (row i).map fun x => if env.gt x m then x else m)
    (fun b i hi => by
      have hlt : i < n := by simp [List.mem_range'_1] at hi; omega
      exact ⟨_, by rw [show row i = _ from hrow ⟨i, hlt⟩]; rfl⟩) (x ⟨0, hn⟩)
  have hshift : forRange n (fun i => (row i).map fun x => env.exp (env.sub x m)) =
      some (List.ofFn fun j => Real.exp (x j - m)) :=
    mapM_range fun j => by rw [hrow, Option.map_some, henv.sub, henv.exp]
  have hsum : (List.ofFn fun j => Real.exp (x j - m)).foldl env.add (env.lit 0) =
      ∑ k, Real.exp (x k - m) := by
    rw [show env.add = (· + ·) from funext₂ henv.add, henv.lit_zero, ← List.sum_eq_foldl,
      List.sum_ofFn]
  rw [softmaxRow, show row 0 = _ from hrow ⟨0, hn⟩]
  simp only [Option.bind_eq_bind, Option.bind_some, hm, hshift, hsum, List.map_ofFn,
    Option.some.injEq]
  congr 1
  funext j
  simp only [Function.comp_apply, henv.div, Real.exp_sub, ← Finset.sum_div]
  rw [div_div_div_cancel_right₀ (Real.exp_pos m).ne']

theorem tensorSoftmax_ofMatrix (henv : env.Real) (hn : 0 < n) (S : Matrix (Fin m) (Fin n) ℝ)
    (hroom : Grants env (m * n)) :
    tensorSoftmax env (ofMatrix S) = some (some (ofMatrix (softmaxRows S))) := by
  have hrows : (forRange m fun o => softmaxRow env n fun i => (ofMatrix S).get (o * n + i)) =
      some (List.ofFn fun i => List.ofFn (softmaxRows S i)) :=
    mapM_range fun i => softmaxRow_eq henv hn fun j => ofMatrix_get S i j
  have hlast : (ofMatrix S).dim ((ofMatrix S).ndim - 1) = some n := rfl
  have houter : (ofMatrix S).size / n = m := Nat.mul_div_cancel m hn
  rw [tensorSoftmax, tensorRows, if_neg (by simp [Tensor.ndim, ofMatrix]), hlast]
  simp only [Option.bind_eq_bind, Option.bind_some, hn.ne', if_false, houter, hrows,
    Option.map_some]
  exact build_ofMatrix hroom

end Softmax

/-! ## What the program computes -/

section Attention

variable {seqLen dim : ℕ} {env : Env ℝ} {mem : List ℝ} {stepLimit : ℕ} {input : Tensor ℝ}

/-- `softmax(Q Kᵀ) V`. -/
noncomputable def attention (Q K V : Matrix (Fin seqLen) (Fin dim) ℝ) :
    Matrix (Fin seqLen) (Fin dim) ℝ :=
  softmaxRows (Q * K.transpose) * V

/-- As many rows as there are dimensions. -/
def firstRows (h : dim ≤ seqLen) (K : Matrix (Fin seqLen) (Fin dim) ℝ) :
    Matrix (Fin dim) (Fin dim) ℝ := K.submatrix (Fin.castLE h) id

/-- What the emitted program computes. -/
noncomputable def compiled (h : dim ≤ seqLen) (Q K V : Matrix (Fin seqLen) (Fin dim) ℝ) :
    Matrix (Fin seqLen) (Fin dim) ℝ :=
  softmaxRows (Q * firstRows h K) * firstRows h V

/-- The memory of the emitted program starts with the queries, the keys and the values. -/
structure InMemory (Q K V : Matrix (Fin seqLen) (Fin dim) ℝ) (mem : List ℝ) : Prop where
  length_mem : mem.length = 65536
  held : rowMajor Q ++ rowMajor K ++ rowMajor V <+: mem

/-- A run of the emitted program returns the given tensor. -/
def Returns (env : Env ℝ) (stepLimit seqLen dim : ℕ) (mem : List ℝ) (input out : Tensor ℝ) :
    Prop :=
  ∃ res, Program.run env { compileAttention env seqLen dim with mem := mem } stepLimit input =
    some res ∧ res.output = some out

theorem Returns.unique {out out' : Tensor ℝ} (h : Returns env stepLimit seqLen dim mem input out)
    (h' : Returns env stepLimit seqLen dim mem input out') : out = out' := by
  obtain ⟨res, hr, ho⟩ := h
  obtain ⟨res', hr', ho'⟩ := h'
  obtain rfl := Option.some.inj (hr.symm.trans hr')
  exact Option.some.inj (ho.symm.trans ho')

section Positive

variable {Q K V : Matrix (Fin seqLen) (Fin dim) ℝ} (hseq : 0 < seqLen) (hdim : 0 < dim)
  (hheld : InMemory Q K V mem) (hroom : Grants env (seqLen * dim))
include hseq hdim hheld hroom

theorem straight_loads : Straight env mem [input] ((attentionCode seqLen dim).take 3)
    [input, ofMatrix Q, ofMatrix K, ofMatrix V] := by
  obtain ⟨rest, hrest⟩ := hheld.held
  have hlen : mem.length < 2 ^ 31 := by have := hheld.length_mem; omega
  refine .cons (computes_loadMatrix Q [] rfl rfl rfl rfl rfl rfl hseq hdim
    (by simpa using hrest.symm) rfl hlen hroom) ?_
  refine .cons (computes_loadMatrix K (rowMajor Q) rfl rfl rfl rfl rfl rfl
    hseq hdim (by simpa using hrest.symm) (by simp) hlen hroom) ?_
  refine .cons (computes_loadMatrix V (rowMajor Q ++ rowMajor K)
    rfl rfl rfl rfl rfl rfl hseq hdim (by simpa using hrest.symm)
    (by simp [Nat.two_mul, Nat.add_mul]) hlen hroom) ?_
  exact .nil _

/-- With more dimensions than positions the first product is undefined. -/
theorem run_eq_none (hlt : seqLen < dim) (hinput : copyTensor env input = some (some input))
    (hsteps : 6 ≤ stepLimit) :
    Program.run env { compileAttention env seqLen dim with mem := mem } stepLimit input = none :=
  run_straight_eq_none (straight_loads hseq hdim hheld hroom)
    (exec_matmul_eq_none (a := 1) (b := 2) rfl rfl rfl rfl rfl rfl
      (tensorMatmul_short hlt hseq hdim Q K hroom)) hinput
    (show 3 < stepLimit by omega)

/-- **Otherwise the program takes as many keys and values as there are dimensions, and does not
transpose the keys.** -/
theorem returns_compiled (henv : env.Real) (hle : dim ≤ seqLen)
    (hinput : copyTensor env input = some (some input)) (hsteps : 6 ≤ stepLimit) :
    Returns env stepLimit seqLen dim mem input (ofMatrix (compiled hle Q K V)) := by
  have hsize : 3 * (seqLen * dim) ≤ 65536 := by
    have hle := hheld.held.length_le
    simp only [List.length_append, length_rowMajor, hheld.length_mem] at hle
    omega
  have himm : (BitVec.ofNat 32 (2 * seqLen * dim)).toNat < 2 ^ 29 := by
    rw [BitVec.toNat_ofNat, Nat.mul_assoc]
    omega
  have hrest : Straight env mem [input, ofMatrix Q, ofMatrix K, ofMatrix V]
      (((attentionCode seqLen dim).drop 3).take 3) [input, ofMatrix Q, ofMatrix K, ofMatrix V,
        ofMatrix (Q * firstRows hle K), ofMatrix (softmaxRows (Q * firstRows hle K)),
        ofMatrix (compiled hle Q K V)] := by
    refine .cons (computes_matmul (a := 1) (b := 2) rfl rfl rfl rfl rfl rfl rfl himm
      (tensorMatmul_ofMatrix henv.toExact hle Q K hroom)) ?_
    refine .cons (computes_unary (fun _ => rfl) rfl rfl rfl rfl
      (tensorSoftmax_ofMatrix henv hdim _ hroom)) ?_
    refine .cons (computes_matmul (a := 5) (b := 3) rfl rfl rfl rfl rfl rfl rfl himm
      (tensorMatmul_ofMatrix henv.toExact hle _ V hroom)) ?_
    exact .nil _
  refine run_straight ((straight_loads hseq hdim hheld hroom).append hrest) (d := 6) rfl rfl rfl
    rfl rfl ?_ ?_ hinput (copyTensor_ofMatrix _ hroom) hsteps
  · simp [ofMatrix]
  · have hlt : seqLen * dim < 2 ^ 61 := hroom.lt
    rw [show toSize _ = 3 * seqLen * dim from
      toSize_ofNat (by rw [Nat.mul_assoc]; omega), Nat.mul_assoc]
    simp only [ofMatrix]
    omega

end Positive

/-! ## No positions or no dimensions -/

section Empty

variable (hempty : seqLen = 0 ∨ dim = 0) (hmem : mem.length = 65536)
  (hroom : ∀ n ≤ 65536, Grants env n) (hinput : copyTensor env input = some (some input))
  (hsteps : 6 ≤ stepLimit)

def firstLoad (seqLen dim : ℕ) : Instr :=
  { zeroInstr with
    opcode := .load, destReg := 1, immediate := 0
    shapeA0 := BitVec.ofNat 32 seqLen, shapeA1 := BitVec.ofNat 32 dim }

include hmem hinput hsteps in
/-- A `LOAD` that does not fit the memory stops the machine, which returns its input. -/
theorem returns_input (hz : 65536 < loadSize (firstLoad seqLen dim)) :
    Returns env stepLimit seqLen dim mem input input := by
  have hlt := loadSize_lt_word (firstLoad seqLen dim)
  have haddr : toSize (firstLoad seqLen dim).immediate = 0 := rfl
  have hx : exec env (holding [input] mem 0) (firstLoad seqLen dim) =
      some (holding [input] mem 0, true) :=
    exec_load_refused (d := 1) rfl rfl (by simp) (by rw [haddr, hmem]; omega)
  obtain ⟨n, rfl⟩ := Nat.exists_eq_add_of_le' hsteps
  have hloop : loop env (attentionCode seqLen dim) (n + 6) (holding [input] mem 0) =
      some (holding [input] mem 0, false) :=
    (loop_succ rfl hx _).trans (if_pos (by simp))
  refine ⟨⟨some input, 0, holding [input] mem 0⟩, ?_, rfl⟩
  simp only [Program.run, run, compileAttention, Program.create, start_holding hinput,
    Option.bind_eq_bind, Option.bind_some, hloop]
  exact finish_holding (d := 0) rfl rfl rfl hinput false

include hempty hmem hroom hinput hsteps in
/-- Otherwise a run is undefined: the copy goes past an empty block, or a product asks a vector for
its second extent. -/
theorem run_eq_none_of_empty (hz : loadSize (firstLoad seqLen dim) ≤ 65536) :
    Program.run env { compileAttention env seqLen dim with mem := mem } stepLimit input = none := by
  have hprod : seqLen * dim = 0 := Nat.mul_eq_zero.mpr hempty
  by_cases hA1 : 0 < (BitVec.ofNat 32 dim).toInt
  · have hseq : seqLen = 0 := hempty.resolve_right fun h => by simp [h] at hA1
    have hshape : loadShape (firstLoad seqLen dim) = [0, toSize (BitVec.ofNat 32 dim)] := by
      rw [hseq]
      exact if_pos hA1
    refine run_straight_eq_none (.nil [input]) (exec_load_eq_none (d := 1) (n := 0) rfl rfl
      (by simp) ?_ hshape (by simp) (hroom 0 (by simp)) ?_) hinput (by simp; omega)
    · have haddr : toSize (firstLoad seqLen dim).immediate = 0 := rfl
      rw [haddr, hmem]
      omega
    · have hA0 : ¬ 0 < (firstLoad seqLen dim).shapeA0.toInt := by
        rw [hseq]
        exact show ¬ 0 < (BitVec.ofNat 32 0).toInt by decide
      have hA1' : 0 < (firstLoad seqLen dim).shapeA1.toInt := hA1
      obtain ⟨hsize, hpos⟩ := toSize_of_pos hA1
      have hlt := (BitVec.ofNat 32 dim).isLt
      rw [loadSize, if_neg hA0, if_pos hA1', Nat.one_mul,
        show toSize (firstLoad seqLen dim).shapeA1 = _ from hsize]
      omega
  · have hshape : loadShape (firstLoad seqLen dim) = [loadSize (firstLoad seqLen dim)] := if_neg hA1
    have hload (ts : List (Tensor ℝ)) (d : Fin 16) (inst : Instr) (hop : inst.opcode = .load)
        (hreg : reg inst.destReg = some d) (hd : (d : ℕ) = ts.length)
        (haddr : inst.immediate = 0) (hs0 : inst.shapeA0 = BitVec.ofNat 32 seqLen)
        (hs1 : inst.shapeA1 = BitVec.ofNat 32 dim) : Computes env mem ts inst
          ⟨[loadSize (firstLoad seqLen dim)], loadSize (firstLoad seqLen dim),
            mem.take (loadSize (firstLoad seqLen dim))⟩ := by
      have hsize : loadSize inst = loadSize (firstLoad seqLen dim) := by
        rw [loadSize, loadSize, hs0, hs1]
        rfl
      refine computes_load 0 _ hop hreg hd (by rw [haddr]; rfl) hsize ?_ (by simp)
        (hroom _ hz) (by omega) rfl (by omega)
      rw [loadShape, hsize, if_neg (by rwa [hs1])]
    have himm : BitVec.ofNat 32 (seqLen * dim) = 0 := by rw [hprod]; rfl
    have himm2 : BitVec.ofNat 32 (2 * seqLen * dim) = 0 := by rw [Nat.mul_assoc, hprod]; rfl
    have hloads : Straight env mem [input] ((attentionCode seqLen dim).take 3) _ :=
      .cons (hload _ 1 _ rfl rfl rfl rfl rfl rfl) <|
        .cons (hload _ 2 _ rfl rfl rfl himm rfl rfl) <|
          .cons (hload _ 3 _ rfl rfl rfl himm2 rfl rfl) <| .nil _
    exact run_straight_eq_none hloads
      (exec_matmul_eq_none (a := 1) (b := 2) rfl rfl rfl rfl rfl rfl rfl) hinput
      (show 3 < stepLimit by omega)

end Empty

/-! ## The condition -/

/-- The entries on either side of the diagonal agree. -/
def Symmetric (K : Matrix (Fin seqLen) (Fin dim) ℝ) : Prop :=
  ∀ (i : Fin seqLen) (j : Fin dim) (i' : Fin seqLen) (j' : Fin dim),
    (i : ℕ) = j' → (j : ℕ) = i' → K i j = K i' j'

/-- A memory that holds three matrices. -/
theorem exists_inMemory (Q K V : Matrix (Fin seqLen) (Fin dim) ℝ)
    (hfit : 3 * seqLen * dim ≤ 65536) : ∃ mem, InMemory Q K V mem := by
  refine ⟨rowMajor Q ++ rowMajor K ++ rowMajor V ++
    List.replicate (65536 - 3 * seqLen * dim) 0, ?_, List.prefix_append _ _⟩
  simp only [List.length_append, length_rowMajor, List.length_replicate]
  rw [Nat.mul_assoc] at hfit ⊢
  omega

theorem firstRows_self (K : Matrix (Fin dim) (Fin dim) ℝ) : firstRows le_rfl K = K := rfl

/-- The last values do not take part when there are more positions than dimensions. -/
theorem eq_of_compiled_eq {K : Matrix (Fin seqLen) (Fin dim) ℝ} (hdim : 0 < dim)
    (hle : dim ≤ seqLen) (h : ∀ Q V, compiled hle Q K V = attention Q K V) : seqLen = dim := by
  by_contra hne
  have hlt : dim < seqLen := by omega
  let V : Matrix (Fin seqLen) (Fin dim) ℝ := Matrix.of fun i _ => if (i : ℕ) = dim then 1 else 0
  have hV : firstRows hle V = 0 := by
    ext i j
    simp [firstRows, V, i.isLt.ne]
  have hsum : attention K K V ⟨0, by omega⟩ ⟨0, hdim⟩ =
      softmaxRows (K * K.transpose) ⟨0, by omega⟩ ⟨dim, hlt⟩ := by
    rw [attention, Matrix.mul_apply, Finset.sum_eq_single ⟨dim, hlt⟩]
    · simp [V]
    · intro k _ hk
      have hk' : ¬ (k : ℕ) = dim := fun h => hk (Fin.ext h)
      simp [V, hk']
    · simp
  have hzero := congrFun₂ (h K V) ⟨0, by omega⟩ ⟨0, hdim⟩
  rw [hsum, compiled, hV, Matrix.mul_zero] at hzero
  exact (softmaxRows_pos _ _ _).ne hzero

/-- With as many positions as dimensions, the keys are taken for their transpose. -/
theorem symmetric_of_compiled_eq {K : Matrix (Fin dim) (Fin dim) ℝ}
    (h : ∀ Q V, compiled le_rfl Q K V = attention Q K V) : Symmetric K := by
  have hsoft : softmaxRows K = softmaxRows K.transpose := by
    simpa [compiled, attention, firstRows_self] using h 1 1
  intro i j i' j' hij hji
  obtain rfl : i = j' := Fin.ext hij
  obtain rfl : j = i' := Fin.ext hji
  have hdiag : K i i = K.transpose i i := rfl
  exact eq_of_softmaxRows_eq hsoft hdiag j

theorem compiled_eq_of_symmetric {Q K V : Matrix (Fin dim) (Fin dim) ℝ} (h : Symmetric K) :
    compiled le_rfl Q K V = attention Q K V := by
  have hK : K.transpose = K := by
    ext i j
    exact h j i i j rfl rfl
  rw [compiled, attention, hK]
  rfl

/-- **The emitted program computes attention, whatever the queries and the values, exactly when
there are as many positions as dimensions and the matrix of the keys is symmetric.** -/
theorem compileAttention_correct_iff (henv : env.Real) (hfit : 3 * seqLen * dim ≤ 65536)
    (hroom : ∀ n ≤ 65536, Grants env n) (hsteps : 6 ≤ stepLimit)
    (K : Matrix (Fin seqLen) (Fin dim) ℝ) :
    (∀ Q V mem input, InMemory Q K V mem → copyTensor env input = some (some input) →
      Returns env stepLimit seqLen dim mem input (ofMatrix (attention Q K V))) ↔
    0 < seqLen ∧ seqLen = dim ∧ Symmetric K := by
  have hcells : seqLen * dim ≤ 65536 := by
    rw [Nat.mul_assoc] at hfit
    omega
  constructor
  · intro h
    have hpos : 0 < seqLen ∧ 0 < dim := by
      by_contra hempty
      have hempty' : seqLen = 0 ∨ dim = 0 := by omega
      obtain ⟨mem, hmem⟩ := exists_inMemory 0 K 0 hfit
      have hinput := copyTensor_ofMatrix (0 : Matrix (Fin 1) (Fin 1) ℝ) (hroom (1 * 1) (by simp))
      have hret := h 0 0 mem _ hmem hinput
      by_cases hz : loadSize (firstLoad seqLen dim) ≤ 65536
      · obtain ⟨res, hres, -⟩ := hret
        rw [run_eq_none_of_empty hempty' hmem.length_mem hroom hinput hsteps hz] at hres
        cases hres
      · have hin := returns_input hmem.length_mem hinput hsteps (not_le.mp hz)
        have hshape : [1, 1] = [seqLen, dim] := congrArg Tensor.shape (hin.unique hret)
        simp at hshape
        omega
    obtain ⟨hseq, hdim⟩ := hpos
    have hle : dim ≤ seqLen := by
      by_contra hlt
      obtain ⟨mem, hmem⟩ := exists_inMemory 0 K 0 hfit
      have hinput := copyTensor_ofMatrix K (hroom _ hcells)
      obtain ⟨res, hres, -⟩ := h 0 0 mem _ hmem hinput
      rw [run_eq_none hseq hdim hmem (hroom _ hcells) (not_le.mp hlt) hinput hsteps] at hres
      cases hres
    have heq (Q V : Matrix (Fin seqLen) (Fin dim) ℝ) : compiled hle Q K V = attention Q K V := by
      obtain ⟨mem, hmem⟩ := exists_inMemory Q K V hfit
      have hinput := copyTensor_ofMatrix K (hroom _ hcells)
      have hret := returns_compiled hseq hdim hmem (hroom _ hcells) henv hle hinput hsteps
      exact ofMatrix_injective (hret.unique (h Q V mem _ hmem hinput))
    obtain rfl := eq_of_compiled_eq hdim hle heq
    exact ⟨hseq, rfl, symmetric_of_compiled_eq heq⟩
  · rintro ⟨hseq, rfl, hsym⟩ Q V mem input hmem hinput
    rw [← compiled_eq_of_symmetric hsym]
    exact returns_compiled hseq hseq hmem (hroom _ hcells) henv le_rfl hinput hsteps

end Attention

/-! ## Concrete runs -/

/-- The real numbers as floats. -/
noncomputable def reals : Env ℝ where
  lit q := q
  add x y := x + y
  sub x y := x - y
  mul x y := x * y
  div x y := x / y
  neg x := -x
  gt x y := decide (y < x)
  ge x y := decide (y ≤ x)
  eq x y := decide (x = y)
  exp := Real.exp
  log := Real.log
  sqrt := Real.sqrt
  sin := Real.sin
  cos := Real.cos
  tanh := Real.tanh
  pow x y := x ^ y
  ofBits _ := 0
  ofSize n := n
  toSize x := ⌊x⌋₊
  alloc n := if n < 2 ^ 61 then some (List.replicate n 0) else none
  alloc_length := by
    intro n l h
    split at h
    · obtain rfl := Option.some.inj h
      exact List.length_replicate
    · cases h
  alloc_large := by
    intro n h
    exact if_neg (not_lt.mpr h)

theorem real_reals : reals.Real where
  lit_zero := Rat.cast_zero
  add _ _ := rfl
  mul _ _ := rfl
  gt _ _ := rfl
  sub _ _ := rfl
  div _ _ := rfl
  exp _ := rfl

theorem grants_reals {n : ℕ} (h : n < 2 ^ 61) : Grants reals n := ⟨List.replicate n 0, if_pos h⟩

/-- Two positions that attend to each other through the exchange matrix. -/
theorem compileAttention_correct_exchange : Returns reals 1024 2 2
    ([1, 0, 0, 1] ++ [0, 1, 1, 0] ++ [1, 0, 0, 1] ++ List.replicate 65524 0)
    (ofMatrix !![0]) (ofMatrix (attention !![1, 0; 0, 1] !![0, 1; 1, 0] !![1, 0; 0, 1])) := by
  have hiff := compileAttention_correct_iff real_reals (by norm_num)
    (fun n hn => grants_reals (by omega)) (by norm_num : 6 ≤ 1024)
    (!![0, 1; 1, 0] : Matrix (Fin 2) (Fin 2) ℝ)
  have hsym : Symmetric (!![0, 1; 1, 0] : Matrix (Fin 2) (Fin 2) ℝ) := by
    intro i j i' j' hij hji
    obtain rfl : i = j' := Fin.ext hij
    obtain rfl : j = i' := Fin.ext hji
    fin_cases i <;> fin_cases j <;> rfl
  refine hiff.mpr ⟨by norm_num, rfl, hsym⟩ _ _ _ _ ?_
    (copyTensor_ofMatrix _ (grants_reals (by norm_num)))
  exact ⟨by rw [List.length_append, List.length_replicate]; rfl, List.replicate 65524 0, rfl⟩

/-- Two positions of one dimension: the second value is lost. -/
theorem compileAttention_not_correct :
    InMemory (!![0; 0] : Matrix (Fin 2) (Fin 1) ℝ) !![0; 0] !![0; 1]
      ([0, 0] ++ [0, 0] ++ [0, 1] ++ List.replicate 65530 0) ∧
    ¬ Returns reals 1024 2 1 ([0, 0] ++ [0, 0] ++ [0, 1] ++ List.replicate 65530 0)
      (ofMatrix !![0]) (ofMatrix (attention !![0; 0] !![0; 0] !![0; 1])) := by
  have hmem : InMemory (!![0; 0] : Matrix (Fin 2) (Fin 1) ℝ) !![0; 0] !![0; 1]
      ([0, 0] ++ [0, 0] ++ [0, 1] ++ List.replicate 65530 0) :=
    ⟨by rw [List.length_append, List.length_replicate]; rfl, List.replicate 65530 0, rfl⟩
  refine ⟨hmem, fun h => ?_⟩
  have hret := returns_compiled (by norm_num) (by norm_num) hmem (grants_reals (by norm_num))
    real_reals (by norm_num) (copyTensor_ofMatrix !![0] (grants_reals (by norm_num)))
    (by norm_num : 6 ≤ 1024)
  have heq := congrFun₂ (ofMatrix_injective (hret.unique h)) 0 0
  norm_num [compiled, attention, firstRows, softmaxRows, Matrix.mul_apply, Fin.sum_univ_two] at heq

end SneppxAlg.Npe
