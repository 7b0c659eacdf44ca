import Mathlib.Algebra.BigOperators.Group.Finset.Sigma
import Mathlib.Algebra.BigOperators.Pi
import Mathlib.Algebra.BigOperators.Ring.Finset
import Mathlib.Data.Finset.Prod
import Mathlib.Tactic.Ring

/-!
# Cross-correlations and their adjoints

A *grid* is a finite set of positions that are numbered one after the other. A *geometry* says for each position
of the output and each tap of the kernel which position of the input is read, if any: a strided window over a
padded line (`window`), and for two dimensions the product of two of them (`Geometry.prod`).

The correlation (`corr`) is linear in the input and in the kernel. Its two adjoints are `gradInput` and
`gradKernel` (`pairing_corr_input`, `pairing_corr_kernel`), and it determines the geometry: if two
of them give the same correlations, then they read at the same positions (`place_eq_of_corr_eq`).
-/

namespace Lib.Correlation

open Finset

/-! ## Grids -/

structure Grid (O : Type*) where
  cells : Finset O
  size : ℕ
  flat : O → ℕ
  flat_lt : ∀ o ∈ cells, flat o < size
  flat_inj : ∀ o ∈ cells, ∀ o' ∈ cells, flat o = flat o' → o = o'

namespace Grid

variable {O O' R : Type*}

def line (n : ℕ) : Grid ℕ where
  cells := range n
  size := n
  flat := id
  flat_lt _ ho := mem_range.mp ho
  flat_inj _ _ _ _ h := h

theorem row_major_lt {a b m n : ℕ} (ha : a < m) (hb : b < n) : a * n + b < m * n := by
  have : (a + 1) * n ≤ m * n := Nat.mul_le_mul_right n ha
  rw [Nat.add_mul, Nat.one_mul] at this
  omega

theorem row_major_inj {a b a' b' n : ℕ} (hb : b < n) (hb' : b' < n) (h : a * n + b = a' * n + b') :
    a = a' ∧ b = b' := by
  have hn : 0 < n := by omega
  have hrow : a = a' := by
    have := congrArg (· / n) h
    simpa [Nat.add_comm _ b, Nat.add_comm _ b', Nat.add_mul_div_right _ _ hn, Nat.div_eq_of_lt hb,
      Nat.div_eq_of_lt hb'] using this
  subst hrow
  exact ⟨rfl, by omega⟩

/-- Row after row. -/
def prod (G : Grid O) (G' : Grid O') : Grid (O × O') where
  cells := G.cells ×ˢ G'.cells
  size := G.size * G'.size
  flat o := G.flat o.1 * G'.size + G'.flat o.2
  flat_lt o ho := row_major_lt (G.flat_lt _ (mem_product.mp ho).1) (G'.flat_lt _ (mem_product.mp ho).2)
  flat_inj o ho o' ho' h := by
    rw [mem_product] at ho ho'
    obtain ⟨h1, h2⟩ := row_major_inj (G'.flat_lt _ ho.2) (G'.flat_lt _ ho'.2) h
    exact Prod.ext (G.flat_inj _ ho.1 _ ho'.1 h1) (G'.flat_inj _ ho.2 _ ho'.2 h2)

/-- Element `o` of channel `c` in example `n`, in an array with `channels` channels for each example. -/
def elem (G : Grid O) (channels : ℕ) (data : ℕ → R) (n c : ℕ) (o : O) : R :=
  data ((n * channels + c) * G.size + G.flat o)

variable {G : Grid O} {N C n c : ℕ} {o : O}

theorem address_lt (hn : n < N) (hc : c < C) (ho : o ∈ G.cells) :
    (n * C + c) * G.size + G.flat o < N * C * G.size :=
  row_major_lt (row_major_lt hn hc) (G.flat_lt o ho)

theorem address_inj {n' c' : ℕ} {o' : O} (hc : c < C) (hc' : c' < C) (ho : o ∈ G.cells) (ho' : o' ∈ G.cells)
    (h : (n * C + c) * G.size + G.flat o = (n' * C + c') * G.size + G.flat o') : n = n' ∧ c = c' ∧ o = o' := by
  obtain ⟨hrow, hflat⟩ := row_major_inj (G.flat_lt o ho) (G.flat_lt o' ho') h
  obtain ⟨hn, hchannel⟩ := row_major_inj hc hc' hrow
  exact ⟨hn, hchannel, G.flat_inj o ho o' ho' hflat⟩

section Sums

variable [AddCommMonoid R] [DecidableEq O]

omit [DecidableEq O] in
theorem elem_sum {ι : Type*} (s : Finset ι) (f : ι → ℕ → R) : G.elem C (∑ a ∈ s, f a) n c o = ∑ a ∈ s, G.elem C (f a) n c o :=
  Finset.sum_apply _ _ _

theorem elem_single {n' c' : ℕ} {o' : O} (hc : c < C) (hc' : c' < C) (ho : o ∈ G.cells) (ho' : o' ∈ G.cells) (v : R) :
    G.elem C (Pi.single ((n' * C + c') * G.size + G.flat o') v) n c o =
      if n' = n ∧ c' = c ∧ o' = o then v else 0 := by
  split_ifs with h
  · obtain ⟨rfl, rfl, rfl⟩ := h
    exact Pi.single_eq_same _ _
  · exact Pi.single_eq_of_ne (fun heq => h (address_inj hc' hc ho' ho heq.symm)) _

/-- What a loop over all elements that adds to each of them once leaves in one of them. -/
theorem elem_sum_single (v : ℕ → ℕ → O → R) (hn : n < N) (hc : c < C) (ho : o ∈ G.cells) :
    G.elem C (∑ n ∈ range N, ∑ c ∈ range C, ∑ o ∈ G.cells, Pi.single ((n * C + c) * G.size + G.flat o) (v n c o)) n c o =
      v n c o := by
  simp only [elem_sum]
  rw [sum_eq_single_of_mem n (mem_range.mpr hn), sum_eq_single_of_mem c (mem_range.mpr hc),
    sum_eq_single_of_mem o ho, elem_single hc hc ho ho, if_pos ⟨rfl, rfl, rfl⟩]
  · intro o' ho' hne
    rw [elem_single hc hc ho ho', if_neg fun h => hne h.2.2]
  · intro c' hc' hne
    refine sum_eq_zero fun o' ho' => ?_
    rw [elem_single hc (mem_range.mp hc') ho ho', if_neg fun h => hne h.2.1]
  · intro n' _ hne
    refine sum_eq_zero fun c' hc' => sum_eq_zero fun o' ho' => ?_
    rw [elem_single hc (mem_range.mp hc') ho ho', if_neg fun h => hne h.1]

/-- The same for a loop over the channels of one position. -/
theorem elem_sum_channels {n' : ℕ} {o' : O} (v : ℕ → R) (hc : c < C) (ho : o ∈ G.cells) (ho' : o' ∈ G.cells) :
    G.elem C (∑ c ∈ range C, Pi.single ((n' * C + c) * G.size + G.flat o') (v c)) n c o =
      if n' = n ∧ o' = o then v c else 0 := by
  rw [elem_sum, sum_eq_single_of_mem c (mem_range.mpr hc), elem_single hc hc ho ho']
  · simp only [true_and]
  · intro c' hc' hne
    rw [elem_single hc (mem_range.mp hc') ho ho', if_neg fun h => hne h.2.1]

end Sums

end Grid

/-! ## Geometries -/

structure Geometry (O T I : Type*) where
  outs : Grid O
  taps : Grid T
  ins : Grid I
  place : O → T → Option I
  place_mem : ∀ o ∈ outs.cells, ∀ t ∈ taps.cells, ∀ i, place o t = some i → i ∈ ins.cells

/-- A window of `k` taps over a line of `l` cells with `padding` zeros on both sides. -/
def window (l k stride padding : ℕ) : Geometry ℕ ℕ ℕ where
  outs := Grid.line ((l + 2 * padding - k) / stride + 1)
  taps := Grid.line k
  ins := Grid.line l
  place o t :=
    if padding ≤ o * stride + t ∧ o * stride + t < padding + l then some (o * stride + t - padding) else none
  place_mem o _ t _ i h := by
    rw [Option.ite_none_right_eq_some] at h
    obtain ⟨⟨hlow, hhigh⟩, hi⟩ := h
    have := Option.some.inj hi
    exact mem_range.mpr (by omega)

/-- A tap reads no element twice, and no two taps read one element. -/
theorem window_injective {l k stride padding o o' t t' i : ℕ} (hs : 0 < stride)
    (h : (window l k stride padding).place o t = some i) (h' : (window l k stride padding).place o' t' = some i) :
    (o = o' → t' = t) ∧ (t = t' → o' = o) := by
  rw [window, Option.ite_none_right_eq_some] at h h'
  obtain ⟨⟨hlow, -⟩, hi⟩ := h
  obtain ⟨⟨hlow', -⟩, hi'⟩ := h'
  have heq : o * stride + t = o' * stride + t' := by
    have hsub := (Option.some.inj hi).trans (Option.some.inj hi').symm
    omega
  refine ⟨fun ho => ?_, fun ht => ?_⟩
  · subst ho
    omega
  · subst ht
    exact (Nat.eq_of_mul_eq_mul_right hs (Nat.add_right_cancel heq)).symm

namespace Geometry

variable {O T I O' T' I' : Type*}

def prod (G : Geometry O T I) (G' : Geometry O' T' I') : Geometry (O × O') (T × T') (I × I') where
  outs := G.outs.prod G'.outs
  taps := G.taps.prod G'.taps
  ins := G.ins.prod G'.ins
  place o t := (G.place o.1 t.1).bind fun i => (G'.place o.2 t.2).map fun j => (i, j)
  place_mem o ho t ht i h := by
    obtain ⟨a, ha, hb⟩ := Option.bind_eq_some_iff.mp h
    obtain ⟨b, hplace, rfl⟩ := Option.map_eq_some_iff.mp hb
    obtain ⟨ho1, ho2⟩ := mem_product.mp ho
    obtain ⟨ht1, ht2⟩ := mem_product.mp ht
    exact mem_product.mpr ⟨G.place_mem _ ho1 _ ht1 _ ha, G'.place_mem _ ho2 _ ht2 _ hplace⟩

section Prod

variable {G : Geometry O T I} {G' : Geometry O' T' I'}

theorem prod_outs : (G.prod G').outs = G.outs.prod G'.outs := rfl

theorem prod_taps : (G.prod G').taps = G.taps.prod G'.taps := rfl

theorem prod_ins : (G.prod G').ins = G.ins.prod G'.ins := rfl

end Prod

end Geometry

/-! ## The correlation and its adjoints -/

section Corr

variable {O T I R : Type*} [CommSemiring R] (G : Geometry O T I)

/-- The correlation of the examples with kernel `k`; what is read outside of the input is zero. -/
def corr (C : ℕ) (x : ℕ → ℕ → I → R) (w : ℕ → ℕ → T → R) (n k : ℕ) (o : O) : R :=
  ∑ c ∈ range C, ∑ t ∈ G.taps.cells, (G.place o t).elim 0 fun i => x n c i * w k c t

/-- The inner product of two arrays. -/
def pairing {O : Type*} (N C : ℕ) (cells : Finset O) (y g : ℕ → ℕ → O → R) : R :=
  ∑ n ∈ range N, ∑ c ∈ range C, ∑ o ∈ cells, y n c o * g n c o

def gradInput [DecidableEq I] (K : ℕ) (w : ℕ → ℕ → T → R) (g : ℕ → ℕ → O → R) (n c : ℕ) (i : I) : R :=
  ∑ k ∈ range K, ∑ o ∈ G.outs.cells, ∑ t ∈ G.taps.cells, if G.place o t = some i then w k c t * g n k o else 0

def gradKernel (N : ℕ) (x : ℕ → ℕ → I → R) (g : ℕ → ℕ → O → R) (k c : ℕ) (t : T) : R :=
  ∑ n ∈ range N, ∑ o ∈ G.outs.cells, (G.place o t).elim 0 fun i => x n c i * g n k o

variable {G} {N K C : ℕ} {x : ℕ → ℕ → I → R} {w : ℕ → ℕ → T → R} {g : ℕ → ℕ → O → R}

theorem elim_eq_sum [DecidableEq I] {p : Option I} {cells : Finset I} (h : ∀ i, p = some i → i ∈ cells) (f : I → R) :
    p.elim 0 f = ∑ i ∈ cells, if p = some i then f i else 0 := by
  cases p with
  | none => simp
  | some i =>
    rw [sum_eq_single_of_mem i (h i rfl) fun j _ hne => if_neg fun heq => hne (Option.some.inj heq).symm]
    simp

theorem pairing_corr_input [DecidableEq I] :
    pairing N K G.outs.cells (corr G C x w) g = pairing N C G.ins.cells x (gradInput G K w g) := by
  have hterm : ∀ n k, ∀ o ∈ G.outs.cells, corr G C x w n k o * g n k o =
      ∑ c ∈ range C, ∑ i ∈ G.ins.cells, ∑ t ∈ G.taps.cells,
        if G.place o t = some i then x n c i * (w k c t * g n k o) else 0 := by
    intro n k o ho
    rw [corr, sum_mul]
    refine sum_congr rfl fun c _ => ?_
    rw [sum_mul, sum_comm]
    refine sum_congr rfl fun t ht => ?_
    rw [elim_eq_sum (G.place_mem o ho t ht), sum_mul]
    refine sum_congr rfl fun i _ => ?_
    rw [ite_mul, zero_mul, mul_assoc]
  refine sum_congr rfl fun n _ => ?_
  calc ∑ k ∈ range K, ∑ o ∈ G.outs.cells, corr G C x w n k o * g n k o
      = ∑ k ∈ range K, ∑ o ∈ G.outs.cells, ∑ c ∈ range C, ∑ i ∈ G.ins.cells, ∑ t ∈ G.taps.cells,
          (if G.place o t = some i then x n c i * (w k c t * g n k o) else 0) :=
        sum_congr rfl fun k _ => sum_congr rfl fun o ho => hterm n k o ho
    _ = ∑ c ∈ range C, ∑ k ∈ range K, ∑ i ∈ G.ins.cells, ∑ o ∈ G.outs.cells, ∑ t ∈ G.taps.cells,
          (if G.place o t = some i then x n c i * (w k c t * g n k o) else 0) := by
        refine (sum_congr rfl fun k _ => ?_).trans sum_comm
        rw [sum_comm]
        exact sum_congr rfl fun c _ => sum_comm
    _ = ∑ c ∈ range C, ∑ i ∈ G.ins.cells, x n c i * gradInput G K w g n c i := by
        refine sum_congr rfl fun c _ => ?_
        rw [sum_comm]
        refine sum_congr rfl fun i _ => ?_
        simp only [gradInput, mul_sum, mul_ite, mul_zero]

theorem pairing_corr_kernel :
    pairing N K G.outs.cells (corr G C x w) g = pairing K C G.taps.cells w (gradKernel G N x g) := by
  have hterm : ∀ n k o, corr G C x w n k o * g n k o =
      ∑ c ∈ range C, ∑ t ∈ G.taps.cells, w k c t * (G.place o t).elim 0 fun i => x n c i * g n k o := by
    intro n k o
    rw [corr, sum_mul]
    refine sum_congr rfl fun c _ => ?_
    rw [sum_mul]
    refine sum_congr rfl fun t _ => ?_
    cases G.place o t with
    | none => simp
    | some i =>
      simp only [Option.elim_some]
      ring
  simp only [pairing, hterm]
  rw [sum_comm]
  refine sum_congr rfl fun k _ => ?_
  calc ∑ n ∈ range N, ∑ o ∈ G.outs.cells, ∑ c ∈ range C, ∑ t ∈ G.taps.cells,
          (w k c t * (G.place o t).elim 0 fun i => x n c i * g n k o)
      = ∑ n ∈ range N, ∑ c ∈ range C, ∑ t ∈ G.taps.cells, ∑ o ∈ G.outs.cells,
          (w k c t * (G.place o t).elim 0 fun i => x n c i * g n k o) := by
        refine sum_congr rfl fun n _ => ?_
        rw [sum_comm]
        exact sum_congr rfl fun c _ => sum_comm
    _ = ∑ c ∈ range C, ∑ t ∈ G.taps.cells, ∑ n ∈ range N, ∑ o ∈ G.outs.cells,
          (w k c t * (G.place o t).elim 0 fun i => x n c i * g n k o) := by
        rw [sum_comm]
        exact sum_congr rfl fun c _ => sum_comm
    _ = ∑ c ∈ range C, ∑ t ∈ G.taps.cells, w k c t * gradKernel G N x g k c t := by
        simp only [gradKernel, mul_sum]

theorem pairing_congr {O : Type*} {cells : Finset O} {y g g' : ℕ → ℕ → O → R}
    (h : ∀ n < N, ∀ c < C, ∀ o ∈ cells, g n c o = g' n c o) : pairing N C cells y g = pairing N C cells y g' :=
  sum_congr rfl fun n hn => sum_congr rfl fun c hc => sum_congr rfl fun o ho => by
    rw [h n (mem_range.mp hn) c (mem_range.mp hc) o ho]

/-- An inner product with a single 1. -/
theorem pairing_single {O : Type*} [DecidableEq O] {cells : Finset O} {y g : ℕ → ℕ → O → R} {n c : ℕ} {o : O} (hn : n < N)
    (hc : c < C) (ho : o ∈ cells)
    (hy : ∀ n' c', ∀ o' ∈ cells, y n' c' o' = if n' = n ∧ c' = c ∧ o' = o then 1 else 0) :
    pairing N C cells y g = g n c o := by
  have hzero : ∀ n' c', ∀ o' ∈ cells, ¬(n' = n ∧ c' = c ∧ o' = o) → y n' c' o' * g n' c' o' = 0 := by
    intro n' c' o' ho' hne
    rw [hy n' c' o' ho', if_neg hne, zero_mul]
  rw [pairing, sum_eq_single_of_mem n (mem_range.mpr hn), sum_eq_single_of_mem c (mem_range.mpr hc),
    sum_eq_single_of_mem o ho, hy n c o ho, if_pos ⟨rfl, rfl, rfl⟩, one_mul]
  · exact fun o' ho' hne => hzero n c o' ho' fun h => hne h.2.2
  · exact fun c' _ hne => sum_eq_zero fun o' ho' => hzero n c' o' ho' fun h => hne h.2.1
  · exact fun n' _ hne => sum_eq_zero fun c' _ => sum_eq_zero fun o' ho' => hzero n' c' o' ho' fun h => hne h.1

/-- The correlation depends on the elements that are read, and on the taps that they are multiplied with. -/
theorem corr_congr {x' : ℕ → ℕ → I → R} {w' : ℕ → ℕ → T → R} {n k : ℕ} {o : O}
    (h : ∀ c < C, ∀ t ∈ G.taps.cells, ∀ i, G.place o t = some i → x n c i = x' n c i ∧ w k c t = w' k c t) :
    corr G C x w n k o = corr G C x' w' n k o := by
  refine sum_congr rfl fun c hc => sum_congr rfl fun t ht => ?_
  cases hp : G.place o t with
  | none => rfl
  | some i =>
    obtain ⟨hx, hw⟩ := h c (mem_range.mp hc) t ht i hp
    rw [Option.elim_some, Option.elim_some, hx, hw]

/-! ## Loops that compute the adjoints -/

/-- Every output adds to what it was computed from. -/
theorem elem_scatter_input [DecidableEq I] {n c : ℕ} {i : I} (hn : n < N) (hc : c < C) (hi : i ∈ G.ins.cells) :
    G.ins.elem C (∑ n ∈ range N, ∑ k ∈ range K, ∑ o ∈ G.outs.cells, ∑ t ∈ G.taps.cells, (G.place o t).elim 0 fun i =>
      ∑ c ∈ range C, Pi.single ((n * C + c) * G.ins.size + G.ins.flat i) (w k c t * g n k o)) n c i =
      gradInput G K w g n c i := by
  have hterm : ∀ n' k, ∀ o ∈ G.outs.cells, ∀ t ∈ G.taps.cells,
      G.ins.elem C ((G.place o t).elim 0 fun i =>
        ∑ c ∈ range C, Pi.single ((n' * C + c) * G.ins.size + G.ins.flat i) (w k c t * g n' k o)) n c i =
      if n' = n then (if G.place o t = some i then w k c t * g n' k o else 0) else 0 := by
    intro n' k o ho t ht
    cases hp : G.place o t with
    | none => simp [Grid.elem]
    | some i' =>
      rw [Option.elim_some, Grid.elem_sum_channels _ hc hi (G.place_mem o ho t ht i' hp), ite_and]
      simp only [Option.some.injEq]
  simp only [Grid.elem_sum]
  rw [sum_eq_single_of_mem n (mem_range.mpr hn)]
  · refine sum_congr rfl fun k _ => sum_congr rfl fun o ho => sum_congr rfl fun t ht => ?_
    rw [hterm n k o ho t ht, if_pos rfl]
  · intro n' _ hne
    refine sum_eq_zero fun k _ => sum_eq_zero fun o ho => sum_eq_zero fun t ht => ?_
    rw [hterm n' k o ho t ht, if_neg hne]

theorem elem_scatter_kernel [DecidableEq T] {k c : ℕ} {t : T} (hk : k < K) (hc : c < C) (ht : t ∈ G.taps.cells) :
    G.taps.elem C (∑ n ∈ range N, ∑ k ∈ range K, ∑ o ∈ G.outs.cells, ∑ t ∈ G.taps.cells, (G.place o t).elim 0 fun i =>
      ∑ c ∈ range C, Pi.single ((k * C + c) * G.taps.size + G.taps.flat t) (x n c i * g n k o)) k c t =
      gradKernel G N x g k c t := by
  have hterm : ∀ n k' o, ∀ t' ∈ G.taps.cells,
      G.taps.elem C ((G.place o t').elim 0 fun i =>
        ∑ c ∈ range C, Pi.single ((k' * C + c) * G.taps.size + G.taps.flat t') (x n c i * g n k' o)) k c t =
      (G.place o t').elim 0 fun i => if k' = k ∧ t' = t then x n c i * g n k' o else 0 := by
    intro n k' o t' ht'
    cases G.place o t' with
    | none => rfl
    | some i => exact Grid.elem_sum_channels _ hc ht ht'
  have hzero : ∀ n k' o t', ¬(k' = k ∧ t' = t) →
      ((G.place o t').elim 0 fun i => if k' = k ∧ t' = t then x n c i * g n k' o else 0) = 0 := by
    intro n k' o t' hne
    cases G.place o t' with
    | none => rfl
    | some i => exact if_neg hne
  simp only [Grid.elem_sum]
  refine sum_congr rfl fun n _ => ?_
  rw [sum_eq_single_of_mem k (mem_range.mpr hk)]
  · refine sum_congr rfl fun o _ => ?_
    rw [sum_eq_single_of_mem t ht, hterm n k o t ht]
    · simp only [and_self, if_true]
    · intro t' ht' hne
      rw [hterm n k o t' ht', hzero n k o t' fun h => hne h.2]
  · intro k' _ hne
    refine sum_eq_zero fun o _ => sum_eq_zero fun t' ht' => ?_
    rw [hterm n k' o t' ht', hzero n k' o t' fun h => hne h.1]

/-! ## Reading the geometry off -/

variable {G G' : Geometry O T I} {n k c : ℕ} {o : O} {t : T}

/-- With a single 1 in the kernel, the correlation is what its tap reads. -/
theorem corr_single [DecidableEq T] (hc : c < C) (ht : t ∈ G.taps.cells) :
    corr G C x (G.taps.elem C (Pi.single ((k * C + c) * G.taps.size + G.taps.flat t) (1 : R))) n k o =
      (G.place o t).elim 0 (x n c) := by
  have hzero : ∀ c' ∈ range C, ∀ t' ∈ G.taps.cells, ¬(c' = c ∧ t' = t) →
      ((G.place o t').elim 0 fun i => x n c' i *
        G.taps.elem C (Pi.single ((k * C + c) * G.taps.size + G.taps.flat t) (1 : R)) k c' t') = 0 := by
    intro c' hc' t' ht' hne
    rw [Grid.elem_single (mem_range.mp hc') hc ht' ht, if_neg fun h => hne ⟨h.2.1.symm, h.2.2.symm⟩]
    cases G.place o t' <;> simp
  rw [corr, sum_eq_single_of_mem c (mem_range.mpr hc), sum_eq_single_of_mem t ht]
  · simp only [Grid.elem_single hc hc ht ht, if_true, and_self, mul_one]
  · exact fun t' ht' hne => hzero c (mem_range.mpr hc) t' ht' fun h => hne h.2
  · exact fun c' hc' hne => sum_eq_zero fun t' ht' => hzero c' hc' t' ht' fun h => hne h.1

/-- The other kernels give nothing. -/
theorem corr_single_of_ne [DecidableEq T] {k' : ℕ} (hc : c < C) (ht : t ∈ G.taps.cells) (hk : k' ≠ k) :
    corr G C x (G.taps.elem C (Pi.single ((k * C + c) * G.taps.size + G.taps.flat t) (1 : R))) n k' o = 0 := by
  refine sum_eq_zero fun c' hc' => sum_eq_zero fun t' ht' => ?_
  rw [Grid.elem_single (mem_range.mp hc') hc ht' ht, if_neg fun h => hk h.1.symm]
  cases G.place o t' <;> simp

/-- With a single 1 in the input, the correlation is the tap that reads it. -/
theorem corr_single_input [DecidableEq I] {i : I} (hc : c < C) (ho : o ∈ G.outs.cells) (ht : t ∈ G.taps.cells)
    (hp : G.place o t = some i) (hinj : ∀ t' ∈ G.taps.cells, G.place o t' = some i → t' = t) :
    corr G C (G.ins.elem C (Pi.single ((n * C + c) * G.ins.size + G.ins.flat i) (1 : R))) w n k o = w k c t := by
  have hi : i ∈ G.ins.cells := G.place_mem o ho t ht i hp
  have hzero : ∀ c' ∈ range C, ∀ t' ∈ G.taps.cells, ¬(c' = c ∧ t' = t) →
      ((G.place o t').elim 0 fun i' =>
        G.ins.elem C (Pi.single ((n * C + c) * G.ins.size + G.ins.flat i) (1 : R)) n c' i' * w k c' t') = 0 := by
    intro c' hc' t' ht' hne
    cases hp' : G.place o t' with
    | none => rfl
    | some i' =>
      have hi' : i' ∈ G.ins.cells := G.place_mem o ho t' ht' i' hp'
      rw [Option.elim_some, Grid.elem_single (mem_range.mp hc') hc hi' hi, if_neg, zero_mul]
      exact fun h => hne ⟨h.2.1.symm, hinj t' ht' (hp'.trans (congrArg some h.2.2.symm))⟩
  rw [corr, sum_eq_single_of_mem c (mem_range.mpr hc), sum_eq_single_of_mem t ht, hp, Option.elim_some,
    Grid.elem_single hc hc hi hi, if_pos ⟨rfl, rfl, rfl⟩, one_mul]
  · exact fun t' ht' hne => hzero c (mem_range.mpr hc) t' ht' fun h => hne h.2
  · exact fun c' hc' hne => sum_eq_zero fun t' ht' => hzero c' hc' t' ht' fun h => hne h.1

/-- The correlations determine the positions. -/
theorem place_eq_of_corr_eq [DecidableEq I] [DecidableEq T] [Nontrivial R] (hC : 0 < C) (hins : G'.ins = G.ins)
    (htaps : G'.taps = G.taps) (ho : o ∈ G.outs.cells) (ho' : o ∈ G'.outs.cells) (ht : t ∈ G.taps.cells)
    (h : ∀ x w : ℕ → R, corr G' C (G.ins.elem C x) (G.taps.elem C w) 0 0 o =
      corr G C (G.ins.elem C x) (G.taps.elem C w) 0 0 o) : G'.place o t = G.place o t := by
  have hread : ∀ x : ℕ → R, (G'.place o t).elim 0 (G.ins.elem C x 0 0) = (G.place o t).elim 0 (G.ins.elem C x 0 0) := by
    intro x
    have heq := h x (Pi.single ((0 * C + 0) * G.taps.size + G.taps.flat t) 1)
    rw [corr_single hC ht] at heq
    rwa [← htaps, corr_single hC (htaps ▸ ht)] at heq
  cases hp : G.place o t with
  | none =>
    cases hp' : G'.place o t with
    | none => rfl
    | some i' =>
      have := hread fun _ => 1
      rw [hp, hp'] at this
      exact absurd this one_ne_zero
  | some i =>
    cases hp' : G'.place o t with
    | none =>
      have := hread fun _ => 1
      rw [hp, hp'] at this
      exact absurd this.symm one_ne_zero
    | some i' =>
      have hi : i ∈ G.ins.cells := G.place_mem o ho t ht i hp
      have hi' : i' ∈ G.ins.cells := hins ▸ G'.place_mem o ho' t (htaps ▸ ht) i' hp'
      by_contra hne
      have := hread (Pi.single ((0 * C + 0) * G.ins.size + G.ins.flat i) 1)
      rw [hp, hp', Option.elim_some, Option.elim_some, Grid.elem_single hC hC hi' hi, Grid.elem_single hC hC hi hi,
        if_neg fun heq => hne (congrArg some heq.2.2.symm), if_pos ⟨rfl, rfl, rfl⟩] at this
      exact zero_ne_one this

end Corr

end Lib.Correlation
