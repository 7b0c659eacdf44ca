import SneppxAlg.Kernel.Convolution
import SneppxAlg.Lib.Correlation

/-!
# What the convolutions compute

The elements of the result are to be those of a cross-correlation, in a tensor with a channel for each kernel, and
the backward functions are to be its two adjoints. `Problem.Correct` says this for any number of dimensions, and for
tensors that are packed or have other strides: an element is the one with its index, wherever it lies in memory.

The functions read the data as it lies in memory. They are right for other strides if and only if these put every
element that matters in its place all the same (`Problem.rightFor_iff`).

All loops add into an array of zeros, so that their results are sums (`Lib.AddingLoops`). The sums are those of a
correlation whose geometry is read off from the positions as they are computed: as `int` in the forward
functions, as `size_t` in the backward functions. It remains to say when these geometries are the right one.

Main results: `Conv1d.correct_iff_works`, and in the next module `Conv2d.correct_iff_works`.
-/

namespace SneppxAlg.Convolution

open FloatView Lib.AddingLoops Lib.Correlation Lib.Strided
open TensorEngine (Outcome numel extents rowMajor)
open Finset (range)

/-! ## What they are for -/

/-- The tensors of a convolution, in as many dimensions as there are in the geometry. -/
structure Problem (O T I : Type) where
  n : UInt64
  c : UInt64
  k : UInt64
  geometry : Geometry O T I
  inDims : List UInt64
  kernelDims : List UInt64
  outDims : List ℕ
  in_size : (extents inDims).prod = geometry.ins.size
  kernel_size : (extents kernelDims).prod = geometry.taps.size
  out_size : outDims.prod = geometry.outs.size
  input_fits : 4 * (n.toNat * c.toNat * geometry.ins.size) < 2 ^ 64
  kernel_fits : 4 * (k.toNat * c.toNat * geometry.taps.size) < 2 ^ 64

variable {R : Type} [CommSemiring R] {O T I : Type}

namespace Problem

variable (P : Problem O T I)

/-- The number of elements of the result. -/
def outCells : ℕ := P.n.toNat * P.k.toNat * P.geometry.outs.size

/-- A packed input with given elements. -/
def input (x : ℕ → R) : View R := .packed (P.n :: P.c :: P.inDims) x

/-- A packed kernel with given elements. -/
def kernel (w : ℕ → R) : View R := .packed (P.k :: P.c :: P.kernelDims) w

def outShape : List ℕ := P.n.toNat :: P.k.toNat :: P.outDims

/-! The numbers of the elements, in index order. -/

def inAt (n c : ℕ) (i : I) : ℕ := (n * P.c.toNat + c) * P.geometry.ins.size + P.geometry.ins.flat i

def kernelAt (k c : ℕ) (t : T) : ℕ := (k * P.c.toNat + c) * P.geometry.taps.size + P.geometry.taps.flat t

def outAt (n k : ℕ) (o : O) : ℕ := (n * P.k.toNat + k) * P.geometry.outs.size + P.geometry.outs.flat o

/-- There is memory for the result, and for the gradients. -/
structure Room (alloc : ℕ → Bool) : Prop where
  result_fits : 4 * P.outCells < 2 ^ 64
  result : alloc (4 * P.outCells) = true
  input : alloc (4 * (P.n.toNat * P.c.toNat * P.geometry.ins.size)) = true
  kernel : alloc (4 * (P.k.toNat * P.c.toNat * P.geometry.taps.size)) = true

/-- The tensor has a channel for each kernel, and its elements are those of the correlation. -/
structure IsCorrelation (x w : ℕ → R) (y : FloatTensor R) : Prop where
  shape : extents y.shape = P.outShape
  cells : y.cells = P.outCells
  elems : ∀ n < P.n.toNat, ∀ k < P.k.toNat, ∀ o ∈ P.geometry.outs.cells,
    P.geometry.outs.elem P.k.toNat y.data n k o =
      corr P.geometry P.c.toNat (P.geometry.ins.elem P.c.toNat x) (P.geometry.taps.elem P.c.toNat w) n k o

/-- The tensors are the adjoints of the correlation, with respect to the input and to the kernel. -/
structure IsAdjoint (x w g gi gk : ℕ → R) : Prop where
  input : ∀ x' : ℕ → ℕ → I → R,
    pairing P.n.toNat P.k.toNat P.geometry.outs.cells
        (corr P.geometry P.c.toNat x' (P.geometry.taps.elem P.c.toNat w)) (P.geometry.outs.elem P.k.toNat g) =
      pairing P.n.toNat P.c.toNat P.geometry.ins.cells x' (P.geometry.ins.elem P.c.toNat gi)
  kernel : ∀ w' : ℕ → ℕ → T → R,
    pairing P.n.toNat P.k.toNat P.geometry.outs.cells
        (corr P.geometry P.c.toNat (P.geometry.ins.elem P.c.toNat x) w') (P.geometry.outs.elem P.k.toNat g) =
      pairing P.k.toNat P.c.toNat P.geometry.taps.cells w' (P.geometry.taps.elem P.c.toNat gk)

end Problem

/-- The variable with a new gradient handed to `grad_accum`, if it needs one. -/
def Variable.withGrad (v : Variable R) (data : ℕ → R) : Variable R :=
  if v.requiresGrad then
    { v with grad := some (gradAccum v.grad ⟨v.data.shape, (extents v.data.shape).prod, data⟩) }
  else v

/-- A tensor inside its storage, packed or with the strides. -/
structure Stored (shape : List ℕ) (strides : List UInt64) (v : View R) : Prop where
  shape_eq : extents v.shape = shape
  valid : v.Valid
  strides_eq : v.strides = rowMajor v.shape ∨ v.strides = strides

/-- The strides that the operands and the incoming gradient may have. -/
structure Strides where
  input : List UInt64
  kernel : List UInt64
  grad : List UInt64

namespace Problem

variable (P : Problem O T I)

/-- A forward function returns null if the kernel exceeds the padded input, and the correlation otherwise; a backward
function hands its adjoints to `grad_accum`. This is for operands and gradients that are packed or have the strides. -/
def Correct (R : Type) [CommSemiring R] (alloc : ℕ → Bool) (Exceeds : Prop) (s : Strides)
    (conv : View R → View R → Outcome (FloatTensor R))
    (backward : Variable R → Variable R → View R → Option (Variable R × Variable R)) : Prop :=
  ∀ input kernel : View R, Stored (extents (P.n :: P.c :: P.inDims)) s.input input →
    Stored (extents (P.k :: P.c :: P.kernelDims)) s.kernel kernel →
    (Exceeds → conv input kernel = .null) ∧
    (¬Exceeds → P.Room alloc →
      (∃ y, conv input kernel = .ok y ∧ P.IsCorrelation input.elem kernel.elem y) ∧
      ∀ vi vk go, vi.data = input → vk.data = kernel → Stored P.outShape s.grad go →
        ∃ gi gk, P.IsAdjoint input.elem kernel.elem go.elem gi gk ∧
          backward vi vk go = some (vi.withGrad gi, vk.withGrad gk))

/-! ### The elements that matter -/

/-- Element `q` of the input is read at some position of the kernel. -/
def UsedInput (q : ℕ) : Prop :=
  ∃ n < P.n.toNat, ∃ c < P.c.toNat, ∃ o ∈ P.geometry.outs.cells, ∃ t ∈ P.geometry.taps.cells, ∃ i,
    P.geometry.place o t = some i ∧ P.inAt n c i = q

/-- Element `q` of the kernel is multiplied with an element of the input. -/
def UsedKernel (q : ℕ) : Prop :=
  0 < P.n.toNat ∧ ∃ k < P.k.toNat, ∃ c < P.c.toNat, ∃ o ∈ P.geometry.outs.cells, ∃ t ∈ P.geometry.taps.cells, ∃ i,
    P.geometry.place o t = some i ∧ P.kernelAt k c t = q

/-- Element `q` of the result is computed from an element of the input. -/
def UsedGrad (q : ℕ) : Prop :=
  ∃ n < P.n.toNat, ∃ k < P.k.toNat, ∃ o ∈ P.geometry.outs.cells, ∃ t ∈ P.geometry.taps.cells, ∃ i,
    P.geometry.place o t = some i ∧ P.outAt n k o = q

/-- The strides put the elements with these numbers into the memory in index order. -/
def InOrder (shape : List ℕ) (strides : List UInt64) (used : ℕ → Prop) : Prop :=
  shape.length = strides.length → ∀ q, used q → dot (unflatten shape q) (extents strides) = q

/-- The elements that matter are in order; and the incoming gradient, all of which is read, reaches as far in memory as a
packed one. -/
structure Ordered (s : Strides) : Prop where
  input : InOrder (extents (P.n :: P.c :: P.inDims)) s.input P.UsedInput
  kernel : InOrder (extents (P.k :: P.c :: P.kernelDims)) s.kernel P.UsedKernel
  grad : InOrder P.outShape s.grad P.UsedGrad
  reach : P.outShape.length = s.grad.length → ∀ n < P.n.toNat, ∀ k < P.k.toNat, ∀ o ∈ P.geometry.outs.cells,
    ∃ index, Within index P.outShape ∧ P.outAt n k o ≤ dot index (extents s.grad)

end Problem

/-! ## Sizes -/

section Sizes

variable {l k stride padding : UInt64}

theorem toNat_span (h : k.toNat ≤ l.toNat + 2 * padding.toNat) :
    (l + 2 * padding - k).toNat = (l.toNat + 2 * padding.toNat - k.toNat) % 2 ^ 64 := by
  have := k.toNat_lt
  rw [UInt64.toNat_sub, UInt64.toNat_add, UInt64.toNat_mul, show (2 : UInt64).toNat = 2 from rfl]
  omega

theorem toNat_outLen : (outLen l k stride padding).toNat =
    ((l + 2 * padding - k).toNat / stride.toNat + 1) % 2 ^ 64 := by
  rw [outLen, UInt64.toNat_add, UInt64.toNat_div, UInt64.toNat_one]

/-- The number of positions can be computed in `size_t`. -/
structure OutFits (l k stride padding : UInt64) : Prop where
  span : l.toNat + 2 * padding.toNat - k.toNat < 2 ^ 64
  len : (l.toNat + 2 * padding.toNat - k.toNat) / stride.toNat + 1 < 2 ^ 64

theorem outFits_of_small (h : l.toNat + 2 * padding.toNat < 2 ^ 31) : OutFits l k stride padding := by
  have hdiv := Nat.div_le_self (l.toNat + 2 * padding.toNat - k.toNat) stride.toNat
  exact ⟨by omega, by omega⟩

theorem wrapped_len_eq_iff {d s : ℕ} (hpos : 0 < s) (hlt : s < 2 ^ 64) :
    (d % 2 ^ 64 / s + 1) % 2 ^ 64 = d / s + 1 ↔ d < 2 ^ 64 ∧ d / s + 1 < 2 ^ 64 := by
  refine ⟨fun heq => ?_, fun ⟨hspan, hlen⟩ => ?_⟩
  · have hlen : d / s + 1 < 2 ^ 64 := heq ▸ Nat.mod_lt _ (by norm_num)
    refine ⟨?_, hlen⟩
    by_contra hspan
    have hdiv : d % 2 ^ 64 / s ≤ (d - s) / s := Nat.div_le_div_right (by omega)
    have hstep : (d - s) / s + 1 = d / s := by
      rw [← Nat.add_div_right _ hpos, Nat.sub_add_cancel (by omega)]
    have hmod := Nat.mod_le (d % 2 ^ 64 / s + 1) (2 ^ 64)
    omega
  · rw [Nat.mod_eq_of_lt hspan, Nat.mod_eq_of_lt hlen]

theorem toNat_pos_of_ne (hs : stride ≠ 0) : 0 < stride.toNat :=
  Nat.pos_of_ne_zero fun h0 => hs (UInt64.toNat_inj.mp h0)

theorem toNat_outLen_eq_iff (hs : stride ≠ 0) (h : k.toNat ≤ l.toNat + 2 * padding.toNat) :
    (outLen l k stride padding).toNat = (l.toNat + 2 * padding.toNat - k.toNat) / stride.toNat + 1 ↔
      OutFits l k stride padding := by
  rw [toNat_outLen, toNat_span h, wrapped_len_eq_iff (toNat_pos_of_ne hs) stride.toNat_lt]
  exact ⟨fun ⟨hspan, hlen⟩ => ⟨hspan, hlen⟩, fun ⟨hspan, hlen⟩ => ⟨hspan, hlen⟩⟩

theorem outLen_eq_zero_iff (hs : stride ≠ 0) :
    outLen l k stride padding = 0 ↔ stride = 1 ∧ k = l + 2 * padding + 1 := by
  have hpos := toNat_pos_of_ne hs
  have hspan : k = l + 2 * padding + 1 ↔ l + 2 * padding - k = -1 := by
    constructor
    · rintro rfl
      exact sub_add_cancel_left _ _
    · intro h
      rw [sub_eq_iff_eq_add.mp h]
      exact (neg_add_cancel_comm 1 k).symm
  rw [hspan, ← UInt64.toNat_inj, toNat_outLen, ← UInt64.toNat_inj, ← UInt64.toNat_inj, UInt64.toNat_zero,
    UInt64.toNat_one, show (-1 : UInt64).toNat = 2 ^ 64 - 1 from rfl]
  have hlt := (l + 2 * padding - k).toNat_lt
  generalize (l + 2 * padding - k).toNat = d at *
  constructor
  · intro heq
    have hle : d / stride.toNat ≤ d := Nat.div_le_self _ _
    have hdiv : d / stride.toNat = 2 ^ 64 - 1 := by
      generalize d / stride.toNat = e at heq hle ⊢
      omega
    have hone : stride.toNat = 1 := by
      by_contra hne
      have : d / stride.toNat ≤ d / 2 := Nat.div_le_div_left (by omega) (by norm_num)
      omega
    exact ⟨hone, by omega⟩
  · rintro ⟨hone, hd⟩
    rw [hone, hd]
    norm_num

/-- The positions that a tap reads are inside of the padded input. -/
theorem tap_lt {l k s p o t : ℕ} (h : k ≤ l + 2 * p) (ho : o < (l + 2 * p - k) / s + 1) (ht : t < k) :
    o * s + t < l + 2 * p := by
  have hle : o * s ≤ l + 2 * p - k := (Nat.mul_le_mul_right s (by omega)).trans (Nat.div_mul_le_self _ _)
  omega

/-- The position that the backward functions compute, if it is inside of the input. -/
def sizePlace (l stride padding : UInt64) (o t : ℕ) : Option ℕ :=
  if sizePos stride padding o t < l then some (sizePos stride padding o t).toNat else none

theorem sizePlace_of_lt {o t : ℕ} (h : sizePos stride padding o t < l) :
    sizePlace l stride padding o t = some (sizePos stride padding o t).toNat := if_pos h

theorem sizePlace_of_le {o t : ℕ} (h : l ≤ sizePos stride padding o t) : sizePlace l stride padding o t = none :=
  if_neg (UInt64.not_lt.mpr h)

theorem lt_of_sizePlace {o t i : ℕ} (h : sizePlace l stride padding o t = some i) : i < l.toNat := by
  rw [sizePlace, Option.ite_none_right_eq_some] at h
  obtain ⟨hlt, hi⟩ := h
  exact Option.some.inj hi ▸ UInt64.lt_iff_toNat_lt.mp hlt

theorem toNat_position {o t : ℕ} :
    (UInt64.ofNat o * stride + UInt64.ofNat t).toNat = (o * stride.toNat + t) % 2 ^ 64 := by
  rw [UInt64.toNat_add, UInt64.toNat_mul, UInt64.toNat_ofNat', UInt64.toNat_ofNat', Nat.mod_mul_mod, ← Nat.add_mod]

theorem sizePlace_eq {o t : ℕ} (h : k.toNat ≤ l.toNat + 2 * padding.toNat) (hspan : OutFits l k stride padding)
    (hl : l.toNat < 2 ^ 62) (hk : k.toNat < 2 ^ 62)
    (ho : o < (l.toNat + 2 * padding.toNat - k.toNat) / stride.toNat + 1) (ht : t < k.toNat) :
    sizePlace l stride padding o t =
      (window l.toNat k.toNat stride.toNat padding.toNat).place o t := by
  have hlt := tap_lt h ho ht
  have hd := hspan.span
  have hp := padding.toNat_lt
  have hpos : (sizePos stride padding o t).toNat =
      (2 ^ 64 - padding.toNat + (o * stride.toNat + t) % 2 ^ 64) % 2 ^ 64 := by
    rw [sizePos, UInt64.toNat_sub, toNat_position]
  rw [sizePlace, window]
  simp only [UInt64.lt_iff_toNat_lt, hpos]
  generalize o * stride.toNat + t = q at *
  by_cases hin : padding.toNat ≤ q ∧ q < padding.toNat + l.toNat
  · have hq : (2 ^ 64 - padding.toNat + q % 2 ^ 64) % 2 ^ 64 = q - padding.toNat := by omega
    rw [if_pos hin, hq, if_pos (by omega)]
  · rw [if_neg hin, if_neg (by omega)]

/-! ## Positions in `int` -/

/-- The position that the forward functions read, if it is in the input; `none` where the computation overflows. -/
def intPlace (l stride padding : UInt64) (o t : ℕ) : Option (Option ℕ) :=
  (intPos stride padding o t).map fun q => if Inside l q then some q.toNat else none

theorem Inside.toNat_lt {q : ℤ} (h : Inside l q) : q.toNat < l.toNat := by
  have hle : toInt l ≤ l.toNat := by
    unfold toInt
    generalize l.toNat = m
    rw [Int.bmod_def]
    omega
  obtain ⟨hlow, hhigh⟩ := h
  omega

/-- The same, without a distinction between an overflow and the padding. -/
def readPlace (l stride padding : UInt64) (o t : ℕ) : Option ℕ := (intPlace l stride padding o t).getD none

theorem readPlace_eq {o t : ℕ} {place : Option ℕ} (h : intPlace l stride padding o t = some place) :
    readPlace l stride padding o t = place := by
  rw [readPlace, h, Option.getD_some]

theorem lt_of_readPlace {o t i : ℕ} (h : readPlace l stride padding o t = some i) : i < l.toNat := by
  cases hq : intPos stride padding o t with
  | none =>
    rw [readPlace, intPlace, hq] at h
    cases h
  | some q =>
    rw [readPlace, intPlace, hq, Option.map_some, Option.getD_some, Option.ite_none_right_eq_some] at h
    obtain ⟨hin, hi⟩ := h
    exact Option.some.inj hi ▸ hin.toNat_lt

theorem toInt_of_lt (h : l.toNat < 2 ^ 31) : toInt l = l.toNat := by
  unfold toInt
  generalize l.toNat = m at *
  rw [Int.bmod_def]
  omega

/-- Small sizes are exact. -/
theorem intPlace_eq {o t : ℕ} (h : k.toNat ≤ l.toNat + 2 * padding.toNat)
    (hsmall : l.toNat + 2 * padding.toNat < 2 ^ 31)
    (ho : o < (l.toNat + 2 * padding.toNat - k.toNat) / stride.toNat + 1) (ht : t < k.toNat) :
    intPlace l stride padding o t =
      some ((window l.toNat k.toNat stride.toNat padding.toNat).place o t) := by
  have hlt := tap_lt h ho ht
  have hpos : intPos stride padding o t = some ((o * stride.toNat + t : ℕ) - (padding.toNat : ℤ)) := by
    have hq : (UInt64.ofNat o * stride + UInt64.ofNat t).toNat = o * stride.toNat + t := by
      rw [toNat_position, Nat.mod_eq_of_lt (by omega)]
    rw [intPos, toInt_of_lt (by omega), toInt_of_lt (by omega), hq, subInt, if_pos (by omega)]
  have hl : toInt l = l.toNat := toInt_of_lt (by omega)
  rw [intPlace, hpos, Option.map_some, window]
  simp only [Inside, hl]
  generalize o * stride.toNat + t = q at *
  by_cases hin : padding.toNat ≤ q ∧ q < padding.toNat + l.toNat
  · have hsub : ((q : ℤ) - padding.toNat).toNat = q - padding.toNat := by omega
    rw [if_pos hin, if_pos (by omega), hsub]
  · rw [if_neg hin, if_neg (by omega)]

/-- The window with the positions of the forward functions. -/
def intWindow (l k stride padding : UInt64) : Geometry ℕ ℕ ℕ where
  outs := (window l.toNat k.toNat stride.toNat padding.toNat).outs
  taps := (window l.toNat k.toNat stride.toNat padding.toNat).taps
  ins := (window l.toNat k.toNat stride.toNat padding.toNat).ins
  place := readPlace l stride padding
  place_mem _ _ _ _ _ h := Finset.mem_range.mpr (lt_of_readPlace h)

/-- The window with the positions of the backward functions. -/
def sizeWindow (l k stride padding : UInt64) : Geometry ℕ ℕ ℕ where
  outs := (window l.toNat k.toNat stride.toNat padding.toNat).outs
  taps := (window l.toNat k.toNat stride.toNat padding.toNat).taps
  ins := (window l.toNat k.toNat stride.toNat padding.toNat).ins
  place := sizePlace l stride padding
  place_mem _ _ _ _ _ h := Finset.mem_range.mpr (lt_of_sizePlace h)

end Sizes

/-! ## Memory -/

section Memory

variable {alloc : ℕ → Bool}

theorem toNat_bytes {shape : List UInt64} (h : 4 * (extents shape).prod < 2 ^ 64) :
    (numel shape * 4).toNat = 4 * (extents shape).prod := by
  rw [UInt64.toNat_mul, TensorEngine.numel_toNat (by omega), show (4 : UInt64).toNat = 4 from rfl]
  omega

theorem tensorZeros_eq {shape : List UInt64} (h : 4 * (extents shape).prod < 2 ^ 64)
    (hmem : alloc (4 * (extents shape).prod) = true) :
    tensorZeros alloc shape = .ok (⟨shape, (extents shape).prod, fun _ => (0 : R)⟩ : FloatTensor R) := by
  rw [tensorZeros, toNat_bytes h, if_pos hmem, Nat.mul_div_cancel_left _ (by norm_num)]

/-- A function that gives up, or fills a new tensor. -/
def fillNew (alloc : ℕ → Bool) (empty : Prop) [Decidable empty] (shape : List UInt64) (byZero : Prop)
    [Decidable byZero] (loops : ℕ → (ℕ → R) → Option (ℕ → R)) : Outcome (FloatTensor R) :=
  if empty then .null
  else (tensorZeros alloc shape).bind fun result =>
    if byZero then .fault
    else Outcome.ofOption (do
      let rd ← loops result.cells result.data
      some { result with data := rd })

section FillNew

variable {empty byZero : Prop} [Decidable empty] [Decidable byZero] {shape : List UInt64}
  {loops : ℕ → (ℕ → R) → Option (ℕ → R)}

theorem fillNew_eq (hempty : ¬empty) (hzero : ¬byZero) (hfits : 4 * (extents shape).prod < 2 ^ 64)
    (hmem : alloc (4 * (extents shape).prod) = true) :
    fillNew alloc empty shape byZero loops =
      Outcome.ofOption ((loops (extents shape).prod 0).map fun rd => ⟨shape, (extents shape).prod, rd⟩) := by
  rw [fillNew, if_neg hempty, tensorZeros_eq hfits hmem, Outcome.bind, if_neg hzero, Option.map_eq_bind]
  rfl

theorem fillNew_eq_null_iff :
    fillNew alloc empty shape byZero loops = .null ↔ empty ∨ alloc (numel shape * 4).toNat = false := by
  rw [fillNew, tensorZeros]
  by_cases hempty : empty
  · rw [if_pos hempty]
    exact iff_of_true rfl (Or.inl hempty)
  rw [if_neg hempty]
  cases hmem : alloc (numel shape * 4).toNat with
  | false => exact iff_of_true rfl (Or.inr rfl)
  | true =>
    rw [if_pos rfl, Outcome.bind]
    refine iff_of_false (fun h => ?_) (fun h => absurd h (by simp [hempty]))
    split_ifs at h
    generalize loops _ _ = rd at h
    cases rd <;> cases h

theorem shape_of_fillNew {y : FloatTensor R} (h : fillNew alloc empty shape byZero loops = .ok y) :
    y.shape = shape ∧ ¬byZero := by
  rw [fillNew] at h
  by_cases hempty : empty
  · rw [if_pos hempty] at h
    cases h
  rw [if_neg hempty, tensorZeros] at h
  by_cases hmem : alloc (numel shape * 4).toNat = true
  · rw [if_pos hmem, Outcome.bind] at h
    by_cases hzero : byZero
    · rw [if_pos hzero] at h
      cases h
    rw [if_neg hzero] at h
    generalize loops _ _ = rd at h
    cases rd with
    | none => cases h
    | some rd =>
      cases h
      exact ⟨rfl, hzero⟩
  · rw [if_neg hmem] at h
    cases h

end FillNew

omit [CommSemiring R] in
theorem read_eq {t : View R} {i : ℕ} (h : i < t.cells) (hfit : i < 2 ^ 64) : t.read i = some (t.data i) := by
  rw [View.read, Nat.mod_eq_of_lt hfit, if_pos h]

theorem toNat_batch {size d : UInt64} {N m : ℕ} (hsize : size.toNat = N * m) (hd : d.toNat = m % 2 ^ 64)
    (hne : d ≠ 0) : (size / d).toNat = N := by
  have hlt := size.toNat_lt
  have hpos := toNat_pos_of_ne hne
  rw [UInt64.toNat_div, hsize]
  rcases Nat.eq_zero_or_pos N with rfl | hN
  · rw [Nat.zero_mul, Nat.zero_div]
  · have hle : m ≤ N * m := Nat.le_mul_of_pos_left m hN
    have hm : d.toNat = m := by rw [hd, Nat.mod_eq_of_lt (by omega)]
    rw [hm, Nat.mul_div_cancel _ (hm ▸ hpos)]

end Memory

/-! ## What is shared by both dimensions -/

theorem accumulateGrad_eq {alloc : ℕ → Bool} {v : Variable R} {loops : ℕ → (ℕ → R) → Option (ℕ → R)} {data : ℕ → R}
    (hfits : 4 * (extents v.data.shape).prod < 2 ^ 64) (hmem : alloc (4 * (extents v.data.shape).prod) = true)
    (hloops : Adds (loops (extents v.data.shape).prod) data) :
    accumulateGrad alloc v loops = some (v.withGrad data) := by
  rw [accumulateGrad, Variable.withGrad]
  cases v.requiresGrad with
  | false => rfl
  | true =>
    rw [if_pos rfl, if_pos rfl, tensorZeros_eq hfits hmem]
    change (loops (extents v.data.shape).prod 0).bind _ = _
    rw [hloops.from_zero]
    rfl

theorem accumulateGrad_eq_none {alloc : ℕ → Bool} {v : Variable R} {loops : ℕ → (ℕ → R) → Option (ℕ → R)}
    (hv : v.requiresGrad = true) (hfits : 4 * (extents v.data.shape).prod < 2 ^ 64)
    (hmem : alloc (4 * (extents v.data.shape).prod) = true)
    (hloops : ∀ g, loops (extents v.data.shape).prod g = none) : accumulateGrad alloc v loops = none := by
  rw [accumulateGrad, if_pos hv, tensorZeros_eq hfits hmem]
  exact congrArg (Option.bind · _) (hloops _)

theorem extents_inj {l l' : List UInt64} (h : extents l = extents l') : l = l' :=
  List.map_injective_iff.mpr (fun _ _ => UInt64.toNat_inj.mp) h

namespace Problem

variable (P : Problem O T I)

theorem prod_input : (extents (P.n :: P.c :: P.inDims)).prod = P.n.toNat * P.c.toNat * P.geometry.ins.size := by
  change P.n.toNat * (P.c.toNat * (extents P.inDims).prod) = P.n.toNat * P.c.toNat * P.geometry.ins.size
  rw [P.in_size, mul_assoc]

theorem prod_kernel : (extents (P.k :: P.c :: P.kernelDims)).prod = P.k.toNat * P.c.toNat * P.geometry.taps.size := by
  change P.k.toNat * (P.c.toNat * (extents P.kernelDims).prod) = P.k.toNat * P.c.toNat * P.geometry.taps.size
  rw [P.kernel_size, mul_assoc]

theorem prod_outShape : P.outShape.prod = P.outCells := by
  rw [outShape, List.prod_cons, List.prod_cons, P.out_size, outCells, mul_assoc]

/-- A geometry with the positions, taps and inputs of the problem. -/
structure SameGrids (G : Geometry O T I) : Prop where
  outs : G.outs = P.geometry.outs
  taps : G.taps = P.geometry.taps
  ins : G.ins = P.geometry.ins

theorem sameGrids_geometry : P.SameGrids P.geometry := ⟨rfl, rfl, rfl⟩

/-- The shapes are those of the problem, and all cells that are read with the geometry are there. -/
structure Reads (G : Geometry O T I) (input kernel : View R) : Prop where
  input_shape : input.shape = P.n :: P.c :: P.inDims
  kernel_shape : kernel.shape = P.k :: P.c :: P.kernelDims
  cells : ∀ n < P.n.toNat, ∀ k < P.k.toNat, ∀ c < P.c.toNat, ∀ o ∈ P.geometry.outs.cells,
    ∀ t ∈ P.geometry.taps.cells, ∀ i, G.place o t = some i →
      P.inAt n c i < input.cells ∧ P.kernelAt k c t < kernel.cells

section Elements

variable {P} {G : Geometry O T I} {input kernel : View R} {n k c : ℕ} {o : O} {t : T} {i : I}

omit [CommSemiring R] in
theorem Reads.congr {G' : Geometry O T I} (h : P.Reads G input kernel)
    (hplace : 0 < P.n.toNat → 0 < P.c.toNat → 0 < P.k.toNat → ∀ o ∈ P.geometry.outs.cells,
      ∀ t ∈ P.geometry.taps.cells, G'.place o t = G.place o t) : P.Reads G' input kernel where
  input_shape := h.input_shape
  kernel_shape := h.kernel_shape
  cells n hn k hk c hc o ho t ht i hi :=
    h.cells n hn k hk c hc o ho t ht i
      ((hplace (Nat.zero_lt_of_lt hn) (Nat.zero_lt_of_lt hc) (Nat.zero_lt_of_lt hk) o ho t ht).symm.trans hi)

theorem SameGrids.place_mem (hG : P.SameGrids G) (ho : o ∈ P.geometry.outs.cells) (ht : t ∈ P.geometry.taps.cells)
    (hi : G.place o t = some i) : i ∈ P.geometry.ins.cells :=
  hG.ins ▸ G.place_mem o (hG.outs ▸ ho) t (hG.taps ▸ ht) i hi

omit [CommSemiring R] in
theorem Reads.mono {input' kernel' : View R} (h : P.Reads G input kernel) (hinput : input'.shape = input.shape)
    (hkernel : kernel'.shape = kernel.shape) (hin : input.cells ≤ input'.cells) (hker : kernel.cells ≤ kernel'.cells) :
    P.Reads G input' kernel' where
  input_shape := hinput.trans h.input_shape
  kernel_shape := hkernel.trans h.kernel_shape
  cells n hn k hk c hc o ho t ht i hi :=
    (h.cells n hn k hk c hc o ho t ht i hi).imp (fun h => h.trans_le hin) fun h => h.trans_le hker

omit [CommSemiring R] in
theorem reads_packed (hG : P.SameGrids G) (x w : ℕ → R) : P.Reads G (P.input x) (P.kernel w) where
  input_shape := rfl
  kernel_shape := rfl
  cells _ hn _ hk _ hc _ ho _ ht _ hi :=
    ⟨(Grid.address_lt hn hc (hG.place_mem ho ht hi)).trans_eq P.prod_input.symm,
      (Grid.address_lt hk hc ht).trans_eq P.prod_kernel.symm⟩

theorem inAt_lt (hn : n < P.n.toNat) (hc : c < P.c.toNat) (hi : i ∈ P.geometry.ins.cells) :
    P.inAt n c i < 2 ^ 64 := by
  have hfits := P.input_fits
  exact (Grid.address_lt hn hc hi).trans (by omega)

theorem kernelAt_lt (hk : k < P.k.toNat) (hc : c < P.c.toNat) (ht : t ∈ P.geometry.taps.cells) :
    P.kernelAt k c t < 2 ^ 64 := by
  have hfits := P.kernel_fits
  exact (Grid.address_lt hk hc ht).trans (by omega)

theorem outAt_lt (hn : n < P.n.toNat) (hk : k < P.k.toNat) (ho : o ∈ P.geometry.outs.cells) :
    P.outAt n k o < P.outCells :=
  Grid.address_lt hn hk ho

theorem adds_input (v : R) (hn : n < P.n.toNat) (hc : c < P.c.toNat) (hi : i ∈ P.geometry.ins.cells) :
    Adds (addAt (extents (P.n :: P.c :: P.inDims)).prod (P.inAt n c i % 2 ^ 64) v) (Pi.single (P.inAt n c i) v) := by
  rw [Nat.mod_eq_of_lt (inAt_lt hn hc hi), P.prod_input]
  exact adds_addAt (Grid.address_lt hn hc hi)

theorem adds_kernel (v : R) (hk : k < P.k.toNat) (hc : c < P.c.toNat) (ht : t ∈ P.geometry.taps.cells) :
    Adds (addAt (extents (P.k :: P.c :: P.kernelDims)).prod (P.kernelAt k c t % 2 ^ 64) v)
      (Pi.single (P.kernelAt k c t) v) := by
  rw [Nat.mod_eq_of_lt (kernelAt_lt hk hc ht), P.prod_kernel]
  exact adds_addAt (Grid.address_lt hk hc ht)

end Elements

/-- Loops that go over the outputs with other positions, which are right wherever there is anything to add. -/
theorem isAdjoint_of_scatter [DecidableEq T] [DecidableEq I] {P : Problem O T I} {G : Geometry O T I}
    {x w g : ℕ → R} (hG : P.SameGrids G)
    (hplace : 0 < P.n.toNat → 0 < P.c.toNat → 0 < P.k.toNat → ∀ o ∈ P.geometry.outs.cells,
      ∀ t ∈ P.geometry.taps.cells, G.place o t = P.geometry.place o t) :
    P.IsAdjoint x w g
      (∑ n ∈ range P.n.toNat, ∑ k ∈ range P.k.toNat, ∑ o ∈ G.outs.cells, ∑ t ∈ G.taps.cells, (G.place o t).elim 0 fun i =>
        ∑ c ∈ range P.c.toNat, Pi.single ((n * P.c.toNat + c) * P.geometry.ins.size + P.geometry.ins.flat i)
          (P.geometry.taps.elem P.c.toNat w k c t * P.geometry.outs.elem P.k.toNat g n k o))
      (∑ n ∈ range P.n.toNat, ∑ k ∈ range P.k.toNat, ∑ o ∈ G.outs.cells, ∑ t ∈ G.taps.cells, (G.place o t).elim 0 fun i =>
        ∑ c ∈ range P.c.toNat, Pi.single ((k * P.c.toNat + c) * P.geometry.taps.size + P.geometry.taps.flat t)
          (P.geometry.ins.elem P.c.toNat x n c i * P.geometry.outs.elem P.k.toNat g n k o)) := by
  obtain ⟨houts, htaps, hins⟩ := hG
  constructor
  · intro x'
    rw [pairing_corr_input]
    refine pairing_congr fun n hn c hc i hi => ?_
    rw [← hins] at hi ⊢
    rw [elem_scatter_input hn hc hi, gradInput, gradInput, houts, htaps]
    refine Finset.sum_congr rfl fun k hk => Finset.sum_congr rfl fun o ho => Finset.sum_congr rfl fun t ht => ?_
    rw [hplace (Nat.zero_lt_of_lt hn) (Nat.zero_lt_of_lt hc) (Nat.zero_lt_of_lt (Finset.mem_range.mp hk)) o ho t ht]
  · intro w'
    rw [pairing_corr_kernel]
    refine pairing_congr fun k hk c hc t ht => ?_
    rw [← htaps] at ht ⊢
    rw [elem_scatter_kernel hk hc ht, gradKernel, gradKernel, houts]
    refine Finset.sum_congr rfl fun n hn => Finset.sum_congr rfl fun o ho => ?_
    rw [hplace (Nat.zero_lt_of_lt (Finset.mem_range.mp hn)) (Nat.zero_lt_of_lt hc) (Nat.zero_lt_of_lt hk) o ho t
      (htaps ▸ ht)]

/-! ### Other strides -/

omit [CommSemiring R] in
/-- A packed tensor is stored as such, whatever strides others may have. -/
theorem stored_packed {shape strides : List UInt64} (hfits : 4 * (extents shape).prod < 2 ^ 64) (x : ℕ → R) :
    Stored (extents shape) strides (View.packed shape x) :=
  ⟨rfl, View.packed_valid hfits x, .inl rfl⟩

omit [CommSemiring R] in
theorem elem_packed {shape : List UInt64} {q : ℕ} (hfits : 4 * (extents shape).prod < 2 ^ 64) (x : ℕ → R)
    (hq : q < (extents shape).prod) : (View.packed shape x).elem q = x q := by
  have hlt : (extents shape).prod < 2 ^ 64 := by omega
  exact congrArg x (View.place_of_rowMajor (v := View.packed shape x) rfl hlt hq)

omit [CommSemiring R] in
/-- A tensor with the strides, in as much memory as may be read. -/
theorem exists_stored {shape strides : List UInt64} (hlen : (extents shape).length = strides.length)
    (hfits : 4 * (extents shape).prod < 2 ^ 64) (m : ℕ) (x : ℕ → R) :
    ∃ v : View R, v.shape = shape ∧ v.data = x ∧ m ≤ v.cells ∧ Stored (extents shape) strides v ∧
      ∀ q, v.elem q = x (dot (unflatten (extents shape) q) (extents strides)) := by
  refine ⟨⟨shape, strides, max m (dot (extents shape) (extents strides) + 1), x⟩, rfl, rfl, Nat.le_max_left _ _,
    ⟨rfl, ⟨by simpa [extents] using hlen, hfits, fun i hi => ?_⟩, .inr rfl⟩, fun _ => rfl⟩
  rw [Layout.address, Nat.zero_add]
  exact (Nat.lt_succ_of_le (hi.dot_le _)).trans_le (Nat.le_max_right _ _)

section Ordered

variable {P} {s : Strides} {shape : List ℕ} {strides : List UInt64} {used : ℕ → Prop} {v : View R} {q : ℕ}

omit [CommSemiring R] in
theorem place_eq (hv : Stored shape strides v) (h : InOrder shape strides used) (hused : used q)
    (hq : q < shape.prod) : v.place (unflatten (extents v.shape) q) = q := by
  have hshape := hv.shape_eq
  have hfits := hv.valid.fits
  rcases hv.strides_eq with hrow | hstrides
  · exact View.place_of_rowMajor hrow (by omega) (hshape.symm ▸ hq)
  · have hlen := hv.valid.lengths
    rw [View.place, hshape, hstrides]
    refine h ?_ q hused
    rw [← hshape, ← hstrides, ← hlen, extents, List.length_map]

omit [CommSemiring R] in
/-- An element in order is where a packed tensor has it. -/
theorem elem_eq (hv : Stored shape strides v) (h : InOrder shape strides used) (hused : used q)
    (hq : q < shape.prod) : v.elem q = v.data q ∧ q < v.cells := by
  have hplace := place_eq hv h hused hq
  refine ⟨congrArg v.data hplace, ?_⟩
  have hlt := hv.valid.place_lt (hv.shape_eq.symm ▸ hq)
  rwa [hplace] at hlt

theorem lt_of_usedInput (h : P.UsedInput q) : q < (extents (P.n :: P.c :: P.inDims)).prod := by
  obtain ⟨n, hn, c, hc, o, ho, t, ht, i, hi, rfl⟩ := h
  exact (Grid.address_lt hn hc (P.geometry.place_mem o ho t ht i hi)).trans_eq P.prod_input.symm

theorem lt_of_usedKernel (h : P.UsedKernel q) : q < (extents (P.k :: P.c :: P.kernelDims)).prod := by
  obtain ⟨-, k, hk, c, hc, o, ho, t, ht, i, hi, rfl⟩ := h
  exact (Grid.address_lt hk hc ht).trans_eq P.prod_kernel.symm

theorem lt_of_usedGrad (h : P.UsedGrad q) : q < P.outShape.prod := by
  obtain ⟨n, hn, k, hk, o, ho, t, ht, i, hi, rfl⟩ := h
  exact (Grid.address_lt hn hk ho).trans_eq P.prod_outShape.symm

/-- Strides that put all elements in order. -/
theorem ordered_of_all
    (hinput : ∀ q < (extents (P.n :: P.c :: P.inDims)).prod,
      dot (unflatten (extents (P.n :: P.c :: P.inDims)) q) (extents s.input) = q)
    (hkernel : ∀ q < (extents (P.k :: P.c :: P.kernelDims)).prod,
      dot (unflatten (extents (P.k :: P.c :: P.kernelDims)) q) (extents s.kernel) = q)
    (hgrad : ∀ q < P.outShape.prod, dot (unflatten P.outShape q) (extents s.grad) = q) : P.Ordered s where
  input _ q hq := hinput q (lt_of_usedInput hq)
  kernel _ q hq := hkernel q (lt_of_usedKernel hq)
  grad _ q hq := hgrad q (lt_of_usedGrad hq)
  reach _ n hn k hk o ho := by
    have hlt : P.outAt n k o < P.outShape.prod := (outAt_lt hn hk ho).trans_eq P.prod_outShape.symm
    exact ⟨unflatten P.outShape (P.outAt n k o), within_unflatten (Nat.zero_lt_of_lt hlt) _, (hgrad _ hlt).ge⟩

/-- What the elements that matter determine. -/
theorem IsCorrelation.congr {x x' w w' : ℕ → R} {y : FloatTensor R} (h : P.IsCorrelation x w y)
    (hx : ∀ q, P.UsedInput q → x' q = x q) (hw : ∀ q, P.UsedKernel q → w' q = w q) : P.IsCorrelation x' w' y where
  shape := h.shape
  cells := h.cells
  elems n hn k hk o ho := (h.elems n hn k hk o ho).trans (corr_congr fun c hc t ht i hi =>
    ⟨(hx _ ⟨n, hn, c, hc, o, ho, t, ht, i, hi, rfl⟩).symm,
      (hw _ ⟨Nat.zero_lt_of_lt hn, k, hk, c, hc, o, ho, t, ht, i, hi, rfl⟩).symm⟩)

theorem pairing_corr_congr {x x' : ℕ → ℕ → I → R} {w w' : ℕ → ℕ → T → R} {g g' : ℕ → R}
    (h : ∀ n < P.n.toNat, ∀ k < P.k.toNat, ∀ c < P.c.toNat, ∀ o ∈ P.geometry.outs.cells, ∀ t ∈ P.geometry.taps.cells,
      ∀ i, P.geometry.place o t = some i → x' n c i = x n c i ∧ w' k c t = w k c t)
    (hg : ∀ q, P.UsedGrad q → g' q = g q) :
    pairing P.n.toNat P.k.toNat P.geometry.outs.cells (corr P.geometry P.c.toNat x' w')
        (P.geometry.outs.elem P.k.toNat g') =
      pairing P.n.toNat P.k.toNat P.geometry.outs.cells (corr P.geometry P.c.toNat x w)
        (P.geometry.outs.elem P.k.toNat g) := by
  refine Finset.sum_congr rfl fun n hn => Finset.sum_congr rfl fun k hk => Finset.sum_congr rfl fun o ho => ?_
  rw [Finset.mem_range] at hn hk
  rw [corr_congr (h n hn k hk · · o ho)]
  by_cases hread : ∃ t ∈ P.geometry.taps.cells, ∃ i, P.geometry.place o t = some i
  · obtain ⟨t, ht, i, hi⟩ := hread
    exact congrArg _ (hg _ ⟨n, hn, k, hk, o, ho, t, ht, i, hi, rfl⟩)
  · have hzero : corr P.geometry P.c.toNat x w n k o = 0 := by
      refine Finset.sum_eq_zero fun c _ => Finset.sum_eq_zero fun t ht => ?_
      rw [Option.eq_none_iff_forall_ne_some.mpr fun i hi => hread ⟨t, ht, i, hi⟩, Option.elim_none]
    rw [hzero, zero_mul, zero_mul]

theorem IsAdjoint.congr {x x' w w' g g' gi gk : ℕ → R} (h : P.IsAdjoint x w g gi gk)
    (hx : ∀ q, P.UsedInput q → x' q = x q) (hw : ∀ q, P.UsedKernel q → w' q = w q)
    (hg : ∀ q, P.UsedGrad q → g' q = g q) : P.IsAdjoint x' w' g' gi gk where
  input y := (pairing_corr_congr (fun _ hn k hk c hc o ho t ht i hi =>
    ⟨rfl, hw _ ⟨Nat.zero_lt_of_lt hn, k, hk, c, hc, o, ho, t, ht, i, hi, rfl⟩⟩) hg).trans (h.input y)
  kernel y := (pairing_corr_congr (fun n hn _ _ c hc o ho t ht i hi =>
    ⟨hx _ ⟨n, hn, c, hc, o, ho, t, ht, i, hi, rfl⟩, rfl⟩) hg).trans (h.kernel y)

end Ordered

/-- What a forward and a backward function compute of the data as it lies in memory; all of the incoming gradient is
read. -/
structure Computes (conv : View R → View R → Outcome (FloatTensor R))
    (backward : Variable R → Variable R → View R → Option (Variable R × Variable R)) : Prop where
  forward : ∀ input kernel, P.Reads P.geometry input kernel →
    ∃ y, conv input kernel = .ok y ∧ P.IsCorrelation input.data kernel.data y
  adjoint : ∀ (vi vk : Variable R) (go : View R), P.Reads P.geometry vi.data vk.data →
    (∀ n < P.n.toNat, ∀ k < P.k.toNat, ∀ o ∈ P.geometry.outs.cells, P.outAt n k o < go.cells) →
    ∃ gi gk, P.IsAdjoint vi.data.data vk.data.data go.data gi gk ∧
      backward vi vk go = some (vi.withGrad gi, vk.withGrad gk)
  reach : ∀ (vi vk : Variable R) (go : View R), P.Reads P.geometry vi.data vk.data → vi.requiresGrad = true →
    ∀ n < P.n.toNat, ∀ k < P.k.toNat, ∀ o ∈ P.geometry.outs.cells, go.cells ≤ P.outAt n k o →
      backward vi vk go = none

/-- The functions are right for tensors that are packed or have the strides. -/
def RightFor (s : Strides) (conv : View R → View R → Outcome (FloatTensor R))
    (backward : Variable R → Variable R → View R → Option (Variable R × Variable R)) : Prop :=
  ∀ input kernel : View R, Stored (extents (P.n :: P.c :: P.inDims)) s.input input →
    Stored (extents (P.k :: P.c :: P.kernelDims)) s.kernel kernel →
    (∃ y, conv input kernel = .ok y ∧ P.IsCorrelation input.elem kernel.elem y) ∧
    ∀ vi vk go, vi.data = input → vk.data = kernel → Stored P.outShape s.grad go →
      ∃ gi gk, P.IsAdjoint input.elem kernel.elem go.elem gi gk ∧
        backward vi vk go = some (vi.withGrad gi, vk.withGrad gk)

section Strides

variable {P} {s : Strides} {conv : View R → View R → Outcome (FloatTensor R)}
  {backward : Variable R → Variable R → View R → Option (Variable R × Variable R)}

theorem rightFor_of_ordered (h : P.Computes conv backward) (hs : P.Ordered s) : P.RightFor s conv backward := by
  intro input kernel hinput hkernel
  have hx : ∀ q, P.UsedInput q → input.elem q = input.data q ∧ q < input.cells :=
    fun q hq => elem_eq hinput hs.input hq (lt_of_usedInput hq)
  have hw : ∀ q, P.UsedKernel q → kernel.elem q = kernel.data q ∧ q < kernel.cells :=
    fun q hq => elem_eq hkernel hs.kernel hq (lt_of_usedKernel hq)
  have hreads : P.Reads P.geometry input kernel := by
    refine ⟨extents_inj hinput.shape_eq, extents_inj hkernel.shape_eq, fun n hn k hk c hc o ho t ht i hi => ?_⟩
    exact ⟨(hx _ ⟨n, hn, c, hc, o, ho, t, ht, i, hi, rfl⟩).2,
      (hw _ ⟨Nat.zero_lt_of_lt hn, k, hk, c, hc, o, ho, t, ht, i, hi, rfl⟩).2⟩
  obtain ⟨y, hy, hcorr⟩ := h.forward input kernel hreads
  refine ⟨⟨y, hy, hcorr.congr (fun q hq => (hx q hq).1) fun q hq => (hw q hq).1⟩, fun vi vk go hvi hvk hgo => ?_⟩
  have hcells : ∀ n < P.n.toNat, ∀ k < P.k.toNat, ∀ o ∈ P.geometry.outs.cells, P.outAt n k o < go.cells := by
    intro n hn k hk o ho
    rcases hgo.strides_eq with hrow | hstrides
    · have hlt : P.outAt n k o < (extents go.shape).prod := by
        rw [hgo.shape_eq, P.prod_outShape]
        exact outAt_lt hn hk ho
      have hplace := hgo.valid.place_lt hlt
      have hfits := hgo.valid.fits
      rwa [View.place_of_rowMajor hrow (by omega) hlt] at hplace
    · have hlen : P.outShape.length = s.grad.length := by
        rw [← hgo.shape_eq, ← hstrides, ← hgo.valid.lengths, extents, List.length_map]
      obtain ⟨index, hin, hle⟩ := hs.reach hlen n hn k hk o ho
      have hlt := hgo.valid.below index (hgo.shape_eq.symm ▸ hin)
      rw [Layout.address, Nat.zero_add, hstrides] at hlt
      exact hle.trans_lt hlt
  obtain ⟨gi, gk, hadj, heq⟩ := h.adjoint vi vk go (hvi ▸ hvk ▸ hreads) hcells
  rw [hvi, hvk] at hadj
  exact ⟨gi, gk, hadj.congr (fun q hq => (hx q hq).1) (fun q hq => (hw q hq).1)
    fun q hq => (elem_eq hgo hs.grad hq (lt_of_usedGrad hq)).1, heq⟩

theorem input_fits' (P : Problem O T I) : 4 * (extents (P.n :: P.c :: P.inDims)).prod < 2 ^ 64 :=
  P.prod_input ▸ P.input_fits

theorem kernel_fits' (P : Problem O T I) : 4 * (extents (P.k :: P.c :: P.kernelDims)).prod < 2 ^ 64 :=
  P.prod_kernel ▸ P.kernel_fits

variable [Nontrivial R]

omit [Nontrivial R] in
/-- Functions that are right for any strides are right for packed operands. -/
theorem forward_packed (hright : P.RightFor s conv backward) (x w : ℕ → R) :
    ∃ y, conv (P.input x) (P.kernel w) = .ok y ∧ P.IsCorrelation x w y := by
  obtain ⟨⟨y, hy, hcorr⟩, -⟩ := hright _ _ (stored_packed P.input_fits' x) (stored_packed P.kernel_fits' w)
  exact ⟨y, hy, hcorr.congr (fun q hq => (elem_packed P.input_fits' _ (lt_of_usedInput hq)).symm)
    fun q hq => (elem_packed P.kernel_fits' _ (lt_of_usedKernel hq)).symm⟩

omit [Nontrivial R] in
/-- Functions that are right give the same for the data as it lies in memory. -/
theorem corr_data_eq (h : P.Computes conv backward) (hright : P.RightFor s conv backward) {input kernel : View R}
    (hinput : Stored (extents (P.n :: P.c :: P.inDims)) s.input input)
    (hkernel : Stored (extents (P.k :: P.c :: P.kernelDims)) s.kernel kernel)
    (hreads : P.Reads P.geometry input kernel) {x w : ℕ → R} (hx : ∀ q, P.UsedInput q → x q = input.elem q)
    (hw : ∀ q, P.UsedKernel q → w q = kernel.elem q) {n k : ℕ} {o : O} (hn : n < P.n.toNat) (hk : k < P.k.toNat)
    (ho : o ∈ P.geometry.outs.cells) :
    corr P.geometry P.c.toNat (P.geometry.ins.elem P.c.toNat input.data) (P.geometry.taps.elem P.c.toNat kernel.data)
        n k o =
      corr P.geometry P.c.toNat (P.geometry.ins.elem P.c.toNat x) (P.geometry.taps.elem P.c.toNat w) n k o := by
  obtain ⟨⟨y, hy, hcorr⟩, -⟩ := hright input kernel hinput hkernel
  obtain ⟨y', hy', hcorr'⟩ := h.forward input kernel hreads
  obtain rfl := Outcome.ok.inj (hy.symm.trans hy')
  exact (hcorr'.elems n hn k hk o ho).symm.trans ((hcorr.congr hx hw).elems n hn k hk o ho)

theorem eq_of_single {q a : ℕ} (h : (Pi.single q 1 : ℕ → R) a = 1) : a = q := by
  by_contra hne
  rw [Pi.single_eq_of_ne hne] at h
  exact zero_ne_one h

/-- A single 1 in memory tells where an element of the input is read. -/
theorem input_inOrder [DecidableEq T] (h : P.Computes conv backward) (hk : P.k = P.c)
    (hright : P.RightFor s conv backward) :
    InOrder (extents (P.n :: P.c :: P.inDims)) s.input P.UsedInput := by
  rintro hlen q ⟨n, hn, c, hc, o, ho, t, ht, i, hi, rfl⟩
  have hkpos : 0 < P.k.toNat := hk ▸ Nat.zero_lt_of_lt hc
  obtain ⟨v, hshape, hdata, hcells, hv, helem⟩ := exists_stored (R := R) hlen P.input_fits'
    (extents (P.n :: P.c :: P.inDims)).prod (Pi.single (P.inAt n c i) 1)
  let w : ℕ → R := Pi.single (P.kernelAt 0 c t) 1
  have heq := corr_data_eq h hright hv (stored_packed P.kernel_fits' w)
    ((reads_packed P.sameGrids_geometry v.data w).mono hshape rfl hcells le_rfl) (fun _ _ => rfl)
    (fun q hq => (elem_packed P.kernel_fits' w (lt_of_usedKernel hq)).symm) hn hkpos ho
  have hread : v.data (P.inAt n c i) = v.elem (P.inAt n c i) := by
    have hleft := corr_single (G := P.geometry) (x := P.geometry.ins.elem P.c.toNat v.data) (n := n) (k := 0) (o := o)
      hc ht
    have hright := corr_single (G := P.geometry) (x := P.geometry.ins.elem P.c.toNat v.elem) (n := n) (k := 0) (o := o)
      hc ht
    rw [hi, Option.elim_some] at hleft hright
    exact hleft.symm.trans (heq.trans hright)
  rw [helem, hdata, Pi.single_eq_same] at hread
  exact eq_of_single hread.symm

/-- The same for the kernel, where each tap reads an element of its own. -/
theorem kernel_inOrder [DecidableEq I] (h : P.Computes conv backward)
    (htap : ∀ o t t' i, P.geometry.place o t = some i → P.geometry.place o t' = some i → t' = t)
    (hright : P.RightFor s conv backward) :
    InOrder (extents (P.k :: P.c :: P.kernelDims)) s.kernel P.UsedKernel := by
  rintro hlen q ⟨hn, k, hk, c, hc, o, ho, t, ht, i, hi, rfl⟩
  obtain ⟨v, hshape, hdata, hcells, hv, helem⟩ := exists_stored (R := R) hlen P.kernel_fits'
    (extents (P.k :: P.c :: P.kernelDims)).prod (Pi.single (P.kernelAt k c t) 1)
  let x : ℕ → R := Pi.single (P.inAt 0 c i) 1
  have heq := corr_data_eq h hright (stored_packed P.input_fits' x) hv
    ((reads_packed P.sameGrids_geometry x v.data).mono rfl hshape le_rfl hcells)
    (fun q hq => (elem_packed P.input_fits' x (lt_of_usedInput hq)).symm) (fun _ _ => rfl) hn hk ho
  have hread : v.data (P.kernelAt k c t) = v.elem (P.kernelAt k c t) := by
    have hleft := corr_single_input (G := P.geometry) (w := P.geometry.taps.elem P.c.toNat v.data) (n := 0) (k := k)
      hc ho ht hi fun t' _ h => htap o t t' i hi h
    have hright := corr_single_input (G := P.geometry) (w := P.geometry.taps.elem P.c.toNat v.elem) (n := 0) (k := k)
      hc ho ht hi fun t' _ h => htap o t t' i hi h
    exact hleft.symm.trans (heq.trans hright)
  rw [helem, hdata, Pi.single_eq_same] at hread
  exact eq_of_single hread.symm

/-- The adjoint tells which element of the incoming gradient belongs to a position. -/
theorem grad_inOrder [DecidableEq O] [DecidableEq T] [DecidableEq I] (h : P.Computes conv backward)
    (hout : ∀ t o o' i, P.geometry.place o t = some i → P.geometry.place o' t = some i → o' = o) {shape : List UInt64}
    (hshape : extents shape = P.outShape) (hfits : 4 * P.outCells < 2 ^ 64) (hright : P.RightFor s conv backward)
    (hcpos : 0 < P.c.toNat) : InOrder P.outShape s.grad P.UsedGrad := by
  rintro hlen q ⟨n, hn, k, hkLt, o, ho, t, ht, i, hi, rfl⟩
  obtain ⟨go, -, hdata, hcells, hgo, helem⟩ := exists_stored (R := R) (hshape ▸ hlen)
    (by rw [hshape, P.prod_outShape]; exact hfits) P.outCells (Pi.single (P.outAt n k o) 1)
  rw [hshape] at hgo helem
  let vi : Variable R := ⟨P.input 0, true, none⟩
  let vk : Variable R := ⟨P.kernel (Pi.single (P.kernelAt k 0 t) 1), false, none⟩
  have hreads : P.Reads P.geometry vi.data vk.data := reads_packed P.sameGrids_geometry _ _
  obtain ⟨gi, gk, hadj, heq⟩ := h.adjoint vi vk go hreads fun n hn k hk o ho => (outAt_lt hn hk ho).trans_le hcells
  obtain ⟨gi', gk', hadj', heq'⟩ := (hright vi.data vk.data (stored_packed P.input_fits' _)
    (stored_packed P.kernel_fits' _)).2 vi vk go rfl rfl hgo
  -- both describe the tensor that is handed on
  have hgi : gi' = gi := by
    have hvars := congrArg (fun v : Variable R => v.grad.map View.data) (Prod.mk.inj (Option.some.inj
      (heq'.symm.trans heq))).1
    exact Option.some.inj hvars
  subst hgi
  let x' : ℕ → ℕ → I → R := fun n' c i' => if n' = n ∧ c = 0 ∧ i' = i then 1 else 0
  have hsingle : ∀ n' k', ∀ o' ∈ P.geometry.outs.cells, corr P.geometry P.c.toNat x'
      (P.geometry.taps.elem P.c.toNat (Pi.single (P.kernelAt k 0 t) 1)) n' k' o' =
      if n' = n ∧ k' = k ∧ o' = o then 1 else 0 := by
    intro n' k' o' ho'
    by_cases hkk : k' = k
    · subst hkk
      refine (corr_single hcpos ht).trans ?_
      cases hp : P.geometry.place o' t with
      | none =>
        rw [Option.elim_none, if_neg]
        rintro ⟨-, -, rfl⟩
        rw [hi] at hp
        cases hp
      | some i' =>
        rw [Option.elim_some]
        refine if_congr ?_ rfl rfl
        constructor
        · rintro ⟨hn', -, rfl⟩
          exact ⟨hn', rfl, hout t o o' i' hi hp⟩
        · rintro ⟨hn', -, rfl⟩
          exact ⟨hn', rfl, Option.some.inj (hp.symm.trans hi)⟩
    · rw [if_neg fun h => hkk h.2.1]
      exact corr_single_of_ne hcpos ht hkk
  have hpacked : ∀ q, P.UsedKernel q → (Pi.single (P.kernelAt k 0 t) 1 : ℕ → R) q = vk.data.elem q :=
    fun q hq => (elem_packed P.kernel_fits' _ (lt_of_usedKernel hq)).symm
  have hsame : P.IsAdjoint vi.data.elem (Pi.single (P.kernelAt k 0 t) 1) go.elem gi' gk' :=
    hadj'.congr (fun _ _ => rfl) hpacked fun _ _ => rfl
  have hboth := (hsame.input x').trans (hadj.input x').symm
  have hread : go.elem (P.outAt n k o) = go.data (P.outAt n k o) :=
    (pairing_single hn hkLt ho hsingle).symm.trans (hboth.trans (pairing_single hn hkLt ho hsingle))
  rw [helem, hdata, Pi.single_eq_same] at hread
  exact eq_of_single hread

omit [Nontrivial R] in
/-- A gradient that does not reach far enough is read behind its memory. -/
theorem grad_reach (h : P.Computes conv backward) {shape : List UInt64} (hshape : extents shape = P.outShape)
    (hfits : 4 * P.outCells < 2 ^ 64) (hright : P.RightFor s conv backward)
    (hlen : P.outShape.length = s.grad.length) : ∀ n < P.n.toNat, ∀ k < P.k.toNat, ∀ o ∈ P.geometry.outs.cells,
      ∃ index, Within index P.outShape ∧ P.outAt n k o ≤ dot index (extents s.grad) := by
  intro n hn k hk o ho
  by_contra hnone
  let go : View R := ⟨shape, s.grad, P.outAt n k o, 0⟩
  have hgo : Stored P.outShape s.grad go := by
    refine ⟨hshape, ⟨?_, ?_, fun index hin => ?_⟩, .inr rfl⟩
    · rw [← hshape, extents, List.length_map] at hlen
      exact hlen
    · change 4 * (extents shape).prod < 2 ^ 64
      rw [hshape, P.prod_outShape]
      exact hfits
    · rw [Layout.address, Nat.zero_add]
      exact Nat.lt_of_not_le fun hle => hnone ⟨index, hshape ▸ hin, hle⟩
  let vi : Variable R := ⟨P.input 0, true, none⟩
  let vk : Variable R := ⟨P.kernel 0, false, none⟩
  have hreads : P.Reads P.geometry vi.data vk.data := reads_packed P.sameGrids_geometry _ _
  obtain ⟨gi, gk, -, heq⟩ := (hright vi.data vk.data (stored_packed P.input_fits' _)
    (stored_packed P.kernel_fits' _)).2 vi vk go rfl rfl hgo
  rw [h.reach vi vk go hreads rfl n hn k hk o ho (Nat.le_refl _)] at heq
  cases heq

/-- Functions that compute the correlation and its adjoints of the data as it lies in memory are right for exactly the
strides that put the elements that matter in order. -/
theorem rightFor_iff [DecidableEq O] [DecidableEq T] [DecidableEq I] (h : P.Computes conv backward) (hk : P.k = P.c)
    (hcpos : 0 < P.c.toNat)
    (hinj : ∀ o o' t t' i, P.geometry.place o t = some i → P.geometry.place o' t' = some i →
      (o = o' → t' = t) ∧ (t = t' → o' = o)) {shape : List UInt64}
    (hshape : extents shape = P.outShape) (hfits : 4 * P.outCells < 2 ^ 64) :
    P.RightFor s conv backward ↔ P.Ordered s :=
  ⟨fun hright => ⟨input_inOrder h hk hright,
    kernel_inOrder h (fun o t t' i h h' => (hinj o o t t' i h h').1 rfl) hright,
    grad_inOrder h (fun t o o' i h h' => (hinj o o' t t i h h').2 rfl) hshape hfits hright hcpos,
    grad_reach h hshape hfits hright⟩, rightFor_of_ordered h⟩

omit [Nontrivial R] in
/-- The functions are right if the sizes are, and the strides put the elements that matter in order. -/
theorem correct_iff_ordered {alloc : ℕ → Bool} {Exceeds Null Sizes : Prop}
    (hnull : ∀ input kernel : View R, input.shape = P.n :: P.c :: P.inDims → kernel.shape = P.k :: P.c :: P.kernelDims →
      (conv input kernel = .null ↔ Null))
    (hsizes : ¬Exceeds → P.Room alloc →
      (∀ x w, ∃ y, conv (P.input x) (P.kernel w) = .ok y ∧ P.IsCorrelation x w y) → Sizes)
    (hright : ¬Exceeds → P.Room alloc → Sizes → (P.RightFor s conv backward ↔ P.Ordered s)) :
    P.Correct R alloc Exceeds s conv backward ↔
      (Exceeds → Null) ∧ (¬Exceeds → P.Room alloc → Sizes ∧ P.Ordered s) := by
  constructor
  · intro h
    refine ⟨fun hexc => ?_, fun hexc hroom => ?_⟩
    · exact (hnull _ _ rfl rfl).mp ((h _ _ (stored_packed P.input_fits' 0) (stored_packed P.kernel_fits' 0)).1 hexc)
    · have hall : P.RightFor s conv backward := fun input kernel hi hk => (h input kernel hi hk).2 hexc hroom
      have hs := hsizes hexc hroom (forward_packed hall)
      exact ⟨hs, (hright hexc hroom hs).mp hall⟩
  · rintro ⟨hexceeds, hfits⟩ input kernel hinput hkernel
    refine ⟨fun hexc => (hnull _ _ (extents_inj hinput.shape_eq) (extents_inj hkernel.shape_eq)).mpr (hexceeds hexc),
      fun hexc hroom => ?_⟩
    obtain ⟨hs, horder⟩ := hfits hexc hroom
    exact (hright hexc hroom hs).mpr horder input kernel hinput hkernel

end Strides

/-! ### Loops with other positions -/

section Loops

variable {P} {G : Geometry O T I} {alloc : ℕ → Bool}

/-- The elements of the result are those of the correlation over the geometry. -/
def Correlates (P : Problem O T I) (G : Geometry O T I) (x w rd : ℕ → R) : Prop :=
  ∀ n < P.n.toNat, ∀ k < P.k.toNat, ∀ o ∈ P.geometry.outs.cells,
    P.geometry.outs.elem P.k.toNat rd n k o =
      corr G P.c.toNat (P.geometry.ins.elem P.c.toNat x) (P.geometry.taps.elem P.c.toNat w) n k o

theorem Correlates.isCorrelation {x w rd : ℕ → R} {shape : List UInt64} (h : P.Correlates G x w rd)
    (hG : P.SameGrids G) (hplace : 0 < P.n.toNat → ∀ o ∈ P.geometry.outs.cells, ∀ t ∈ P.geometry.taps.cells,
      G.place o t = P.geometry.place o t) (hshape : extents shape = P.outShape) :
    P.IsCorrelation x w ⟨shape, P.outCells, rd⟩ where
  shape := hshape
  cells := rfl
  elems n hn k hk o ho := by
    rw [h n hn k hk o ho, corr, hG.taps]
    refine Finset.sum_congr rfl fun c _ => Finset.sum_congr rfl fun t ht => ?_
    rw [hplace (Nat.zero_lt_of_lt hn) o ho t ht]

/-- Where the result is a correlation whatever the operands are, the positions are right. -/
theorem place_eq_of_forward [Nontrivial R] [DecidableEq T] [DecidableEq I]
    (conv : View R → View R → Outcome (FloatTensor R)) {shape : List UInt64} {cells : ℕ} (hG : P.SameGrids G) (hn : P.n ≠ 0) (hk : P.k = P.c) (hc : 0 < P.c.toNat)
    (hok : ∀ x w, ∃ rd, conv (P.input x) (P.kernel w) = .ok ⟨shape, cells, rd⟩ ∧ P.Correlates G x w rd)
    (h : ∀ x w, ∃ y, conv (P.input x) (P.kernel w) = .ok y ∧ P.IsCorrelation x w y) :
    ∀ o ∈ P.geometry.outs.cells, ∀ t ∈ P.geometry.taps.cells, G.place o t = P.geometry.place o t := by
  intro o ho t ht
  refine place_eq_of_corr_eq (R := R) hc hG.ins hG.taps ho (hG.outs ▸ ho) ht fun x w => ?_
  obtain ⟨rd, hrd, helems⟩ := hok x w
  obtain ⟨y, hy, hcorr⟩ := h x w
  rw [hrd] at hy
  cases hy
  have hkpos : 0 < P.k.toNat := hk ▸ hc
  exact (helems 0 (toNat_pos_of_ne hn) 0 hkpos o ho).symm.trans (hcorr.elems 0 (toNat_pos_of_ne hn) 0 hkpos o ho)

/-- What a backward function does for each tap that meets an element of the input. -/
abbrev Update (T I R : Type) : Type := ℕ → ℕ → T → ℕ → I → R → (ℕ → R) → Option (ℕ → R)

/-- The loops of a backward function read the whole incoming gradient, and do an update wherever a tap meets an element
of the input. -/
structure GoesOver (P : Problem O T I) (G : Geometry O T I) (loops : View R → Update T I R → (ℕ → R) → Option (ℕ → R)) :
    Prop where
  adds : ∀ (go : View R) (update : Update T I R) (u : ℕ → ℕ → T → ℕ → I → R → ℕ → R),
    (∀ n < P.n.toNat, ∀ k < P.k.toNat, ∀ o ∈ P.geometry.outs.cells, P.outAt n k o < go.cells) →
    (∀ n < P.n.toNat, ∀ k < P.k.toNat, ∀ o ∈ P.geometry.outs.cells, ∀ t ∈ P.geometry.taps.cells, ∀ i,
      G.place o t = some i → ∀ c < P.c.toNat, ∀ g, Adds (update n k t c i g) (u n k t c i g)) →
    Adds (loops go update) (∑ n ∈ range P.n.toNat, ∑ k ∈ range P.k.toNat, ∑ o ∈ G.outs.cells, ∑ t ∈ G.taps.cells,
      (G.place o t).elim 0 fun i => ∑ c ∈ range P.c.toNat, u n k t c i (P.geometry.outs.elem P.k.toNat go.data n k o))
  none : ∀ (go : View R) (update : Update T I R) (g : ℕ → R), ∀ n < P.n.toNat, ∀ k < P.k.toNat,
    ∀ o ∈ P.geometry.outs.cells, go.cells ≤ P.outAt n k o → loops go update g = none

theorem adds_updateInput {input kernel : View R} {n k c : ℕ} {o : O} {t : T} {i : I} {g : R} (hG : P.SameGrids G)
    (hreads : P.Reads G input kernel) (hn : n < P.n.toNat) (hk : k < P.k.toNat) (ho : o ∈ P.geometry.outs.cells)
    (ht : t ∈ P.geometry.taps.cells) (hi : G.place o t = some i) (hc : c < P.c.toNat) :
    Adds (fun gid => (kernel.read (P.kernelAt k c t)).bind fun kv =>
        addAt (extents input.shape).prod (P.inAt n c i % 2 ^ 64) (kv * g) gid)
      (Pi.single (P.inAt n c i) (P.geometry.taps.elem P.c.toNat kernel.data k c t * g)) := by
  intro gid
  rw [hreads.input_shape, read_eq (hreads.cells n hn k hk c hc o ho t ht i hi).2 (kernelAt_lt hk hc ht)]
  exact adds_input _ hn hc (hG.place_mem ho ht hi) gid

theorem adds_updateKernel {input kernel : View R} {n k c : ℕ} {o : O} {t : T} {i : I} {g : R} (hG : P.SameGrids G)
    (hreads : P.Reads G input kernel) (hn : n < P.n.toNat) (hk : k < P.k.toNat) (ho : o ∈ P.geometry.outs.cells)
    (ht : t ∈ P.geometry.taps.cells) (hi : G.place o t = some i) (hc : c < P.c.toNat) :
    Adds (fun gkd => (input.read (P.inAt n c i)).bind fun v =>
        addAt (extents kernel.shape).prod (P.kernelAt k c t % 2 ^ 64) (v * g) gkd)
      (Pi.single (P.kernelAt k c t) (P.geometry.ins.elem P.c.toNat input.data n c i * g)) := by
  intro gkd
  rw [hreads.kernel_shape, read_eq (hreads.cells n hn k hk c hc o ho t ht i hi).1
    (inAt_lt hn hc (hG.place_mem ho ht hi))]
  exact adds_kernel _ hk hc ht gkd

/-- A forward function that is right for the data as it lies in memory, and a backward function whose loops go over all
taps, with positions that are right wherever there is anything to add. -/
theorem computes_of_loops [DecidableEq T] [DecidableEq I] {conv : View R → View R → Outcome (FloatTensor R)}
    {backward : Variable R → Variable R → View R → Option (Variable R × Variable R)}
    (loops : View R → Update T I R → (ℕ → R) → Option (ℕ → R)) (updateInput updateKernel : View R → ℕ → Update T I R)
    (hG : P.SameGrids G) (hroom : P.Room alloc)
    (hplace : 0 < P.n.toNat → 0 < P.c.toNat → 0 < P.k.toNat → ∀ o ∈ P.geometry.outs.cells,
      ∀ t ∈ P.geometry.taps.cells, G.place o t = P.geometry.place o t)
    (hforward : ∀ input kernel, P.Reads P.geometry input kernel →
      ∃ y, conv input kernel = .ok y ∧ P.IsCorrelation input.data kernel.data y)
    (hbackward : ∀ (vi vk : Variable R) (go : View R), P.Reads P.geometry vi.data vk.data → backward vi vk go =
      (accumulateGrad alloc vi fun cells => loops go (updateInput vk.data cells)).bind fun vi' =>
        (accumulateGrad alloc vk fun cells => loops go (updateKernel vi.data cells)).bind fun vk' => some (vi', vk'))
    (hloops : P.GoesOver G loops)
    (hinput : ∀ (kernel : View R) (cells n k : ℕ) (t : T) (c : ℕ) (i : I) (g : R), updateInput kernel cells n k t c i g =
      fun gid => (kernel.read (P.kernelAt k c t)).bind fun kv => addAt cells (P.inAt n c i % 2 ^ 64) (kv * g) gid)
    (hkernel : ∀ (input : View R) (cells n k : ℕ) (t : T) (c : ℕ) (i : I) (g : R), updateKernel input cells n k t c i g =
      fun gkd => (input.read (P.inAt n c i)).bind fun v => addAt cells (P.kernelAt k c t % 2 ^ 64) (v * g) gkd) :
    P.Computes conv backward where
  forward := hforward
  adjoint vi vk go hreads hgo := by
    have hreads' := hreads.congr hplace
    refine ⟨_, _, isAdjoint_of_scatter hG hplace, ?_⟩
    rw [hbackward vi vk go hreads,
      accumulateGrad_eq (hreads.input_shape ▸ P.input_fits') (hreads.input_shape ▸ P.prod_input ▸ hroom.input)
        (hloops.adds go _ _ hgo fun n hn k hk o ho t ht i hi c hc g =>
          hinput _ _ n k t c i g ▸ adds_updateInput hG hreads' hn hk ho ht hi hc),
      accumulateGrad_eq (hreads.kernel_shape ▸ P.kernel_fits') (hreads.kernel_shape ▸ P.prod_kernel ▸ hroom.kernel)
        (hloops.adds go _ _ hgo fun n hn k hk o ho t ht i hi c hc g =>
          hkernel _ _ n k t c i g ▸ adds_updateKernel hG hreads' hn hk ho ht hi hc)]
    rfl
  reach vi vk go hreads hv n hn k hk o ho hgo := by
    rw [hbackward vi vk go hreads, accumulateGrad_eq_none hv (hreads.input_shape ▸ P.input_fits')
      (hreads.input_shape ▸ P.prod_input ▸ hroom.input) fun g => hloops.none go _ g n hn k hk o ho hgo]
    rfl

end Loops

end Problem

/-! ## One dimension -/

/-- The sizes of an input `[n, c, l]` and a kernel `[k, c, kh]`. -/
structure Conv1d where
  n : UInt64
  c : UInt64
  l : UInt64
  k : UInt64
  kh : UInt64
  stride : UInt64
  padding : UInt64
  stride_ne : stride ≠ 0
  input_fits : 4 * (n.toNat * c.toNat * l.toNat) < 2 ^ 64
  kernel_fits : 4 * (k.toNat * c.toNat * kh.toNat) < 2 ^ 64

namespace Conv1d

variable (p : Conv1d)

def Exceeds : Prop := p.l.toNat + 2 * p.padding.toNat < p.kh.toNat

def outLen : UInt64 := Convolution.outLen p.l p.kh p.stride p.padding

def geometry : Geometry ℕ ℕ ℕ := window p.l.toNat p.kh.toNat p.stride.toNat p.padding.toNat

def problem : Problem ℕ ℕ ℕ where
  n := p.n
  c := p.c
  k := p.k
  geometry := p.geometry
  inDims := [p.l]
  kernelDims := [p.kh]
  outDims := [p.geometry.outs.size]
  in_size := Nat.mul_one _
  kernel_size := Nat.mul_one _
  out_size := Nat.mul_one _
  input_fits := p.input_fits
  kernel_fits := p.kernel_fits

theorem mem_outs {o : ℕ} : o ∈ p.geometry.outs.cells ↔ o < p.geometry.outs.size := Finset.mem_range

theorem mem_taps {t : ℕ} : t ∈ p.geometry.taps.cells ↔ t < p.kh.toNat := Finset.mem_range

/-- The geometry with the positions that are computed. -/
def intGeometry : Geometry ℕ ℕ ℕ := intWindow p.l p.kh p.stride p.padding

theorem intGeometry_place : p.intGeometry.place = readPlace p.l p.stride p.padding := rfl

variable {p} {alloc : ℕ → Bool} {input kernel : View R}

theorem conv1d_eq (hinput : input.shape = [p.n, p.c, p.l]) (hkernel : kernel.shape = [p.k, p.c, p.kh]) :
    conv1d alloc input kernel p.stride p.padding =
      fillNew alloc (p.outLen = 0) [p.n, p.c, p.outLen] (p.c * p.l = 0)
        (conv1dLoops input kernel p.l p.kh p.stride p.padding p.outLen p.c p.c
          (numel [p.n, p.c, p.l] / (p.c * p.l))) := by
  rw [conv1d, if_neg p.stride_ne, dim, dim, dim, dim, hinput, hkernel]
  rfl

theorem sameGrids_int : p.problem.SameGrids p.intGeometry := ⟨rfl, rfl, rfl⟩

/-! ### The loops -/

theorem adds_tap {l stride padding : UInt64} {inBase kernelBase pos t : ℕ} {place : Option ℕ}
    (hplace : intPlace l stride padding pos t = some place)
    (hcells : ∀ i, place = some i → inBase + i < input.cells ∧ kernelBase + t < kernel.cells)
    (hfits : ∀ i, place = some i → inBase + i < 2 ^ 64 ∧ kernelBase + t < 2 ^ 64) :
    Adds (conv1dTap input kernel l stride padding inBase kernelBase pos t)
      (place.elim 0 fun i => input.data (inBase + i) * kernel.data (kernelBase + t)) := by
  intro sum
  obtain ⟨q, hq, rfl⟩ := Option.map_eq_some_iff.mp hplace
  rw [conv1dTap, hq, Option.bind_eq_bind, Option.bind_some]
  by_cases hinside : Inside l q
  · obtain ⟨hin, hker⟩ := hcells q.toNat (if_pos hinside)
    obtain ⟨hfitIn, hfitKer⟩ := hfits q.toNat (if_pos hinside)
    rw [if_pos hinside, if_pos hinside, read_eq hin hfitIn, read_eq hker hfitKer]
    rfl
  · rw [if_neg hinside, if_neg hinside, Option.elim_none, add_zero]

theorem adds_conv1dLoops {cells : ℕ} {batch : UInt64} (hreads : p.problem.Reads p.intGeometry input kernel)
    (hbatch : batch = p.n) (hk : p.k = p.c) (hcells : cells = p.n.toNat * p.c.toNat * p.outLen.toNat) (hfits : 4 * cells < 2 ^ 64)
    (hout : p.outLen.toNat = p.geometry.outs.size)
    (hdef : p.n = 0 ∨ ∀ o ∈ p.geometry.outs.cells, ∀ t ∈ p.geometry.taps.cells,
      intPlace p.l p.stride p.padding o t ≠ none) :
    Adds (conv1dLoops input kernel p.l p.kh p.stride p.padding p.outLen p.c p.c batch cells)
      (∑ b ∈ range p.n.toNat, ∑ cIn ∈ range p.c.toNat, ∑ cOut ∈ range p.c.toNat, ∑ pos ∈ p.geometry.outs.cells,
        Pi.single ((b * p.c.toNat + cOut) * p.geometry.outs.size + p.geometry.outs.flat pos)
          (∑ t ∈ p.geometry.taps.cells, (p.intGeometry.place pos t).elim 0 fun i =>
            p.geometry.ins.elem p.c.toNat input.data b cIn i * p.geometry.taps.elem p.c.toNat kernel.data cOut cIn t)) := by
  subst hbatch
  refine Adds.forLoop fun b hb => Adds.forLoop fun cIn hcIn => Adds.forLoop fun cOut hcOut => ?_
  rw [show p.geometry.outs.cells = range p.outLen.toNat by rw [hout]; rfl]
  refine Adds.forLoop fun pos hpos => ?_
  have hsome := hdef.resolve_left fun h0 => by simp [h0] at hb
  have hposMem : pos ∈ p.geometry.outs.cells := p.mem_outs.mpr (hout ▸ hpos)
  have hcOut' : cOut < p.k.toNat := hk ▸ hcOut
  have hsum : forLoop p.kh.toNat (conv1dTap input kernel p.l p.stride p.padding
      (b * p.c.toNat * p.l.toNat + cIn * p.l.toNat) (cOut * p.c.toNat * p.kh.toNat + cIn * p.kh.toNat) pos) 0 =
      some (∑ t ∈ p.geometry.taps.cells, (p.intGeometry.place pos t).elim 0 fun i =>
        p.geometry.ins.elem p.c.toNat input.data b cIn i * p.geometry.taps.elem p.c.toNat kernel.data cOut cIn t) := by
    refine Adds.from_zero (Adds.forLoop fun t ht => ?_)
    have htMem : t ∈ p.geometry.taps.cells := p.mem_taps.mpr ht
    obtain ⟨place, hplace⟩ := Option.ne_none_iff_exists'.mp (hsome pos hposMem t htMem)
    have hget : p.intGeometry.place pos t = place := by rw [intGeometry_place, readPlace_eq hplace]
    rw [hget]
    refine (adds_tap hplace ?_ ?_).congr ?_
    · intro i hi
      rw [← Nat.add_mul, ← Nat.add_mul]
      exact hreads.cells b hb cOut hcOut' cIn hcIn pos hposMem t htMem i (hget.trans hi)
    · intro i hi
      rw [← Nat.add_mul, ← Nat.add_mul]
      exact ⟨Problem.inAt_lt (P := p.problem) hb hcIn (p.intGeometry.place_mem pos hposMem t htMem i (hget.trans hi)),
        Problem.kernelAt_lt (P := p.problem) hcOut' hcIn htMem⟩
    · rw [← Nat.add_mul, ← Nat.add_mul]
      rfl
  have hlt : (b * p.c.toNat + cOut) * p.geometry.outs.size + p.geometry.outs.flat pos < cells := by
    rw [hcells, hout]
    exact Grid.address_lt hb hcOut hposMem
  have hindex : (b * p.c.toNat * p.outLen.toNat + cOut * p.outLen.toNat + pos) % 2 ^ 64 =
      (b * p.c.toNat + cOut) * p.geometry.outs.size + p.geometry.outs.flat pos := by
    rw [← Nat.add_mul, hout]
    exact Nat.mod_eq_of_lt (hlt.trans (by omega))
  rw [hsum, hindex]
  exact adds_addAt hlt

section Fits

variable (hroom : p.problem.Room alloc) (hk : p.k = p.c) (hne : p.c * p.l ≠ 0)
  (hout : p.outLen.toNat = p.geometry.outs.size)

include hroom hk hne hout

theorem conv1d_eq_loops (hinput : input.shape = [p.n, p.c, p.l]) (hkernel : kernel.shape = [p.k, p.c, p.kh]) :
    conv1d alloc input kernel p.stride p.padding =
      Outcome.ofOption ((conv1dLoops input kernel p.l p.kh p.stride p.padding p.outLen
        p.c p.c p.n p.problem.outCells 0).map fun rd => ⟨[p.n, p.c, p.outLen], p.problem.outCells, rd⟩) := by
  have hprod : (extents [p.n, p.c, p.outLen]).prod = p.problem.outCells := by
    change p.n.toNat * (p.c.toNat * (p.outLen.toNat * 1)) = p.n.toNat * p.k.toNat * p.geometry.outs.size
    rw [hk, hout, mul_one, mul_assoc]
  have hpos : p.outLen ≠ 0 := by
    intro h0
    rw [h0] at hout
    exact absurd hout (Nat.succ_ne_zero _).symm
  have hsize : (numel [p.n, p.c, p.l]).toNat = p.n.toNat * (p.c.toNat * p.l.toNat) := by
    have hin := p.input_fits
    have hext : (extents [p.n, p.c, p.l]).prod = p.n.toNat * (p.c.toNat * p.l.toNat) :=
      congrArg (p.n.toNat * ·) (congrArg (p.c.toNat * ·) (mul_one _))
    rw [TensorEngine.numel_toNat (by rw [hext, ← mul_assoc]; omega), hext]
  have hbatch : numel [p.n, p.c, p.l] / (p.c * p.l) = p.n :=
    UInt64.toNat_inj.mp (toNat_batch hsize (UInt64.toNat_mul _ _) hne)
  rw [conv1d_eq hinput hkernel, fillNew_eq hpos hne (hprod ▸ hroom.result_fits) (hprod ▸ hroom.result), hprod, hbatch]

/-- With exact sizes, the result is a correlation with the positions that are computed. -/
theorem conv1d_eq_ok (hreads : p.problem.Reads p.intGeometry input kernel)
    (hdef : p.n = 0 ∨ ∀ o ∈ p.geometry.outs.cells, ∀ t ∈ p.geometry.taps.cells,
      intPlace p.l p.stride p.padding o t ≠ none) :
    ∃ rd, conv1d alloc input kernel p.stride p.padding = .ok ⟨[p.n, p.c, p.outLen], p.problem.outCells, rd⟩ ∧
      p.problem.Correlates p.intGeometry input.data kernel.data rd := by
  have hcells : p.problem.outCells = p.n.toNat * p.c.toNat * p.outLen.toNat := by rw [← hk, hout]; rfl
  have hloops := adds_conv1dLoops hreads rfl hk hcells hroom.result_fits hout hdef
  rw [conv1d_eq_loops hroom hk hne hout hreads.input_shape hreads.kernel_shape, hloops.from_zero]
  refine ⟨_, rfl, fun n hn k hkLt o ho => ?_⟩
  change p.geometry.outs.elem p.k.toNat _ n k o = _
  rw [hk, Finset.sum_congr rfl fun b _ => rfl, Finset.sum_comm, Grid.elem_sum]
  refine Finset.sum_congr rfl fun c hc => ?_
  exact Grid.elem_sum_single _ hn (hk ▸ hkLt) ho

/-- An overflow at any position is met by the loops. -/
theorem conv1d_eq_fault (hinput : input.shape = [p.n, p.c, p.l]) (hkernel : kernel.shape = [p.k, p.c, p.kh])
    (hn : p.n ≠ 0) {o t : ℕ} (ho : o ∈ p.geometry.outs.cells) (ht : t ∈ p.geometry.taps.cells)
    (hnone : intPlace p.l p.stride p.padding o t = none) :
    conv1d alloc input kernel p.stride p.padding = .fault := by
  have hc : 0 < p.c.toNat := toNat_pos_of_ne fun h0 => hne (by rw [h0, zero_mul])
  have hpos : intPos p.stride p.padding o t = none := Option.map_eq_none_iff.mp hnone
  have hloops : conv1dLoops input kernel p.l p.kh p.stride p.padding p.outLen
      p.c p.c p.n p.problem.outCells (0 : ℕ → R) = none := by
    refine forLoop_eq_none (toNat_pos_of_ne hn) (fun rd => ?_) 0
    refine forLoop_eq_none hc (fun rd => ?_) rd
    refine forLoop_eq_none hc (fun rd => ?_) rd
    refine forLoop_eq_none (hout ▸ p.mem_outs.mp ho) (fun rd => ?_) rd
    rw [forLoop_eq_none (p.mem_taps.mp ht) (fun sum => ?_), Option.bind_eq_bind, Option.bind_none]
    rw [conv1dTap, hpos, Option.bind_eq_bind, Option.bind_none]
  rw [conv1d_eq_loops hroom hk hne hout hinput hkernel, hloops]
  rfl

end Fits

/-- The positions that are computed are right, for all positions of the kernel and all taps. -/
def Exact (p : Conv1d) : Prop := ∀ o ∈ p.geometry.outs.cells, ∀ t ∈ p.geometry.taps.cells,
  intPlace p.l p.stride p.padding o t = some (p.geometry.place o t)

/-- Right results on packed operands need right sizes and positions. -/
theorem sizes_of_forward [Nontrivial R] (hexc : ¬p.Exceeds) (hroom : p.problem.Room alloc)
    (h : ∀ x w : ℕ → R, ∃ y, conv1d alloc (p.problem.input x) (p.problem.kernel w) p.stride p.padding = .ok y ∧
      p.problem.IsCorrelation x w y) :
    p.k = p.c ∧ p.c * p.l ≠ 0 ∧ OutFits p.l p.kh p.stride p.padding ∧ (p.n = 0 ∨ p.Exact) := by
  have hlen := toNat_outLen_eq_iff p.stride_ne (not_lt.mp hexc)
  obtain ⟨y, hy, hcorr⟩ := h 0 0
  obtain ⟨hshape, hne⟩ := shape_of_fillNew ((conv1d_eq rfl rfl).symm.trans hy)
  have hext := hcorr.shape
  rw [hshape] at hext
  have hext' : [p.n.toNat, p.c.toNat, p.outLen.toNat] = [p.n.toNat, p.k.toNat, p.geometry.outs.size] := hext
  simp only [List.cons.injEq, and_true, true_and] at hext'
  obtain ⟨hck, hout⟩ := hext'
  have hk : p.k = p.c := UInt64.toNat_inj.mp hck.symm
  refine ⟨hk, hne, hlen.mp hout, or_iff_not_imp_left.mpr fun hn o ho t ht => ?_⟩
  have hdef : ∀ o ∈ p.geometry.outs.cells, ∀ t ∈ p.geometry.taps.cells,
      intPlace p.l p.stride p.padding o t ≠ none := by
    intro o ho t ht hnone
    rw [conv1d_eq_fault hroom hk hne hout rfl rfl hn ho ht hnone] at hy
    cases hy
  obtain ⟨place, hplace⟩ := Option.ne_none_iff_exists'.mp (hdef o ho t ht)
  have hc : 0 < p.c.toNat := toNat_pos_of_ne fun h0 => hne (by rw [h0, zero_mul])
  have heq : p.intGeometry.place o t = p.geometry.place o t :=
    Problem.place_eq_of_forward (fun input kernel => conv1d alloc input kernel p.stride p.padding) sameGrids_int hn hk hc
      (fun x w => conv1d_eq_ok hroom hk hne hout (Problem.reads_packed sameGrids_int x w) (Or.inr hdef)) h o ho t ht
  rw [hplace, ← heq, intGeometry_place, readPlace_eq hplace]

/-! ### The backward function -/

/-- The geometry with the positions of the backward function. -/
def sizeGeometry (p : Conv1d) : Geometry ℕ ℕ ℕ := sizeWindow p.l p.kh p.stride p.padding

theorem sizePlace_eq_place (hexc : ¬p.Exceeds) (hfits : OutFits p.l p.kh p.stride p.padding) (hn : 0 < p.n.toNat)
    (hc : 0 < p.c.toNat) (hk : 0 < p.k.toNat) {o t : ℕ} (ho : o ∈ p.geometry.outs.cells)
    (ht : t ∈ p.geometry.taps.cells) : p.sizeGeometry.place o t = p.geometry.place o t := by
  have hin := p.input_fits
  have hkernel := p.kernel_fits
  have hl : p.l.toNat ≤ p.n.toNat * p.c.toNat * p.l.toNat := Nat.le_mul_of_pos_left _ (Nat.mul_pos hn hc)
  have hkh : p.kh.toNat ≤ p.k.toNat * p.c.toNat * p.kh.toNat := Nat.le_mul_of_pos_left _ (Nat.mul_pos hk hc)
  exact sizePlace_eq (not_lt.mp hexc) hfits (by omega) (by omega) (p.mem_outs.mp ho) (p.mem_taps.mp ht)

section Backward

variable {go : View R}

omit [CommSemiring R] in
theorem read_go {n k o : ℕ} (hfits : 4 * p.problem.outCells < 2 ^ 64) (hout : p.outLen.toNat = p.geometry.outs.size)
    (hn : n < p.n.toNat) (hk : k < p.k.toNat) (ho : o ∈ p.geometry.outs.cells) :
    go.read (n * p.k.toNat * p.outLen.toNat + k * p.outLen.toNat + o) =
      if p.problem.outAt n k o < go.cells then some (p.geometry.outs.elem p.k.toNat go.data n k o) else none := by
  have hlt : p.problem.outAt n k o < p.problem.outCells := Problem.outAt_lt (P := p.problem) hn hk ho
  rw [hout, ← Nat.add_mul]
  change (if p.problem.outAt n k o % 2 ^ 64 < go.cells then some (go.data (p.problem.outAt n k o % 2 ^ 64)) else none) = _
  rw [Nat.mod_eq_of_lt (by omega)]
  rfl

theorem goesOver_backward1dLoops (hfits : 4 * p.problem.outCells < 2 ^ 64)
    (hout : p.outLen.toNat = p.geometry.outs.size) :
    p.problem.GoesOver p.sizeGeometry (R := R) fun go =>
      backward1dLoops go p.n p.k p.outLen p.kh p.c p.l p.stride p.padding where
  adds go update u hgo hupdate := by
    refine Adds.forLoop fun n hn => Adds.forLoop fun k hk => ?_
    rw [show p.sizeGeometry.outs.cells = range p.outLen.toNat by rw [hout]; rfl]
    refine Adds.forLoop fun o ho => ?_
    have hoMem : o ∈ p.geometry.outs.cells := p.mem_outs.mpr (hout ▸ ho)
    rw [read_go hfits hout hn hk hoMem, if_pos (hgo n hn k hk o hoMem)]
    refine Adds.forLoop fun t ht => ?_
    have htMem : t ∈ p.geometry.taps.cells := p.mem_taps.mpr ht
    change Adds _ ((sizePlace p.l p.stride p.padding o t).elim 0 _)
    by_cases hin : Convolution.sizePos p.stride p.padding o t < p.l
    · have hplace := sizePlace_of_lt hin
      rw [hplace]
      exact fun g => (if_pos hin).trans
        (Adds.forLoop (fun c hc => hupdate n hn k hk o hoMem t htMem _ hplace c hc _) g)
    · rw [sizePlace_of_le (UInt64.not_lt.mp hin)]
      exact fun g => (if_neg hin).trans (adds_some g)
  none go update g n hn k hk o ho hgo := by
    refine forLoop_eq_none hn (fun g => ?_) g
    refine forLoop_eq_none hk (fun g => ?_) g
    refine forLoop_eq_none (hout ▸ p.mem_outs.mp ho) (fun g => ?_) g
    rw [read_go hfits hout hn hk ho, if_neg (Nat.not_lt.mpr hgo), Option.bind_eq_bind, Option.bind_none]

end Backward

/-! ### When they are right -/

/-- Each tap reads an element of its own, and no element twice. -/
theorem place_injective {o o' t t' i : ℕ} (h : p.geometry.place o t = some i) (h' : p.geometry.place o' t' = some i) :
    (o = o' → t' = t) ∧ (t = t' → o' = o) :=
  window_injective (toNat_pos_of_ne p.stride_ne) h h'

section RightSizes

variable (hexc : ¬p.Exceeds) (hroom : p.problem.Room alloc) (hk : p.k = p.c) (hne : p.c * p.l ≠ 0)
  (hfits : OutFits p.l p.kh p.stride p.padding) (hexact : p.n = 0 ∨ p.Exact)

include hexc hroom hk hne hfits hexact

/-- With right sizes and positions, the result is the correlation of the data as it lies in memory. -/
theorem forward_exact (hreads : p.problem.Reads p.geometry input kernel) :
    ∃ y, conv1d alloc input kernel p.stride p.padding = .ok y ∧
      p.problem.IsCorrelation input.data kernel.data y := by
  have hout : p.outLen.toNat = p.geometry.outs.size :=
    (toNat_outLen_eq_iff p.stride_ne (not_lt.mp hexc)).mpr hfits
  have hdef : p.n = 0 ∨ ∀ o ∈ p.geometry.outs.cells, ∀ t ∈ p.geometry.taps.cells,
      intPlace p.l p.stride p.padding o t ≠ none :=
    hexact.imp_right fun h o ho t ht => by rw [h o ho t ht]; exact Option.some_ne_none _
  have hplace : 0 < p.n.toNat → ∀ o ∈ p.geometry.outs.cells, ∀ t ∈ p.geometry.taps.cells,
      p.intGeometry.place o t = p.geometry.place o t := by
    intro hn o ho t ht
    have hexact' := hexact.resolve_left fun h0 => by
      rw [h0] at hn
      exact absurd hn (Nat.not_lt_zero _)
    rw [intGeometry_place, readPlace_eq (hexact' o ho t ht)]
  obtain ⟨rd, hrd, helems⟩ := conv1d_eq_ok hroom hk hne hout (hreads.congr fun hn _ _ => hplace hn) hdef
  refine ⟨_, hrd, helems.isCorrelation sameGrids_int hplace ?_⟩
  change [p.n.toNat, p.c.toNat, p.outLen.toNat] = [p.n.toNat, p.k.toNat, p.geometry.outs.size]
  rw [hk, hout]

/-- With right sizes, the functions compute the correlation and its adjoints of the data as it lies in memory. -/
theorem computes :
    p.problem.Computes (R := R) (fun input kernel => conv1d alloc input kernel p.stride p.padding)
      (fun vi vk => backwardConv1d alloc vi vk p.stride p.padding) := by
  have hout : p.outLen.toNat = p.geometry.outs.size := (toNat_outLen_eq_iff p.stride_ne (not_lt.mp hexc)).mpr hfits
  refine Problem.computes_of_loops (G := p.sizeGeometry)
    (fun go => backward1dLoops go p.n p.k p.outLen p.kh p.c p.l p.stride p.padding)
    (fun kernel => updateInput1d kernel p.c p.l p.kh) (fun input => updateKernel1d input p.c p.l p.kh) ⟨rfl, rfl, rfl⟩ hroom
    (fun hn hc hk o ho t ht => p.sizePlace_eq_place hexc hfits hn hc hk ho ht)
    (fun input kernel => forward_exact hexc hroom hk hne hfits hexact) (fun vi vk go hreads => ?_)
    (goesOver_backward1dLoops hroom.result_fits hout) (fun kernel cells n k t c i g => ?_)
    fun input cells n k t c i g => ?_
  · rw [backwardConv1d, shape3, shape3, hreads.input_shape, hreads.kernel_shape]
    rfl
  · funext gid
    rw [updateInput1d, ← Nat.add_mul, ← Nat.add_mul]
    rfl
  · funext gkd
    rw [updateKernel1d, ← Nat.add_mul, ← Nat.add_mul]
    rfl

theorem rightFor_iff_ordered [Nontrivial R] {s : Strides} :
    p.problem.RightFor s (fun input kernel : View R => conv1d alloc input kernel p.stride p.padding)
      (fun vi vk => backwardConv1d alloc vi vk p.stride p.padding) ↔ p.problem.Ordered s := by
  have hout : p.outLen.toNat = p.geometry.outs.size := (toNat_outLen_eq_iff p.stride_ne (not_lt.mp hexc)).mpr hfits
  have hc : 0 < p.c.toNat := toNat_pos_of_ne fun h0 => hne (by rw [h0, zero_mul])
  have hshape : extents [p.n, p.k, p.outLen] = p.problem.outShape := by
    change [p.n.toNat, p.k.toNat, p.outLen.toNat] = [p.n.toNat, p.k.toNat, p.geometry.outs.size]
    rw [hout]
  exact Problem.rightFor_iff (P := p.problem) (computes hexc hroom hk hne hfits hexact) hk hc
    (fun _ _ _ _ _ => p.place_injective) hshape hroom.result_fits

end RightSizes

/-- The functions in one dimension do what they are for. -/
def Correct (R : Type) [CommSemiring R] (p : Conv1d) (alloc : ℕ → Bool) (s : Strides) : Prop :=
  p.problem.Correct R alloc p.Exceeds s (fun input kernel => conv1d alloc input kernel p.stride p.padding)
    (fun input kernel => backwardConv1d alloc input kernel p.stride p.padding)

structure Works (p : Conv1d) (alloc : ℕ → Bool) (s : Strides) : Prop where
  exceeds : p.Exceeds → (p.stride = 1 ∧ p.kh = p.l + 2 * p.padding + 1) ∨
    alloc (numel [p.n, p.c, p.outLen] * 4).toNat = false
  fits : ¬p.Exceeds → p.problem.Room alloc →
    (p.k = p.c ∧ p.c * p.l ≠ 0 ∧ OutFits p.l p.kh p.stride p.padding ∧ (p.n = 0 ∨ p.Exact)) ∧ p.problem.Ordered s

theorem correct_iff_works [Nontrivial R] {s : Strides} : p.Correct R alloc s ↔ p.Works alloc s := by
  refine (Problem.correct_iff_ordered (P := p.problem) (fun input kernel hinput hkernel => ?_)
    (fun hexc hroom h => sizes_of_forward hexc hroom h)
    fun hexc hroom h => rightFor_iff_ordered hexc hroom h.1 h.2.1 h.2.2.1 h.2.2.2).trans
    ⟨fun h => ⟨h.1, h.2⟩, fun h => ⟨h.exceeds, h.fits⟩⟩
  rw [conv1d_eq hinput hkernel, fillNew_eq_null_iff, outLen, outLen_eq_zero_iff p.stride_ne]

/-- Padded inputs shorter than 2 ^ 31 have exact positions. -/
theorem works_of_small {s : Strides} (hexc : ¬p.Exceeds) (hk : p.k = p.c) (hne : p.c * p.l ≠ 0)
    (hsmall : p.l.toNat + 2 * p.padding.toNat < 2 ^ 31) (hs : p.problem.Ordered s) : p.Works alloc s where
  exceeds h := absurd h hexc
  fits _ _ := by
    refine ⟨⟨hk, hne, outFits_of_small hsmall, Or.inr fun o ho t ht => ?_⟩, hs⟩
    exact intPlace_eq (not_lt.mp hexc) hsmall (p.mem_outs.mp ho) (p.mem_taps.mp ht)

end Conv1d

end SneppxAlg.Convolution
