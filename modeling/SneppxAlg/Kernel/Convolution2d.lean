import SneppxAlg.Kernel.ConvolutionCorrect

/-!
# What the convolutions in two dimensions compute

A position of the kernel is a row and a column, and so are its taps; the geometry is the product of two windows.
-/

namespace SneppxAlg.Convolution

open FloatView Lib.AddingLoops Lib.Correlation
open TensorEngine (Outcome numel extents)
open Finset (range)

/-- The sizes of an input `[n, c, h, w]` and a kernel `[k, c, kh, kw]`. -/
structure Conv2d where
  n : UInt64
  c : UInt64
  h : UInt64
  w : UInt64
  k : UInt64
  kh : UInt64
  kw : UInt64
  strideH : UInt64
  strideW : UInt64
  padH : UInt64
  padW : UInt64
  strideH_ne : strideH ≠ 0
  strideW_ne : strideW ≠ 0
  input_fits : 4 * (n.toNat * c.toNat * (h.toNat * w.toNat)) < 2 ^ 64
  kernel_fits : 4 * (k.toNat * c.toNat * (kh.toNat * kw.toNat)) < 2 ^ 64

variable {R : Type} [CommSemiring R]

namespace Conv2d

variable (p : Conv2d)

def ExceedsH : Prop := p.h.toNat + 2 * p.padH.toNat < p.kh.toNat

def ExceedsW : Prop := p.w.toNat + 2 * p.padW.toNat < p.kw.toNat

def Exceeds : Prop := p.ExceedsH ∨ p.ExceedsW

def outH : UInt64 := outLen p.h p.kh p.strideH p.padH

def outW : UInt64 := outLen p.w p.kw p.strideW p.padW

def rows : Geometry ℕ ℕ ℕ := window p.h.toNat p.kh.toNat p.strideH.toNat p.padH.toNat

def columns : Geometry ℕ ℕ ℕ := window p.w.toNat p.kw.toNat p.strideW.toNat p.padW.toNat

def geometry : Geometry (ℕ × ℕ) (ℕ × ℕ) (ℕ × ℕ) := p.rows.prod p.columns

def problem : Problem (ℕ × ℕ) (ℕ × ℕ) (ℕ × ℕ) where
  n := p.n
  c := p.c
  k := p.k
  geometry := p.geometry
  inDims := [p.h, p.w]
  kernelDims := [p.kh, p.kw]
  outDims := [p.rows.outs.size, p.columns.outs.size]
  in_size := congrArg (p.h.toNat * ·) (Nat.mul_one _)
  kernel_size := congrArg (p.kh.toNat * ·) (Nat.mul_one _)
  out_size := congrArg (p.rows.outs.size * ·) (Nat.mul_one _)
  input_fits := p.input_fits
  kernel_fits := p.kernel_fits

theorem mem_outs {o : ℕ × ℕ} :
    o ∈ p.geometry.outs.cells ↔ o.1 < p.rows.outs.size ∧ o.2 < p.columns.outs.size :=
  Finset.mem_product.trans (and_congr Finset.mem_range Finset.mem_range)

theorem mem_taps {t : ℕ × ℕ} : t ∈ p.geometry.taps.cells ↔ t.1 < p.kh.toNat ∧ t.2 < p.kw.toNat :=
  Finset.mem_product.trans (and_congr Finset.mem_range Finset.mem_range)

theorem mem_ins {i : ℕ × ℕ} : i ∈ p.geometry.ins.cells ↔ i.1 < p.h.toNat ∧ i.2 < p.w.toNat :=
  Finset.mem_product.trans (and_congr Finset.mem_range Finset.mem_range)

/-- The geometry with the positions that are computed. -/
def intGeometry : Geometry (ℕ × ℕ) (ℕ × ℕ) (ℕ × ℕ) :=
  (intWindow p.h p.kh p.strideH p.padH).prod (intWindow p.w p.kw p.strideW p.padW)

theorem intGeometry_place {o t : ℕ × ℕ} : p.intGeometry.place o t =
    (readPlace p.h p.strideH p.padH o.1 t.1).bind fun i =>
      (readPlace p.w p.strideW p.padW o.2 t.2).map fun j => (i, j) := rfl

theorem sameGrids_int : p.problem.SameGrids p.intGeometry where
  outs := Geometry.prod_outs
  taps := Geometry.prod_taps
  ins := Geometry.prod_ins

/-- No position overflows; a kernel without rows has no columns to go through. -/
structure Defined : Prop where
  row : ∀ oh < p.rows.outs.size, ∀ kh < p.kh.toNat, intPlace p.h p.strideH p.padH oh kh ≠ none
  column : 0 < p.kh.toNat → ∀ ow < p.columns.outs.size, ∀ kw < p.kw.toNat,
    intPlace p.w p.strideW p.padW ow kw ≠ none

variable {p} {alloc : ℕ → Bool} {input kernel : View R}

theorem conv2d_eq (hinput : input.shape = [p.n, p.c, p.h, p.w]) (hkernel : kernel.shape = [p.k, p.c, p.kh, p.kw]) :
    conv2d alloc input kernel p.strideH p.strideW p.padH p.padW =
      fillNew alloc (p.outH = 0 ∨ p.outW = 0) [p.n, p.c, p.outH, p.outW] (p.c * p.h * p.w = 0)
        (conv2dLoops input kernel p.h p.w p.kh p.kw p.strideH p.strideW p.padH p.padW p.outH p.outW p.c p.c
          (numel [p.n, p.c, p.h, p.w] / (p.c * p.h * p.w))) := by
  rw [conv2d, if_neg (not_or.mpr ⟨p.strideH_ne, p.strideW_ne⟩), dim, dim, dim, dim, dim, dim, hinput, hkernel]
  rfl

theorem address_eq (b c C H W i j : ℕ) : b * C * H * W + c * H * W + i * W + j = (b * C + c) * (H * W) + (i * W + j) := by
  ring

/-! ### The loops -/

theorem adds_tap {h w kw strideH strideW padH padW : UInt64}
    {inBase kernelBase oh ow i j : ℕ} {ih : ℤ} {place : Option ℕ} (hih : intPos strideH padH oh i = some ih)
    (hplace : intPlace w strideW padW ow j = some place)
    (hcells : ∀ a b, readPlace h strideH padH oh i = some a → place = some b →
      inBase + a * w.toNat + b < input.cells ∧ kernelBase + i * kw.toNat + j < kernel.cells)
    (hfits : ∀ a b, readPlace h strideH padH oh i = some a → place = some b →
      inBase + a * w.toNat + b < 2 ^ 64 ∧ kernelBase + i * kw.toNat + j < 2 ^ 64) :
    Adds (conv2dTap input kernel h w kw strideW padW inBase kernelBase ow i ih j)
      (((readPlace h strideH padH oh i).bind fun a => place.map fun b => (a, b)).elim 0 fun a =>
        input.data (inBase + a.1 * w.toNat + a.2) * kernel.data (kernelBase + i * kw.toNat + j)) := by
  intro sum
  obtain ⟨q, hq, rfl⟩ := Option.map_eq_some_iff.mp hplace
  have hrow : readPlace h strideH padH oh i = if Inside h ih then some ih.toNat else none := by
    rw [readPlace, intPlace, hih, Option.map_some, Option.getD_some]
  rw [conv2dTap, hq, Option.bind_eq_bind, Option.bind_some]
  by_cases hinside : Inside h ih ∧ Inside w q
  · rw [if_pos hinside.1] at hrow
    obtain ⟨hin, hker⟩ := hcells ih.toNat q.toNat hrow (if_pos hinside.2)
    obtain ⟨hfitIn, hfitKer⟩ := hfits ih.toNat q.toNat hrow (if_pos hinside.2)
    rw [if_pos hinside, hrow, if_pos hinside.2, read_eq hin hfitIn, read_eq hker hfitKer]
    rfl
  · rw [if_neg hinside, hrow]
    rcases not_and_or.mp hinside with hout | hout
    · rw [if_neg hout, Option.bind_none, Option.elim_none, add_zero]
    · rw [if_neg hout]
      cases (if Inside h ih then some ih.toNat else none : Option ℕ) <;> simp

theorem adds_conv2dSum {b ci co : ℕ} {o : ℕ × ℕ} (hreads : p.problem.Reads p.intGeometry input kernel)
    (hb : b < p.n.toNat) (hci : ci < p.c.toNat) (hco : co < p.k.toNat) (ho : o ∈ p.geometry.outs.cells)
    (hdef : p.Defined) :
    Adds (conv2dSum input kernel p.h p.w p.kh p.kw p.strideH p.strideW p.padH p.padW
        (b * p.c.toNat * p.h.toNat * p.w.toNat + ci * p.h.toNat * p.w.toNat)
        (co * p.c.toNat * p.kh.toNat * p.kw.toNat + ci * p.kh.toNat * p.kw.toNat) o.1 o.2)
      (∑ t ∈ p.geometry.taps.cells, (p.intGeometry.place o t).elim 0 fun i =>
        p.geometry.ins.elem p.c.toNat input.data b ci i * p.geometry.taps.elem p.c.toNat kernel.data co ci t) := by
  obtain ⟨ho1, ho2⟩ := p.mem_outs.mp ho
  have hnested : Adds (conv2dSum input kernel p.h p.w p.kh p.kw p.strideH p.strideW p.padH
      p.padW (b * p.c.toNat * p.h.toNat * p.w.toNat + ci * p.h.toNat * p.w.toNat)
      (co * p.c.toNat * p.kh.toNat * p.kw.toNat + ci * p.kh.toNat * p.kw.toNat) o.1 o.2)
      (∑ i ∈ range p.kh.toNat, ∑ j ∈ range p.kw.toNat, (p.intGeometry.place o (i, j)).elim 0 fun a =>
        p.geometry.ins.elem p.c.toNat input.data b ci a * p.geometry.taps.elem p.c.toNat kernel.data co ci (i, j)) := by
    refine Adds.forLoop fun i hi => ?_
    obtain ⟨ih, hih⟩ := Option.ne_none_iff_exists'.mp fun hnone => hdef.row o.1 ho1 i hi (Option.map_eq_none_iff.mpr hnone)
    rw [hih]
    refine Adds.forLoop fun j hj => ?_
    obtain ⟨place, hplace⟩ := Option.ne_none_iff_exists'.mp (hdef.column (Nat.zero_lt_of_lt hi) o.2 ho2 j hj)
    have ht : (i, j) ∈ p.geometry.taps.cells := p.mem_taps.mpr ⟨hi, hj⟩
    have hget : p.intGeometry.place o (i, j) =
        (readPlace p.h p.strideH p.padH o.1 i).bind fun a => place.map fun b => (a, b) := by
      rw [← readPlace_eq hplace]
      rfl
    have hpair : ∀ a c, readPlace p.h p.strideH p.padH o.1 i = some a → place = some c →
        p.intGeometry.place o (i, j) = some (a, c) := by
      intro a c ha hc
      rw [hget, ha, hc]
      rfl
    rw [hget]
    refine (adds_tap hih hplace ?_ ?_).congr ?_
    · intro a c ha hc
      rw [address_eq, address_eq]
      exact hreads.cells b hb co hco ci hci o ho (i, j) ht (a, c) (hpair a c ha hc)
    · intro a c ha hc
      have hmem : (a, c) ∈ p.geometry.ins.cells :=
        p.mem_ins.mpr ⟨lt_of_readPlace ha, lt_of_readPlace ((readPlace_eq hplace).trans hc)⟩
      rw [address_eq, address_eq]
      exact ⟨Problem.inAt_lt (P := p.problem) hb hci hmem, Problem.kernelAt_lt (P := p.problem) hco hci ht⟩
    · simp only [address_eq]
      rfl
  exact hnested.congr (Finset.sum_product (range p.kh.toNat) (range p.kw.toNat) fun t =>
    (p.intGeometry.place o t).elim 0 fun i =>
      p.geometry.ins.elem p.c.toNat input.data b ci i * p.geometry.taps.elem p.c.toNat kernel.data co ci t).symm

theorem adds_conv2dLoops {cells : ℕ} (hreads : p.problem.Reads p.intGeometry input kernel) (hk : p.k = p.c) (hcells : cells = p.problem.outCells) (hfits : 4 * cells < 2 ^ 64)
    (houtH : p.outH.toNat = p.rows.outs.size) (houtW : p.outW.toNat = p.columns.outs.size)
    (hdef : p.n = 0 ∨ p.Defined) :
    Adds (conv2dLoops input kernel p.h p.w p.kh p.kw p.strideH p.strideW p.padH p.padW
        p.outH p.outW p.c p.c p.n cells)
      (∑ b ∈ range p.n.toNat, ∑ co ∈ range p.c.toNat, ∑ ci ∈ range p.c.toNat, ∑ o ∈ p.geometry.outs.cells,
        Pi.single ((b * p.c.toNat + co) * p.geometry.outs.size + p.geometry.outs.flat o)
          (∑ t ∈ p.geometry.taps.cells, (p.intGeometry.place o t).elim 0 fun i =>
            p.geometry.ins.elem p.c.toNat input.data b ci i * p.geometry.taps.elem p.c.toNat kernel.data co ci t)) := by
  refine Adds.forLoop fun b hb => Adds.forLoop fun co hco => Adds.forLoop fun ci hci => ?_
  have hsome := hdef.resolve_left fun h0 => by simp [h0] at hb
  rw [show p.geometry.outs.cells = range p.outH.toNat ×ˢ range p.outW.toNat by rw [houtH, houtW]; rfl]
  refine Adds.forLoop_prod fun oh hoh ow how => ?_
  have ho : (oh, ow) ∈ p.geometry.outs.cells := p.mem_outs.mpr ⟨houtH ▸ hoh, houtW ▸ how⟩
  have hlt : (b * p.c.toNat + co) * p.geometry.outs.size + p.geometry.outs.flat (oh, ow) < cells := by
    rw [hcells, show p.problem.outCells = p.n.toNat * p.c.toNat * p.geometry.outs.size by rw [← hk]; rfl]
    exact Grid.address_lt hb hco ho
  have hindex : (b * p.c.toNat * p.outH.toNat * p.outW.toNat + co * p.outH.toNat * p.outW.toNat + oh * p.outW.toNat + ow) %
      2 ^ 64 = (b * p.c.toNat + co) * p.geometry.outs.size + p.geometry.outs.flat (oh, ow) := by
    rw [address_eq, houtH, houtW]
    exact Nat.mod_eq_of_lt (hlt.trans (by omega))
  have hco' : co < p.k.toNat := hk ▸ hco
  rw [(adds_conv2dSum hreads hb hci hco' ho hsome).from_zero, hindex]
  exact adds_addAt hlt

theorem conv2dSum_eq_none {inBase kernelBase oh ow : ℕ}
    (hundef : (∃ kh < p.kh.toNat, intPlace p.h p.strideH p.padH oh kh = none) ∨
      0 < p.kh.toNat ∧ ∃ kw < p.kw.toNat, intPlace p.w p.strideW p.padW ow kw = none) (sum : R) :
    conv2dSum input kernel p.h p.w p.kh p.kw p.strideH p.strideW p.padH p.padW inBase kernelBase oh ow sum = none := by
  rcases hundef with ⟨kh, hkh, hnone⟩ | ⟨hkh, kw, hkw, hnone⟩
  · refine forLoop_eq_none hkh (fun sum => ?_) sum
    rw [Option.map_eq_none_iff.mp hnone, Option.bind_eq_bind, Option.bind_none]
  · refine forLoop_eq_none hkh (fun sum => ?_) sum
    cases intPos p.strideH p.padH oh 0 with
    | none => rfl
    | some ih =>
      refine forLoop_eq_none hkw (fun sum => ?_) sum
      rw [conv2dTap, Option.map_eq_none_iff.mp hnone, Option.bind_eq_bind, Option.bind_none]

section Fits

variable (hroom : p.problem.Room alloc) (hk : p.k = p.c) (hne : p.c * p.h * p.w ≠ 0)
  (houtH : p.outH.toNat = p.rows.outs.size) (houtW : p.outW.toNat = p.columns.outs.size)

include hroom hk hne houtH houtW

theorem conv2d_eq_loops (hinput : input.shape = [p.n, p.c, p.h, p.w])
    (hkernel : kernel.shape = [p.k, p.c, p.kh, p.kw]) :
    conv2d alloc input kernel p.strideH p.strideW p.padH p.padW =
      Outcome.ofOption ((conv2dLoops input kernel p.h p.w p.kh p.kw p.strideH p.strideW
        p.padH p.padW p.outH p.outW p.c p.c p.n p.problem.outCells 0).map fun rd =>
          ⟨[p.n, p.c, p.outH, p.outW], p.problem.outCells, rd⟩) := by
  have hprod : (extents [p.n, p.c, p.outH, p.outW]).prod = p.problem.outCells := by
    change p.n.toNat * (p.c.toNat * (p.outH.toNat * (p.outW.toNat * 1))) =
      p.n.toNat * p.k.toNat * (p.rows.outs.size * p.columns.outs.size)
    rw [hk, houtH, houtW, mul_one, mul_assoc]
  have hpos : ¬(p.outH = 0 ∨ p.outW = 0) := by
    rintro (h0 | h0)
    · rw [h0] at houtH
      exact absurd houtH (Nat.succ_ne_zero _).symm
    · rw [h0] at houtW
      exact absurd houtW (Nat.succ_ne_zero _).symm
  have hsize : (numel [p.n, p.c, p.h, p.w]).toNat = p.n.toNat * (p.c.toNat * p.h.toNat * p.w.toNat) := by
    have hin := p.input_fits
    have hext : (extents [p.n, p.c, p.h, p.w]).prod = p.n.toNat * p.c.toNat * (p.h.toNat * p.w.toNat) := by
      change p.n.toNat * (p.c.toNat * (p.h.toNat * (p.w.toNat * 1))) = _
      rw [mul_one, mul_assoc]
    rw [TensorEngine.numel_toNat (by omega), hext]
    ring
  have hmul : (p.c * p.h * p.w).toNat = p.c.toNat * p.h.toNat * p.w.toNat % 2 ^ 64 := by
    rw [UInt64.toNat_mul, UInt64.toNat_mul, Nat.mod_mul_mod]
  have hbatch : numel [p.n, p.c, p.h, p.w] / (p.c * p.h * p.w) = p.n :=
    UInt64.toNat_inj.mp (toNat_batch hsize hmul hne)
  rw [conv2d_eq hinput hkernel, fillNew_eq hpos hne (hprod ▸ hroom.result_fits) (hprod ▸ hroom.result), hprod, hbatch]

/-- With exact sizes, the result is a correlation with the positions that are computed. -/
theorem conv2d_eq_ok (hreads : p.problem.Reads p.intGeometry input kernel) (hdef : p.n = 0 ∨ p.Defined) :
    ∃ rd, conv2d alloc input kernel p.strideH p.strideW p.padH p.padW =
        .ok ⟨[p.n, p.c, p.outH, p.outW], p.problem.outCells, rd⟩ ∧
      p.problem.Correlates p.intGeometry input.data kernel.data rd := by
  have hloops := adds_conv2dLoops hreads hk rfl hroom.result_fits houtH houtW hdef
  rw [conv2d_eq_loops hroom hk hne houtH houtW hreads.input_shape hreads.kernel_shape, hloops.from_zero]
  refine ⟨_, rfl, fun n hn k hkLt o ho => ?_⟩
  change p.geometry.outs.elem p.k.toNat _ n k o = _
  rw [hk, Finset.sum_congr rfl fun b _ => Finset.sum_comm, Finset.sum_comm, Grid.elem_sum]
  rw [corr, p.sameGrids_int.taps]
  exact Finset.sum_congr rfl fun c _ => Grid.elem_sum_single _ hn (hk ▸ hkLt) ho

/-- An overflow at any position is met by the loops. -/
theorem conv2d_eq_fault (hinput : input.shape = [p.n, p.c, p.h, p.w])
    (hkernel : kernel.shape = [p.k, p.c, p.kh, p.kw]) (hn : p.n ≠ 0) (hundef : ¬p.Defined) :
    conv2d alloc input kernel p.strideH p.strideW p.padH p.padW = .fault := by
  have hc : 0 < p.c.toNat := toNat_pos_of_ne fun h0 => hne (by rw [h0, zero_mul, zero_mul])
  obtain ⟨oh, hoh, ow, how, hsum⟩ : ∃ oh < p.outH.toNat, ∃ ow < p.outW.toNat,
      (∃ kh < p.kh.toNat, intPlace p.h p.strideH p.padH oh kh = none) ∨
        0 < p.kh.toNat ∧ ∃ kw < p.kw.toNat, intPlace p.w p.strideW p.padW ow kw = none := by
    rw [houtH, houtW]
    by_contra hall
    push Not at hall
    exact hundef ⟨fun oh hoh => (hall oh hoh 0 (Nat.succ_pos _)).1,
      fun hkh ow how => (hall 0 (Nat.succ_pos _) ow how).2 hkh⟩
  have hloops : conv2dLoops input kernel p.h p.w p.kh p.kw p.strideH p.strideW p.padH
      p.padW p.outH p.outW p.c p.c p.n p.problem.outCells (0 : ℕ → R) = none := by
    refine forLoop_eq_none (toNat_pos_of_ne hn) (fun rd => ?_) 0
    refine forLoop_eq_none hc (fun rd => ?_) rd
    refine forLoop_eq_none hc (fun rd => ?_) rd
    refine forLoop_eq_none hoh (fun rd => ?_) rd
    refine forLoop_eq_none how (fun rd => ?_) rd
    rw [conv2dSum_eq_none hsum, Option.bind_eq_bind, Option.bind_none]
  rw [conv2d_eq_loops hroom hk hne houtH houtW hinput hkernel, hloops]
  rfl

end Fits

/-- The positions that are computed are right, for all positions of the kernel and all taps. -/
structure Exact (p : Conv2d) : Prop where
  isDefined : p.Defined
  place : ∀ o ∈ p.geometry.outs.cells, ∀ t ∈ p.geometry.taps.cells, p.intGeometry.place o t = p.geometry.place o t

/-- Right results on packed operands need right sizes and positions. -/
theorem sizes_of_forward [Nontrivial R] (hexc : ¬p.Exceeds) (hroom : p.problem.Room alloc)
    (h : ∀ x w : ℕ → R, ∃ y,
      conv2d alloc (p.problem.input x) (p.problem.kernel w) p.strideH p.strideW p.padH p.padW = .ok y ∧
      p.problem.IsCorrelation x w y) :
    p.k = p.c ∧ p.c * p.h * p.w ≠ 0 ∧ OutFits p.h p.kh p.strideH p.padH ∧ OutFits p.w p.kw p.strideW p.padW ∧
      (p.n = 0 ∨ p.Exact) := by
  obtain ⟨hexcH, hexcW⟩ := not_or.mp hexc
  obtain ⟨y, hy, hcorr⟩ := h 0 0
  obtain ⟨hshape, hne⟩ := shape_of_fillNew ((conv2d_eq rfl rfl).symm.trans hy)
  have hext := hcorr.shape
  rw [hshape] at hext
  have hext' : [p.n.toNat, p.c.toNat, p.outH.toNat, p.outW.toNat] =
    [p.n.toNat, p.k.toNat, p.rows.outs.size, p.columns.outs.size] := hext
  simp only [List.cons.injEq, and_true, true_and] at hext'
  obtain ⟨hck, houtH, houtW⟩ := hext'
  have hk : p.k = p.c := UInt64.toNat_inj.mp hck.symm
  refine ⟨hk, hne, (toNat_outLen_eq_iff p.strideH_ne (not_lt.mp hexcH)).mp houtH,
    (toNat_outLen_eq_iff p.strideW_ne (not_lt.mp hexcW)).mp houtW, or_iff_not_imp_left.mpr fun hn => ?_⟩
  have hdef : p.Defined := by
    by_contra hundef
    rw [conv2d_eq_fault hroom hk hne houtH houtW rfl rfl hn hundef] at hy
    cases hy
  have hc : 0 < p.c.toNat := toNat_pos_of_ne fun h0 => hne (by rw [h0, zero_mul, zero_mul])
  exact ⟨hdef, Problem.place_eq_of_forward (fun input kernel => conv2d alloc input kernel p.strideH p.strideW p.padH p.padW)
    p.sameGrids_int hn hk hc (fun x w => conv2d_eq_ok hroom hk hne houtH houtW (Problem.reads_packed p.sameGrids_int x w)
      (Or.inr hdef)) h⟩

/-- The lengths that are computed are those of the result. -/
theorem toNat_out (hexc : ¬p.Exceeds) (hfitsH : OutFits p.h p.kh p.strideH p.padH)
    (hfitsW : OutFits p.w p.kw p.strideW p.padW) :
    p.outH.toNat = p.rows.outs.size ∧ p.outW.toNat = p.columns.outs.size := by
  obtain ⟨hexcH, hexcW⟩ := not_or.mp hexc
  exact ⟨(toNat_outLen_eq_iff p.strideH_ne (not_lt.mp hexcH)).mpr hfitsH,
    (toNat_outLen_eq_iff p.strideW_ne (not_lt.mp hexcW)).mpr hfitsW⟩

/-! ### The backward function -/

/-- The geometry with the positions of the backward function. -/
def sizeGeometry (p : Conv2d) : Geometry (ℕ × ℕ) (ℕ × ℕ) (ℕ × ℕ) :=
  (sizeWindow p.h p.kh p.strideH p.padH).prod (sizeWindow p.w p.kw p.strideW p.padW)

theorem sameGrids_size : p.problem.SameGrids p.sizeGeometry where
  outs := Geometry.prod_outs
  taps := Geometry.prod_taps
  ins := Geometry.prod_ins

theorem sizeGeometry_place {o t : ℕ × ℕ} : p.sizeGeometry.place o t =
    (sizePlace p.h p.strideH p.padH o.1 t.1).bind fun i =>
      (sizePlace p.w p.strideW p.padW o.2 t.2).map fun j => (i, j) := rfl

theorem geometry_place {o t : ℕ × ℕ} : p.geometry.place o t =
    (p.rows.place o.1 t.1).bind fun i => (p.columns.place o.2 t.2).map fun j => (i, j) := rfl

theorem sizePlace_eq_place (hexc : ¬p.Exceeds) (hfitsH : OutFits p.h p.kh p.strideH p.padH)
    (hfitsW : OutFits p.w p.kw p.strideW p.padW) (hn : 0 < p.n.toNat) (hc : 0 < p.c.toNat) (hk : 0 < p.k.toNat)
    {o t : ℕ × ℕ} (ho : o ∈ p.geometry.outs.cells) (ht : t ∈ p.geometry.taps.cells) :
    p.sizeGeometry.place o t = p.geometry.place o t := by
  obtain ⟨hexcH, hexcW⟩ := not_or.mp hexc
  obtain ⟨ho1, ho2⟩ := p.mem_outs.mp ho
  obtain ⟨ht1, ht2⟩ := p.mem_taps.mp ht
  -- an input without elements has no positions, and its extents are not bounded
  by_cases hempty : 0 < p.h.toNat * p.w.toNat
  · have hh : 0 < p.h.toNat := Nat.pos_of_mul_pos_right hempty
    have hw : 0 < p.w.toNat := Nat.pos_of_mul_pos_left hempty
    have hin := p.input_fits
    have hkernel := p.kernel_fits
    have h1 : p.h.toNat ≤ p.h.toNat * p.w.toNat := Nat.le_mul_of_pos_right _ hw
    have h2 : p.w.toNat ≤ p.h.toNat * p.w.toNat := Nat.le_mul_of_pos_left _ hh
    have h3 : p.kh.toNat ≤ p.kh.toNat * p.kw.toNat := Nat.le_mul_of_pos_right _ (Nat.zero_lt_of_lt ht2)
    have h4 : p.kw.toNat ≤ p.kh.toNat * p.kw.toNat := Nat.le_mul_of_pos_left _ (Nat.zero_lt_of_lt ht1)
    have h5 : p.h.toNat * p.w.toNat ≤ p.n.toNat * p.c.toNat * (p.h.toNat * p.w.toNat) :=
      Nat.le_mul_of_pos_left _ (Nat.mul_pos hn hc)
    have h6 : p.kh.toNat * p.kw.toNat ≤ p.k.toNat * p.c.toNat * (p.kh.toNat * p.kw.toNat) :=
      Nat.le_mul_of_pos_left _ (Nat.mul_pos hk hc)
    rw [sizeGeometry_place, geometry_place, rows, columns,
      sizePlace_eq (not_lt.mp hexcH) hfitsH (by omega) (by omega) ho1 ht1,
      sizePlace_eq (not_lt.mp hexcW) hfitsW (by omega) (by omega) ho2 ht2]
  · have hnone : ∀ G, p.problem.SameGrids G → G.place o t = none := by
      refine fun G hG => Option.eq_none_iff_forall_ne_some.mpr fun i hi => hempty ?_
      obtain ⟨hi1, hi2⟩ := p.mem_ins.mp (hG.place_mem ho ht hi)
      exact Nat.mul_pos (Nat.zero_lt_of_lt hi1) (Nat.zero_lt_of_lt hi2)
    rw [hnone _ p.sameGrids_size]
    exact (hnone _ p.problem.sameGrids_geometry).symm

def sizes (p : Conv2d) : Sizes2d := ⟨p.n, p.c, p.h, p.w, p.k, p.kh, p.kw, p.outH, p.outW⟩

section Backward

variable {go : View R}

omit [CommSemiring R] in
theorem read_go {n k oh ow : ℕ} (hfits : 4 * p.problem.outCells < 2 ^ 64) (houtH : p.outH.toNat = p.rows.outs.size)
    (houtW : p.outW.toNat = p.columns.outs.size) (hn : n < p.n.toNat) (hk : k < p.k.toNat)
    (ho : (oh, ow) ∈ p.geometry.outs.cells) :
    go.read (n * p.sizes.k.toNat * p.sizes.oh.toNat * p.sizes.ow.toNat + k * p.sizes.oh.toNat * p.sizes.ow.toNat +
        oh * p.sizes.ow.toNat + ow) =
      if p.problem.outAt n k (oh, ow) < go.cells then some (p.geometry.outs.elem p.k.toNat go.data n k (oh, ow))
      else none := by
  have hlt : p.problem.outAt n k (oh, ow) < p.problem.outCells := Problem.outAt_lt (P := p.problem) hn hk ho
  rw [address_eq, show p.sizes.oh.toNat = p.rows.outs.size from houtH,
    show p.sizes.ow.toNat = p.columns.outs.size from houtW]
  change (if p.problem.outAt n k (oh, ow) % 2 ^ 64 < go.cells then
    some (go.data (p.problem.outAt n k (oh, ow) % 2 ^ 64)) else none) = _
  rw [Nat.mod_eq_of_lt (by omega)]
  rfl

theorem goesOver_backward2dLoops (hfits : 4 * p.problem.outCells < 2 ^ 64)
    (houtH : p.outH.toNat = p.rows.outs.size) (houtW : p.outW.toNat = p.columns.outs.size) :
    p.problem.GoesOver p.sizeGeometry (R := R) fun go =>
      backward2dLoops go p.sizes p.strideH p.strideW p.padH p.padW where
  adds go update u hgo hupdate := by
    refine Adds.forLoop fun n hn => Adds.forLoop fun k hk => ?_
    rw [p.sameGrids_size.outs, p.sameGrids_size.taps,
      show p.problem.geometry.outs.cells = range p.outH.toNat ×ˢ range p.outW.toNat by rw [houtH, houtW]; rfl]
    refine Adds.forLoop_prod fun oh hoh ow how => ?_
    have ho : (oh, ow) ∈ p.geometry.outs.cells := p.mem_outs.mpr ⟨houtH ▸ hoh, houtW ▸ how⟩
    rw [read_go hfits houtH houtW hn hk ho, if_pos (hgo n hn k hk _ ho),
      show p.problem.geometry.taps.cells = range p.kh.toNat ×ˢ range p.kw.toNat from rfl, Finset.sum_product]
    refine Adds.forLoop fun i hi => ?_
    by_cases hrow : p.h ≤ sizePos p.strideH p.padH oh i
    · have hnone := sizePlace_of_le hrow
      refine Adds.congr (fun g => (if_pos hrow).trans (adds_some g)) (Finset.sum_eq_zero fun j _ => ?_).symm
      rw [sizeGeometry_place, hnone]
      rfl
    · refine fun g => (if_neg hrow).trans (Adds.forLoop (fun j hj => ?_) g)
      have hsomeH := sizePlace_of_lt (UInt64.not_le.mp hrow)
      by_cases hcolumn : p.w ≤ sizePos p.strideW p.padW ow j
      · have hnone := sizePlace_of_le hcolumn
        rw [sizeGeometry_place, hsomeH, hnone]
        exact fun g => (if_pos hcolumn).trans (adds_some g)
      · have hsomeW := sizePlace_of_lt (UInt64.not_le.mp hcolumn)
        have ht : (i, j) ∈ p.geometry.taps.cells := p.mem_taps.mpr ⟨hi, hj⟩
        have hplace : p.sizeGeometry.place (oh, ow) (i, j) =
            some ((sizePos p.strideH p.padH oh i).toNat, (sizePos p.strideW p.padW ow j).toNat) := by
          rw [sizeGeometry_place, hsomeH, hsomeW]
          rfl
        rw [hplace]
        exact fun g => (if_neg hcolumn).trans
          (Adds.forLoop (fun c hc => hupdate n hn k hk _ ho (i, j) ht _ hplace c hc _) g)
  none go update g n hn k hk o ho hgo := by
    obtain ⟨ho1, ho2⟩ := p.mem_outs.mp ho
    refine forLoop_eq_none hn (fun g => ?_) g
    refine forLoop_eq_none hk (fun g => ?_) g
    refine forLoop_eq_none (houtH ▸ ho1) (fun g => ?_) g
    refine forLoop_eq_none (houtW ▸ ho2) (fun g => ?_) g
    rw [read_go hfits houtH houtW hn hk ho, if_neg (Nat.not_lt.mpr hgo), Option.bind_eq_bind, Option.bind_none]

end Backward

theorem place_injective {o o' t t' i : ℕ × ℕ} (h : p.geometry.place o t = some i)
    (h' : p.geometry.place o' t' = some i) : (o = o' → t' = t) ∧ (t = t' → o' = o) := by
  rw [geometry_place] at h h'
  obtain ⟨a, ha, hrest⟩ := Option.bind_eq_some_iff.mp h
  obtain ⟨b, hb, rfl⟩ := Option.map_eq_some_iff.mp hrest
  obtain ⟨a', ha', hrest'⟩ := Option.bind_eq_some_iff.mp h'
  obtain ⟨b', hb', heq⟩ := Option.map_eq_some_iff.mp hrest'
  obtain ⟨rfl, rfl⟩ := Prod.mk.inj heq
  obtain ⟨htap1, hout1⟩ := window_injective (toNat_pos_of_ne p.strideH_ne) ha ha'
  obtain ⟨htap2, hout2⟩ := window_injective (toNat_pos_of_ne p.strideW_ne) hb hb'
  refine ⟨fun ho => Prod.ext (htap1 ?_) (htap2 ?_), fun ht => Prod.ext (hout1 ?_) (hout2 ?_)⟩
  · rw [ho]
  · rw [ho]
  · rw [ht]
  · rw [ht]

section RightSizes

variable (hexc : ¬p.Exceeds) (hroom : p.problem.Room alloc) (hk : p.k = p.c) (hne : p.c * p.h * p.w ≠ 0)
  (hfitsH : OutFits p.h p.kh p.strideH p.padH) (hfitsW : OutFits p.w p.kw p.strideW p.padW)
  (hexact : p.n = 0 ∨ p.Exact)

include hexc hroom hk hne hfitsH hfitsW hexact

/-- With right sizes and positions, the result is the correlation of the data as it lies in memory. -/
theorem forward_exact (hreads : p.problem.Reads p.geometry input kernel) :
    ∃ y, conv2d alloc input kernel p.strideH p.strideW p.padH p.padW = .ok y ∧
      p.problem.IsCorrelation input.data kernel.data y := by
  obtain ⟨houtH, houtW⟩ := p.toNat_out hexc hfitsH hfitsW
  have hplace : 0 < p.n.toNat → ∀ o ∈ p.geometry.outs.cells, ∀ t ∈ p.geometry.taps.cells,
      p.intGeometry.place o t = p.geometry.place o t := by
    intro hn
    have hexact' := hexact.resolve_left fun h0 => by
      rw [h0] at hn
      exact absurd hn (Nat.not_lt_zero _)
    exact hexact'.place
  obtain ⟨rd, hrd, helems⟩ := conv2d_eq_ok hroom hk hne houtH houtW (hreads.congr fun hn _ _ => hplace hn)
    (hexact.imp_right Exact.isDefined)
  refine ⟨_, hrd, helems.isCorrelation p.sameGrids_int hplace ?_⟩
  change [p.n.toNat, p.c.toNat, p.outH.toNat, p.outW.toNat] =
    [p.n.toNat, p.k.toNat, p.rows.outs.size, p.columns.outs.size]
  rw [hk, houtH, houtW]

/-- With right sizes, the functions compute the correlation and its adjoints of the data as it lies in memory. -/
theorem computes :
    p.problem.Computes (R := R) (fun input kernel => conv2d alloc input kernel p.strideH p.strideW p.padH p.padW)
      (fun vi vk => backwardConv2d alloc vi vk p.strideH p.strideW p.padH p.padW) := by
  obtain ⟨houtH, houtW⟩ := p.toNat_out hexc hfitsH hfitsW
  refine Problem.computes_of_loops (G := p.sizeGeometry)
    (fun go => backward2dLoops go p.sizes p.strideH p.strideW p.padH p.padW)
    (fun kernel => updateInput2d kernel p.sizes) (fun input => updateKernel2d input p.sizes) p.sameGrids_size hroom
    (fun hn hc hk o ho t ht => p.sizePlace_eq_place hexc hfitsH hfitsW hn hc hk ho ht)
    (fun input kernel => forward_exact hexc hroom hk hne hfitsH hfitsW hexact) (fun vi vk go hreads => ?_)
    (goesOver_backward2dLoops hroom.result_fits houtH houtW) (fun kernel cells n k t c i g => ?_)
    fun input cells n k t c i g => ?_
  · rw [backwardConv2d, shape4, shape4, hreads.input_shape, hreads.kernel_shape]
    rfl
  · funext gid
    rw [updateInput2d, Sizes2d.kernelAt, Sizes2d.inAt, address_eq, address_eq]
    rfl
  · funext gkd
    rw [updateKernel2d, Sizes2d.kernelAt, Sizes2d.inAt, address_eq, address_eq]
    rfl

theorem rightFor_iff_ordered [Nontrivial R] {s : Strides} :
    p.problem.RightFor s (fun input kernel : View R => conv2d alloc input kernel p.strideH p.strideW p.padH p.padW)
      (fun vi vk => backwardConv2d alloc vi vk p.strideH p.strideW p.padH p.padW) ↔ p.problem.Ordered s := by
  obtain ⟨houtH, houtW⟩ := p.toNat_out hexc hfitsH hfitsW
  have hc : 0 < p.c.toNat := toNat_pos_of_ne fun h0 => hne (by rw [h0, zero_mul, zero_mul])
  have hshape : extents [p.n, p.k, p.outH, p.outW] = p.problem.outShape := by
    change [p.n.toNat, p.k.toNat, p.outH.toNat, p.outW.toNat] =
      [p.n.toNat, p.k.toNat, p.rows.outs.size, p.columns.outs.size]
    rw [houtH, houtW]
  exact Problem.rightFor_iff (P := p.problem) (computes hexc hroom hk hne hfitsH hfitsW hexact) hk hc
    (fun _ _ _ _ _ => place_injective) hshape hroom.result_fits

end RightSizes

/-! ### When they are right -/

/-- The functions in two dimensions do what they are for. -/
def Correct (R : Type) [CommSemiring R] (p : Conv2d) (alloc : ℕ → Bool) (s : Strides) : Prop :=
  p.problem.Correct R alloc p.Exceeds s
    (fun input kernel => conv2d alloc input kernel p.strideH p.strideW p.padH p.padW)
    (fun input kernel => backwardConv2d alloc input kernel p.strideH p.strideW p.padH p.padW)

structure Works (p : Conv2d) (alloc : ℕ → Bool) (s : Strides) : Prop where
  exceeds : p.Exceeds → (p.strideH = 1 ∧ p.kh = p.h + 2 * p.padH + 1) ∨ (p.strideW = 1 ∧ p.kw = p.w + 2 * p.padW + 1) ∨
    alloc (numel [p.n, p.c, p.outH, p.outW] * 4).toNat = false
  fits : ¬p.Exceeds → p.problem.Room alloc →
    (p.k = p.c ∧ p.c * p.h * p.w ≠ 0 ∧ OutFits p.h p.kh p.strideH p.padH ∧ OutFits p.w p.kw p.strideW p.padW ∧
      (p.n = 0 ∨ p.Exact)) ∧ p.problem.Ordered s

theorem correct_iff_works [Nontrivial R] {s : Strides} : p.Correct R alloc s ↔ p.Works alloc s := by
  refine (Problem.correct_iff_ordered (P := p.problem) (fun input kernel hinput hkernel => ?_)
    (fun hexc hroom h => sizes_of_forward hexc hroom h)
    fun hexc hroom h =>
      rightFor_iff_ordered hexc hroom h.1 h.2.1 h.2.2.1 h.2.2.2.1 h.2.2.2.2).trans
    ⟨fun h => ⟨h.1, h.2⟩, fun h => ⟨h.exceeds, h.fits⟩⟩
  rw [conv2d_eq hinput hkernel, fillNew_eq_null_iff, outH, outW, outLen_eq_zero_iff p.strideH_ne,
    outLen_eq_zero_iff p.strideW_ne, or_assoc]

/-- Padded inputs below 2 ^ 31 in both directions have exact positions. -/
theorem works_of_small {s : Strides} (hexc : ¬p.Exceeds) (hk : p.k = p.c) (hne : p.c * p.h * p.w ≠ 0)
    (hsmallH : p.h.toNat + 2 * p.padH.toNat < 2 ^ 31) (hsmallW : p.w.toNat + 2 * p.padW.toNat < 2 ^ 31)
    (hs : p.problem.Ordered s) : p.Works alloc s where
  exceeds h := absurd h hexc
  fits _ _ := by
    obtain ⟨hexcH, hexcW⟩ := not_or.mp hexc
    have hrow : ∀ oh < p.rows.outs.size, ∀ kh < p.kh.toNat,
        intPlace p.h p.strideH p.padH oh kh = some (p.rows.place oh kh) :=
      fun oh hoh kh hkh => intPlace_eq (not_lt.mp hexcH) hsmallH hoh hkh
    have hcolumn : ∀ ow < p.columns.outs.size, ∀ kw < p.kw.toNat,
        intPlace p.w p.strideW p.padW ow kw = some (p.columns.place ow kw) :=
      fun ow how kw hkw => intPlace_eq (not_lt.mp hexcW) hsmallW how hkw
    refine ⟨⟨hk, hne, outFits_of_small hsmallH, outFits_of_small hsmallW, Or.inr ⟨⟨?_, ?_⟩, ?_⟩⟩, hs⟩
    · intro oh hoh kh hkh
      rw [hrow oh hoh kh hkh]
      exact Option.some_ne_none _
    · intro _ ow how kw hkw
      rw [hcolumn ow how kw hkw]
      exact Option.some_ne_none _
    · intro o ho t ht
      obtain ⟨ho1, ho2⟩ := p.mem_outs.mp ho
      obtain ⟨ht1, ht2⟩ := p.mem_taps.mp ht
      rw [intGeometry_place, readPlace_eq (hrow _ ho1 _ ht1), readPlace_eq (hcolumn _ ho2 _ ht2), geometry_place]

end Conv2d

/-- The convolutions and their backward functions are right exactly in these cases. -/
theorem conv_correct_iff [Nontrivial R] (p : Conv1d) (q : Conv2d) (alloc : ℕ → Bool) (s : Strides) :
    (p.Correct R alloc s ↔ p.Works alloc s) ∧ (q.Correct R alloc s ↔ q.Works alloc s) :=
  ⟨Conv1d.correct_iff_works, Conv2d.correct_iff_works⟩

/-- An input `[2, 3, 5]` with three kernels of width 3, with a step of 2. -/
def threeKernels : Conv1d := ⟨2, 3, 5, 3, 3, 2, 1, by decide, by decide, by decide⟩

/-- An input `[1, 2, 4, 5]` with two kernels of 3 rows and 2 columns. -/
def twoPlanes : Conv2d := ⟨1, 2, 4, 5, 2, 3, 2, 1, 2, 1, 0, by decide, by decide, by decide, by decide⟩

/-- The single image may have any stride. -/
def planeStrides : Strides := ⟨[7, 20, 5, 1], [12, 6, 2, 1], [16, 8, 2, 1]⟩

theorem conv_correct_iff_small : threeKernels.Correct ℤ (fun _ => true) ⟨[15, 5, 1], [9, 3, 1], [9, 3, 1]⟩ ∧
    twoPlanes.Correct ℤ (fun _ => true) planeStrides := by
  obtain ⟨h1, -⟩ := conv_correct_iff (R := ℤ) threeKernels twoPlanes (fun _ => true) ⟨[15, 5, 1], [9, 3, 1], [9, 3, 1]⟩
  obtain ⟨-, h2⟩ := conv_correct_iff (R := ℤ) threeKernels twoPlanes (fun _ => true) planeStrides
  refine ⟨h1.mpr (Conv1d.works_of_small ?_ rfl (by decide) (by decide) ?_),
    h2.mpr (Conv2d.works_of_small ?_ rfl (by decide) (by decide) (by decide) ?_)⟩
  · exact not_lt.mpr (by decide)
  · exact Problem.ordered_of_all (by decide) (by decide) (by decide)
  · exact not_or.mpr ⟨not_lt.mpr (by decide), not_lt.mpr (by decide)⟩
  · exact Problem.ordered_of_all (by decide) (by decide) (by decide)

/-- An input `[1, 1, 3]` with two kernels of width 2. -/
def twoKernels : Conv1d := ⟨1, 1, 3, 2, 2, 1, 0, by decide, by decide, by decide⟩

/-- A kernel of width 2 over a single cell, with a step of 2. -/
def wideKernel : Conv1d := ⟨1, 1, 1, 1, 2, 2, 0, by decide, by decide, by decide⟩

def twoPlaneKernels : Conv2d := ⟨1, 1, 3, 3, 2, 2, 2, 1, 1, 0, 0, by decide, by decide, by decide, by decide⟩

/-- An input `[1, 2, 2]` with two kernels of width 1. -/
def twoChannels : Conv1d := ⟨1, 2, 2, 2, 1, 1, 0, by decide, by decide, by decide⟩

/-- The result has the channels of the input, a kernel that is too wide is not refused, and a transposed input is read
as it lies in memory. -/
theorem not_correct_kernels : ¬twoKernels.Correct ℤ (fun _ => true) ⟨[3, 3, 1], [2, 2, 1], [4, 2, 1]⟩ ∧
    ¬wideKernel.Correct ℤ (fun _ => true) ⟨[1, 1, 1], [2, 2, 1], [1, 1, 1]⟩ ∧
    ¬twoPlaneKernels.Correct ℤ (fun _ => true) ⟨[9, 9, 3, 1], [4, 4, 2, 1], [8, 4, 2, 1]⟩ ∧
    ¬twoChannels.Correct ℤ (fun _ => true) ⟨[4, 1, 2], [2, 1, 1], [4, 2, 1]⟩ := by
  refine ⟨fun h => ?_, fun h => ?_, fun h => ?_, fun h => ?_⟩
  · have hworks := Conv1d.correct_iff_works.mp h
    exact absurd (hworks.fits (not_lt.mpr (by decide)) ⟨by decide, rfl, rfl, rfl⟩).1.1 (by decide)
  · have hworks := Conv1d.correct_iff_works.mp h
    exact absurd (hworks.exceeds (show (_ : ℕ) < _ by decide)) (by decide)
  · have hworks := Conv2d.correct_iff_works.mp h
    exact absurd (hworks.fits (not_or.mpr ⟨not_lt.mpr (by decide), not_lt.mpr (by decide)⟩)
      ⟨by decide, rfl, rfl, rfl⟩).1.1 (by decide)
  · have hworks := Conv1d.correct_iff_works.mp h
    have hused : twoChannels.problem.UsedInput 1 := ⟨0, by decide, 0, by decide, 1, by decide, 0, by decide, 1, rfl, rfl⟩
    have horder := (hworks.fits (not_lt.mpr (by decide)) ⟨by decide, rfl, rfl, rfl⟩).2.input rfl 1 hused
    exact absurd horder (by decide)

end SneppxAlg.Convolution
