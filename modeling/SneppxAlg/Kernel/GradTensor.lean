import SneppxAlg.Kernel.TensorContiguous

/-!
# `ops.c`: gradients in memory

A gradient is a tensor with strides. `SNEPPX_tensor_copy` and the backward functions read its data as it lies in
memory, the element-wise operations of the engine a contiguous copy, and `grad_accum` adds in place, cell by cell from
the start of the data on. A consumer finds an element by the strides (`View.at?`).

A gradient is added as it should be for every gradient that the operand had before exactly if the tensor has the right
elements both ways, by its strides and as it lies in memory (`accumulates_iff`).

Arithmetic is that of a commutative ring, allocations succeed, and `none` is undefined behaviour: an access outside of
an array.
-/

namespace SneppxAlg.GradTensor

open Lib.Strided

/-! ## Tensors -/

/-- A contiguous tensor. -/
structure Dense (R : Type) where
  shape : List ℕ
  data : List R
  size_eq : data.length = shape.prod

/-- A tensor with strides; `data` is what the storage holds from the data pointer on. -/
structure View (R : Type) where
  shape : List ℕ
  strides : List ℕ
  data : List R

variable {R : Type} [CommRing R]

namespace Dense

/-- The number of elements. -/
def size (t : Dense R) : ℕ := t.shape.prod

/-- The element at a place. -/
def elem (t : Dense R) (i : ℕ) : R := t.data.getD i 0

/-- The tensor with given elements. -/
def ofFn (shape : List ℕ) (f : ℕ → R) : Dense R :=
  { shape := shape, data := (List.range shape.prod).map f, size_eq := by simp }

/-- The tensor with its strides. -/
def view (t : Dense R) : View R := ⟨t.shape, packedStrides t.shape, t.data⟩

/-- The tensor with `h` added to one element. -/
def bump (t : Dense R) (j : ℕ) (h : R) : Dense R :=
  ofFn t.shape fun i => if i = j then t.elem i + h else t.elem i

end Dense

namespace View

/-- The number of elements. -/
def size (v : View R) : ℕ := v.shape.prod

/-- The cell at a place of the memory. -/
def cell (v : View R) (i : ℕ) : R := v.data.getD i 0

/-- The element with an index. -/
def at? (v : View R) (index : List ℕ) : Option R :=
  if v.shape.length ≤ v.strides.length then v.data[dot index v.strides]? else none

/-- Element number `i` in index order. -/
def elem (v : View R) (i : ℕ) : R := (v.at? (unflatten v.shape i)).getD 0

/-- `SNEPPX_tensor_copy`. -/
def copy (v : View R) : Option (Dense R) :=
  if v.size ≤ v.data.length then some (.ofFn v.shape v.cell) else none

/-- The elements that `tensor_prep_contiguous` gives. -/
def contiguous (v : View R) : Option (Dense R) :=
  if v.strides = packedStrides v.shape then v.copy
  else
    let place := TensorEngine.offsetFrom v.shape.reverse v.strides.reverse
    if ∀ i < v.size, place i < v.data.length then some (.ofFn v.shape fun i => v.cell (place i)) else none

end View

/-- The loop of `grad_accum`. -/
def View.addCells (g x : View R) (n : ℕ) : View R :=
  { g with data := (List.range g.data.length).map fun i => if i < n then g.cell i + x.cell i else g.cell i }

/-- `grad_accum`. -/
def gradAccum (grad : Option (View R)) (x : View R) : Option (Option (View R)) :=
  match grad with
  | none => some (some x)
  | some g =>
    let n := min g.size x.size
    if n ≤ g.data.length ∧ n ≤ x.data.length then some (some (g.addCells x n)) else none

/-! ## What should be added -/

/-- The strides put the elements into the memory in index order. -/
def InOrder (shape strides : List ℕ) : Prop :=
  ∀ i, Within i shape → dot i strides = dot i (packedStrides shape)

/-- A tensor inside its storage. -/
structure Lies (v : View R) (shape strides : List ℕ) : Prop where
  shape_eq : v.shape = shape
  strides_eq : v.strides = strides
  length_eq : shape.length = strides.length
  inside : ∀ i, Within i shape → dot i strides < v.data.length

/-- The gradient of an operand is null, or has the shape of the operand and lies in memory in index order. -/
def Ordered (shape : List ℕ) (grad : Option (View R)) : Prop :=
  ∀ v ∈ grad, Lies v shape v.strides ∧ InOrder shape v.strides

/-- The gradient of an operand has the values added to its elements; a null gradient counts as zeros. -/
def Added (before after : Option (View R)) (shape : List ℕ) (values : ℕ → R) : Prop :=
  ∃ y, after = some y ∧ y.shape = shape ∧ ∀ i, Within i shape →
    y.at? i = some ((before.bind fun v => v.at? i).getD 0 + values (dot i (packedStrides shape)))

/-- An operand that requires a gradient gets the values; another one is left alone. -/
def Gets (requiresGrad : Bool) (before after : Option (View R)) (shape : List ℕ) (values : ℕ → R) : Prop :=
  if requiresGrad then Added before after shape values else after = before

/-- The tensor has the values by its strides, and as it lies in memory. -/
structure Holds (y : View R) (shape : List ℕ) (values : ℕ → R) : Prop where
  shape_eq : y.shape = shape
  elems : ∀ i, Within i shape → y.at? i = some (values (dot i (packedStrides shape)))
  room : shape.prod ≤ y.data.length
  cells : ∀ k < shape.prod, y.cell k = values k

/-! ## Contiguous tensors -/

namespace Dense

omit [CommRing R] in
@[simp]
theorem shape_ofFn (shape : List ℕ) (f : ℕ → R) : (ofFn shape f).shape = shape := rfl

theorem elem_ofFn {shape : List ℕ} (f : ℕ → R) {i : ℕ} (hi : i < shape.prod) : (ofFn shape f).elem i = f i := by
  simp [elem, ofFn, hi]

theorem ofFn_elem (t : Dense R) : ofFn t.shape t.elem = t := by
  obtain ⟨shape, data, hsize⟩ := t
  simp only [ofFn, mk.injEq, true_and]
  apply List.ext_getElem
  · simp [hsize]
  · intro k h1 h2
    simp [elem, h2]

omit [CommRing R] in
theorem ofFn_congr {shape : List ℕ} {f f' : ℕ → R} (h : ∀ i < shape.prod, f i = f' i) :
    ofFn shape f = ofFn shape f' := by
  simp only [ofFn, mk.injEq, true_and]
  exact List.map_congr_left fun i hi => h i (List.mem_range.1 hi)

theorem ext_elem {t t' : Dense R} (hshape : t.shape = t'.shape) (h : ∀ i < t.size, t.elem i = t'.elem i) : t = t' := by
  rw [← ofFn_elem t, ← ofFn_elem t', ← hshape]
  exact ofFn_congr h

theorem getElem?_data (t : Dense R) {i : ℕ} (hi : i < t.size) : t.data[i]? = some (t.elem i) := by
  have hlen : i < t.data.length := t.size_eq.symm ▸ hi
  simp [elem, hlen]

theorem at?_view (t : Dense R) {i : List ℕ} (hi : Within i t.shape) :
    t.view.at? i = some (t.elem (dot i (packedStrides t.shape))) := by
  refine (if_pos (length_packedStrides t.shape).ge).trans ?_
  exact t.getElem?_data (dot_packed_lt hi)

/-- A contiguous tensor holds its elements. -/
theorem view_holds (t : Dense R) : Holds t.view t.shape t.elem where
  shape_eq := rfl
  elems := fun _ hi => t.at?_view hi
  room := t.size_eq.ge
  cells := fun _ _ => rfl

omit [CommRing R] in
theorem view_lies (t : Dense R) : Lies t.view t.shape (packedStrides t.shape) where
  shape_eq := rfl
  strides_eq := rfl
  length_eq := (length_packedStrides t.shape).symm
  inside := fun _ hi => (dot_packed_lt hi).trans_eq t.size_eq.symm

end Dense

/-! ## Reading a gradient -/

section Reading

variable {v : View R} {shape strides : List ℕ}

theorem Lies.elem_eq (h : Lies v shape strides) {i : ℕ} (hi : i < shape.prod) :
    v.elem i = v.cell (dot (unflatten shape i) strides) := by
  have hin := h.inside _ (within_unflatten (Nat.zero_lt_of_lt hi) i)
  obtain ⟨rfl, rfl, hlen, -⟩ := h
  rw [View.elem, View.at?, if_pos hlen.le, View.cell, List.getD_eq_getElem?_getD]

theorem Lies.elem_of_inOrder (h : Lies v shape strides) (ho : InOrder shape strides) {i : ℕ} (hi : i < shape.prod) :
    v.elem i = v.cell i := by
  rw [h.elem_eq hi, ho _ (within_unflatten (Nat.zero_lt_of_lt hi) i), dot_unflatten hi]

omit [CommRing R] in
theorem Lies.room (h : Lies v shape strides) (ho : InOrder shape strides) : shape.prod ≤ v.data.length := by
  rcases Nat.eq_zero_or_pos shape.prod with h0 | hpos
  · omega
  · have hlast := h.inside _ (within_unflatten hpos (shape.prod - 1))
    rw [ho _ (within_unflatten hpos _), dot_unflatten (by omega)] at hlast
    omega

theorem inOrder_packed (shape : List ℕ) : InOrder shape (packedStrides shape) := fun _ _ => rfl

/-- A copy of a gradient in index order has its elements. -/
theorem Lies.copy_eq (h : Lies v shape strides) (ho : InOrder shape strides) :
    v.copy = some (.ofFn shape v.elem) := by
  have hroom := h.room ho
  have hcells : Dense.ofFn shape v.cell = Dense.ofFn shape v.elem :=
    Dense.ofFn_congr fun i hi => (h.elem_of_inOrder ho hi).symm
  rw [View.copy, View.size, h.shape_eq, if_pos hroom, hcells]

/-- The only index of an array of one element. -/
theorem dot_of_prod_eq_one {shape : List ℕ} (h : shape.prod = 1) {i : List ℕ} (hi : Within i shape) (strides : List ℕ) :
    dot i strides = 0 := by
  induction hi generalizing strides with
  | nil => rfl
  | @cons k s i shape hk _ ih =>
    rw [List.prod_cons] at h
    have hk0 : k = 0 := by
      have := Nat.eq_one_of_mul_eq_one_right h
      omega
    cases strides with
    | nil => rfl
    | cons st strides => rw [dot_cons, hk0, ih (Nat.eq_one_of_mul_eq_one_left h), Nat.zero_mul]

theorem dot_le_dot {i shape : List ℕ} (hi : Within i shape) (strides : List ℕ) : dot i strides ≤ dot shape strides := by
  induction hi generalizing strides with
  | nil => exact Nat.le_refl _
  | @cons k s i shape hk _ ih =>
    cases strides with
    | nil => simp [dot]
    | cons st strides =>
      rw [dot_cons, dot_cons]
      exact Nat.add_le_add (Nat.mul_le_mul_right st hk.le) (ih strides)

/-- A tensor with the given cells, with room for all of its elements. -/
def withCells (shape strides : List ℕ) (f : ℕ → R) : View R :=
  ⟨shape, strides, (List.range (dot shape strides + 1)).map f⟩

omit [CommRing R] in
theorem withCells_lies (hlen : strides.length = shape.length) (f : ℕ → R) :
    Lies (withCells shape strides f) shape strides where
  shape_eq := rfl
  strides_eq := rfl
  length_eq := hlen.symm
  inside := fun i hi => by
    have hle := dot_le_dot hi strides
    rw [withCells, List.length_map, List.length_range]
    omega

theorem cell_withCells (f : ℕ → R) {p : ℕ} (hp : p ≤ dot shape strides) : (withCells shape strides f).cell p = f p := by
  have hp' : p < dot shape strides + 1 := Nat.lt_succ_of_le hp
  simp [withCells, View.cell, hp']

theorem elem_withCells (hlen : strides.length = shape.length) (f : ℕ → R) {k : ℕ} (hk : k < shape.prod) :
    (withCells shape strides f).elem k = f (dot (unflatten shape k) strides) := by
  rw [(withCells_lies hlen f).elem_eq hk,
    cell_withCells f (dot_le_dot (within_unflatten (Nat.zero_lt_of_lt hk) k) strides)]

/-- If the cells are the elements whatever they are, the elements are in index order. -/
theorem inOrder_of_cells [Nontrivial R] (hlen : strides.length = shape.length)
    (h : ∀ f : ℕ → R, ∀ k < shape.prod, k ≤ dot shape strides ∧ f k = (withCells shape strides f).elem k) :
    InOrder shape strides := by
  intro i hi
  have hk := dot_packed_lt hi
  -- a storage with one at the place of the element
  have hone := (h (fun p => if p = dot i strides then 1 else 0) _ hk).2
  rw [elem_withCells hlen _ hk, unflatten_dot hi, if_pos rfl] at hone
  by_contra hne
  rw [if_neg (Ne.symm hne)] at hone
  exact zero_ne_one hone

end Reading

/-! ## Adding to a gradient -/

section Adding

variable {shape : List ℕ} {values : ℕ → R} {y : View R}

theorem Holds.congr {values' : ℕ → R} (h : Holds y shape values) (heq : ∀ k < shape.prod, values k = values' k) :
    Holds y shape values' where
  shape_eq := h.shape_eq
  elems := fun i hi => by rw [h.elems i hi, heq _ (dot_packed_lt hi)]
  room := h.room
  cells := fun k hk => by rw [h.cells k hk, heq k hk]

/-- Adding the cells adds the elements, for a gradient in index order. -/
theorem at?_addCells {g : View R} (hlies : Lies g shape g.strides) (horder : InOrder shape g.strides) (x : View R)
    {i : List ℕ} (hi : Within i shape) :
    g.at? i = some (g.cell (dot i (packedStrides shape))) ∧
      (g.addCells x shape.prod).at? i =
        some (g.cell (dot i (packedStrides shape)) + x.cell (dot i (packedStrides shape))) := by
  have hlen : g.shape.length ≤ g.strides.length := by rw [hlies.shape_eq]; exact hlies.length_eq.le
  have hlt := dot_packed_lt hi
  have hin : dot i (packedStrides shape) < g.data.length := hlt.trans_le (hlies.room horder)
  constructor
  · rw [View.at?, if_pos hlen, horder i hi, View.cell, List.getD_eq_getElem _ _ hin, List.getElem?_eq_getElem hin]
  · refine (if_pos hlen).trans ?_
    have hplace : dot i (g.addCells x shape.prod).strides = dot i (packedStrides shape) := horder i hi
    rw [hplace, View.addCells, List.getElem?_map, List.getElem?_range hin, Option.map_some, if_pos hlt]

theorem added_of_holds (hy : Holds y shape values) {grad : Option (View R)} (hgrad : Ordered shape grad) :
    ∃ grad', gradAccum grad y = some grad' ∧ Added grad grad' shape values := by
  cases grad with
  | none => exact ⟨_, rfl, y, rfl, hy.shape_eq, fun i hi => by simp [hy.elems i hi]⟩
  | some g =>
    obtain ⟨hlies, horder⟩ := hgrad g rfl
    have hn : min g.size y.size = shape.prod := by
      rw [View.size, View.size, hlies.shape_eq, hy.shape_eq, Nat.min_self]
    have hcond : shape.prod ≤ g.data.length ∧ shape.prod ≤ y.data.length := ⟨hlies.room horder, hy.room⟩
    simp only [gradAccum, hn, if_pos hcond]
    refine ⟨_, rfl, _, rfl, hlies.shape_eq, fun i hi => ?_⟩
    obtain ⟨hbefore, hafter⟩ := at?_addCells hlies horder y hi
    rw [hafter, hy.cells _ (dot_packed_lt hi), Option.bind_some, hbefore, Option.getD_some]

omit [CommRing R] in
theorem ordered_none (shape : List ℕ) : Ordered shape (none : Option (View R)) := by
  intro v hv
  cases hv

omit [CommRing R] in
theorem ordered_view (t : Dense R) : Ordered t.shape (some t.view) := by
  intro v hv
  obtain rfl := Option.some.inj hv
  exact ⟨t.view_lies, inOrder_packed t.shape⟩

/-- A null gradient shows the elements, and a gradient of zeros the cells. -/
theorem holds_of_added
    (h : ∀ grad, Ordered shape grad → ∃ grad', gradAccum grad y = some grad' ∧ Added grad grad' shape values) :
    Holds y shape values := by
  obtain ⟨grad', hnull, y', hy', hshape, helems⟩ := h none (ordered_none shape)
  obtain rfl := Option.some.inj hnull
  obtain rfl := Option.some.inj hy'
  generalize hz : Dense.ofFn shape (fun _ => (0 : R)) = z
  have hzshape : z.shape = shape := hz ▸ rfl
  have hzordered := ordered_view z
  rw [hzshape] at hzordered
  obtain ⟨grad', hzero, w, rfl, -, hw⟩ := h (some z.view) hzordered
  have hn : min z.view.size y.size = shape.prod := by
    rw [View.size, View.size, hshape]
    exact (congrArg (fun l => min l.prod shape.prod) hzshape).trans (Nat.min_self _)
  simp only [gradAccum, hn] at hzero
  split_ifs at hzero with hroom
  obtain rfl := Option.some.inj (Option.some.inj hzero)
  refine ⟨hshape, fun i hi => ?_, hroom.2, fun k hk => ?_⟩
  · simpa using helems i hi
  · have hi := within_unflatten (Nat.zero_lt_of_lt hk) k
    obtain ⟨hlies, horder⟩ := hzordered z.view rfl
    obtain ⟨hbefore, hafter⟩ := at?_addCells hlies horder y hi
    have hk' := hw _ hi
    rw [hafter, Option.bind_some, hbefore, Option.getD_some, dot_unflatten hk] at hk'
    exact add_left_cancel (Option.some.inj hk')

/-- A contiguous tensor holds its own elements only. -/
theorem view_holds_iff {t : Dense R} : Holds t.view shape values ↔ t = .ofFn shape values := by
  constructor
  · intro h
    have hshape : t.shape = shape := h.shape_eq
    refine Dense.ext_elem hshape fun i hi => ?_
    rw [Dense.size, hshape] at hi
    exact (h.cells i hi).trans (Dense.elem_ofFn values hi).symm
  · rintro rfl
    exact (Dense.view_holds _).congr fun k hk => Dense.elem_ofFn values hk

end Adding

end SneppxAlg.GradTensor
