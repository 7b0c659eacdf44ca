import Mathlib

/-!
# Strided layouts

A layout of a multi-dimensional array gives each index, a list of numbers below the extents, the
address `offset + Σ index · stride`.

**Views.** A layout is a view of another one when its indices embed into those of the other with the
same addresses (`IsView`). A view stays inside whatever the other layout stays inside, and is injective
where the other one is. Narrowing, permuting, and dropping or adding an extent 1 give views.

**Packed layouts.** The strides from the last extent on are the products of the extents after each
(`stridesFrom`, in reverse order). The addresses are the numbers below the product of the extents, each
once: `digits` takes an address apart.

Main results: `IsView.below`, `IsView.injective`, `Layout.prod_le`, `packed_isInjective`.
-/

namespace SneppxAlg.Lib.Strided

/-! ## Layouts -/

/-- A layout of an array. -/
structure Layout where
  offset : ℕ
  shape : List ℕ
  strides : List ℕ

/-- The sum of the products. -/
def dot (index strides : List ℕ) : ℕ := (List.zipWith (· * ·) index strides).sum

def Within (index shape : List ℕ) : Prop := List.Forall₂ (· < ·) index shape

def Layout.address (L : Layout) (index : List ℕ) : ℕ := L.offset + dot index L.strides

/-- All addresses are below `n`. -/
def Layout.Below (L : Layout) (n : ℕ) : Prop := ∀ i, Within i L.shape → L.address i < n

/-- No two indices have one address. -/
def Layout.IsInjective (L : Layout) : Prop :=
  ∀ i j, Within i L.shape → Within j L.shape → L.address i = L.address j → i = j

@[simp]
theorem dot_nil_left (st : List ℕ) : dot [] st = 0 := rfl

@[simp]
theorem dot_cons (i s : ℕ) (index strides : List ℕ) :
    dot (i :: index) (s :: strides) = i * s + dot index strides := by
  simp [dot]

theorem within_cons {i s : ℕ} {index shape : List ℕ} :
    Within (i :: index) (s :: shape) ↔ i < s ∧ Within index shape :=
  List.forall₂_cons

theorem Within.length_eq {index shape : List ℕ} (h : Within index shape) :
    index.length = shape.length :=
  List.Forall₂.length_eq h

/-- An array with an index has elements. -/
theorem Within.prod_pos {index shape : List ℕ} (h : Within index shape) : 0 < shape.prod := by
  induction h with
  | nil => simp
  | cons hlt _ ih =>
    rw [List.prod_cons]
    exact Nat.mul_pos (Nat.lt_of_le_of_lt (Nat.zero_le _) hlt) ih

/-- The extents bound the address. -/
theorem Within.dot_le {index shape : List ℕ} (h : Within index shape) (strides : List ℕ) :
    dot index strides ≤ dot shape strides := by
  induction h generalizing strides with
  | nil => exact Nat.le_refl _
  | cons hi _ ih =>
    cases strides with
    | nil => simp [dot]
    | cons st strides =>
      rw [dot_cons, dot_cons]
      exact Nat.add_le_add (Nat.mul_le_mul_right st (Nat.le_of_lt hi)) (ih strides)

theorem dot_map_map {α : Type} (l : List α) (f g : α → ℕ) :
    dot (l.map f) (l.map g) = (l.map fun a => f a * g a).sum := by
  simp [dot, List.zipWith_map, List.zipWith_self]

theorem within_map_map {α : Type} {l : List α} {f g : α → ℕ} :
    Within (l.map f) (l.map g) ↔ ∀ a ∈ l, f a < g a := by
  simp [Within, List.forall₂_map_left_iff, List.forall₂_map_right_iff, List.forall₂_same]

/-! ## Views -/

/-- The indices of `L'` embed into those of `L` with the same addresses. -/
def IsView (L' L : Layout) : Prop :=
  ∃ φ : List ℕ → List ℕ,
    (∀ i, Within i L'.shape → Within (φ i) L.shape ∧ L.address (φ i) = L'.address i) ∧
    ∀ i j, Within i L'.shape → Within j L'.shape → φ i = φ j → i = j

theorem IsView.below {L' L : Layout} (h : IsView L' L) {n : ℕ} (hb : L.Below n) : L'.Below n := by
  obtain ⟨φ, hφ, -⟩ := h
  intro i hi
  obtain ⟨hw, ha⟩ := hφ i hi
  rw [← ha]
  exact hb _ hw

theorem IsView.injective {L' L : Layout} (h : IsView L' L) (hL : L.IsInjective) : L'.IsInjective := by
  obtain ⟨φ, hφ, hinj⟩ := h
  intro i j hi hj he
  apply hinj i j hi hj
  apply hL _ _ (hφ i hi).1 (hφ j hj).1
  rw [(hφ i hi).2, (hφ j hj).2, he]

/-- The offset does not matter to injectivity. -/
theorem Layout.IsInjective.offset {a b : ℕ} {shape strides : List ℕ}
    (h : (Layout.mk a shape strides).IsInjective) : (Layout.mk b shape strides).IsInjective := by
  intro i j hi hj he
  apply h i j hi hj
  simp only [Layout.address] at he ⊢
  omega

/-! ### Narrowing -/

/-- A step along one extent. -/
theorem dot_modify {index strides : List ℕ} (hlen : index.length = strides.length) (dim start : ℕ)
    (hd : dim < index.length) :
    dot (index.modify dim (· + start)) strides = dot index strides + start * strides.getD dim 0 := by
  induction index generalizing strides dim with
  | nil => cases hd
  | cons i index ih =>
    cases strides with
    | nil => cases hlen
    | cons s strides =>
      cases dim with
      | zero =>
        simp only [List.modify_zero_cons, dot_cons, List.getD_cons_zero]
        ring
      | succ dim =>
        simp only [List.modify_succ_cons, dot_cons, List.getD_cons_succ]
        rw [ih (by simpa using hlen) dim (by simpa using hd)]
        ring

theorem within_modify {index shape : List ℕ} {dim start size : ℕ} (h : Within index (shape.set dim size))
    (hle : start + size ≤ shape.getD dim 0) : Within (index.modify dim (· + start)) shape := by
  induction shape generalizing index dim with
  | nil =>
    cases h
    rw [List.modify_nil]
    exact .nil
  | cons s shape ih =>
    cases dim with
    | zero =>
      obtain ⟨i, index, hlt, hrest, rfl⟩ := List.forall₂_cons_right_iff.1 h
      simp only [List.getD_cons_zero] at hle
      rw [List.modify_zero_cons]
      exact within_cons.2 ⟨by omega, hrest⟩
    | succ dim =>
      obtain ⟨i, index, hlt, hrest, rfl⟩ := List.forall₂_cons_right_iff.1 h
      rw [List.modify_succ_cons]
      exact within_cons.2 ⟨hlt, ih hrest (by simpa using hle)⟩

theorem modify_add_injective {i j : List ℕ} {dim start : ℕ}
    (h : i.modify dim (· + start) = j.modify dim (· + start)) : i = j := by
  apply List.ext_getElem?
  intro k
  have hk := congrArg (·[k]?) h
  simp only [List.getElem?_modify] at hk
  by_cases hd : dim = k
  · simp only [hd, if_true] at hk
    exact Option.map_injective (add_left_injective start) hk
  · simpa [hd] using hk

/-- A range of one extent. -/
theorem isView_narrow (L : Layout) (hlen : L.shape.length = L.strides.length) {dim start size : ℕ}
    (hd : dim < L.shape.length) (hle : start + size ≤ L.shape.getD dim 0) :
    IsView ⟨L.offset + start * L.strides.getD dim 0, L.shape.set dim size, L.strides⟩ L := by
  refine ⟨fun i => i.modify dim (· + start), fun i hi => ⟨within_modify hi hle, ?_⟩,
    fun i j _ _ he => modify_add_injective he⟩
  have hil : i.length = L.shape.length := by simpa using hi.length_eq
  simp only [Layout.address]
  rw [dot_modify (hil.trans hlen) dim start (hil ▸ hd)]
  ring

/-! ### Permuting -/

theorem eq_map_of_nodup {axes index : List ℕ} (hn : axes.Nodup) (hlen : index.length = axes.length) :
    index = axes.map fun a => index.getD (axes.idxOf a) 0 := by
  apply List.ext_getElem
  · simpa using hlen
  · intro k h1 h2
    rw [List.getElem_map, hn.idxOf_getElem k (hlen ▸ h1), List.getD_eq_getElem _ _ h1]

theorem map_getD_range (l : List ℕ) : (List.range l.length).map (fun k => l.getD k 0) = l := by
  apply List.ext_getElem
  · simp
  · intro k h1 h2
    simp [h2]

/-- The extents and strides in another order. -/
theorem isView_permute (L : Layout) (hlen : L.shape.length = L.strides.length) (axes : List ℕ)
    (hp : axes.Perm (List.range L.shape.length)) :
    IsView ⟨L.offset, axes.map fun a => L.shape.getD a 0, axes.map fun a => L.strides.getD a 0⟩ L := by
  have hn : axes.Nodup := hp.nodup_iff.2 List.nodup_range
  have hrange : L.strides = (List.range L.shape.length).map fun k => L.strides.getD k 0 := by
    rw [hlen, map_getD_range]
  have hmap : ∀ i, Within i (axes.map fun a => L.shape.getD a 0) →
      i = axes.map fun a => i.getD (axes.idxOf a) 0 :=
    fun i hi => eq_map_of_nodup hn (by simpa using hi.length_eq)
  refine ⟨fun i => (List.range L.shape.length).map fun a => i.getD (axes.idxOf a) 0, ?_, ?_⟩
  · intro i hi
    have hm := hmap i hi
    constructor
    · rw [← map_getD_range L.shape, List.length_map, List.length_range, within_map_map]
      rw [hm, within_map_map] at hi
      exact fun a ha => hi a (hp.mem_iff.2 ha)
    · simp only [Layout.address]
      congr 1
      conv_lhs => rw [hrange]
      conv_rhs => rw [hm]
      rw [dot_map_map, dot_map_map]
      exact (hp.symm.map _).sum_eq
  · intro i j hi hj he
    have hval := List.map_inj_left.1 he
    rw [hmap i hi, hmap j hj]
    exact List.map_inj_left.2 fun a ha => hval a (hp.mem_iff.1 ha)

/-! ### Extents 1 -/

theorem dot_insertIdx_zero {index strides : List ℕ} (dim : ℕ) (st : ℕ)
    (hlen : index.length = strides.length) :
    dot (index.insertIdx dim 0) (strides.insertIdx dim st) = dot index strides := by
  induction index generalizing strides dim with
  | nil =>
    obtain rfl := List.length_eq_zero_iff.1 hlen.symm
    cases dim with
    | zero => simp
    | succ dim => rfl
  | cons i index ih =>
    cases strides with
    | nil => cases hlen
    | cons s strides =>
      cases dim with
      | zero => simp
      | succ dim =>
        rw [List.insertIdx_succ_cons, List.insertIdx_succ_cons, dot_cons, dot_cons,
          ih dim (by simpa using hlen)]

theorem within_insertIdx_zero {index shape : List ℕ} (dim : ℕ) (h : Within index shape) :
    Within (index.insertIdx dim 0) (shape.insertIdx dim 1) := by
  induction h generalizing dim with
  | nil =>
    cases dim with
    | zero => exact within_cons.2 ⟨Nat.one_pos, .nil⟩
    | succ dim => exact .nil
  | cons hlt h ih =>
    cases dim with
    | zero => exact within_cons.2 ⟨Nat.one_pos, .cons hlt h⟩
    | succ dim => exact within_cons.2 ⟨hlt, ih dim⟩

/-- An index of an array with an extent 1 is an index without it. -/
theorem within_insertIdx_one {index shape : List ℕ} {dim : ℕ} (hd : dim ≤ shape.length)
    (h : Within index (shape.insertIdx dim 1)) :
    Within (index.eraseIdx dim) shape ∧ (index.eraseIdx dim).insertIdx dim 0 = index := by
  induction shape generalizing index dim with
  | nil =>
    obtain rfl : dim = 0 := by simpa using hd
    obtain ⟨i, rest, hlt, hrest, rfl⟩ := List.forall₂_cons_right_iff.1 h
    obtain rfl := Nat.lt_one_iff.1 hlt
    exact ⟨hrest, rfl⟩
  | cons s shape ih =>
    cases dim with
    | zero =>
      obtain ⟨i, rest, hlt, hrest, rfl⟩ := List.forall₂_cons_right_iff.1 h
      obtain rfl := Nat.lt_one_iff.1 hlt
      exact ⟨hrest, rfl⟩
    | succ dim =>
      obtain ⟨i, rest, hlt, hrest, rfl⟩ := List.forall₂_cons_right_iff.1 h
      obtain ⟨hw, he⟩ := ih (by simpa using hd) hrest
      exact ⟨within_cons.2 ⟨hlt, hw⟩, by rw [List.eraseIdx_cons_succ, List.insertIdx_succ_cons, he]⟩

theorem isView_insertIdx (L : Layout) (hlen : L.shape.length = L.strides.length) (dim st : ℕ)
    (hd : dim ≤ L.shape.length) :
    IsView ⟨L.offset, L.shape.insertIdx dim 1, L.strides.insertIdx dim st⟩ L := by
  refine ⟨fun i => i.eraseIdx dim, fun i hi => ?_, fun i j hi hj he => ?_⟩
  · obtain ⟨hw, he⟩ := within_insertIdx_one hd hi
    refine ⟨hw, ?_⟩
    simp only [Layout.address]
    conv_rhs => rw [← he]
    rw [dot_insertIdx_zero dim st (hw.length_eq.trans hlen)]
  · rw [← (within_insertIdx_one hd hi).2, ← (within_insertIdx_one hd hj).2]
    dsimp only at he
    rw [he]

/-- One extent 1 less. -/
theorem isView_of_insertIdx (L' : Layout) (hlen : L'.shape.length = L'.strides.length) (dim st : ℕ) :
    IsView L' ⟨L'.offset, L'.shape.insertIdx dim 1, L'.strides.insertIdx dim st⟩ := by
  refine ⟨fun i => i.insertIdx dim 0, fun i hi => ⟨within_insertIdx_zero dim hi, ?_⟩, ?_⟩
  · simp only [Layout.address]
    rw [dot_insertIdx_zero dim st (hi.length_eq.trans hlen)]
  · intro i j hi hj he
    have := congrArg (List.eraseIdx · dim) he
    rwa [List.eraseIdx_insertIdx_self, List.eraseIdx_insertIdx_self] at this

/-! ## Packed layouts -/

/-- The strides of a packed array, from the last extent on. -/
def stridesFrom : List ℕ → ℕ → List ℕ
  | [], _ => []
  | s :: shape, stride => stride :: stridesFrom shape (stride * s)

def packedStrides (shape : List ℕ) : List ℕ := (stridesFrom shape.reverse 1).reverse

/-- The index at an address of a packed array, from the last extent on. -/
def digits : List ℕ → ℕ → List ℕ
  | [], _ => []
  | s :: shape, a => a % s :: digits shape (a / s)

/-- The index at an address of a packed array. -/
def unflatten (shape : List ℕ) (a : ℕ) : List ℕ := (digits shape.reverse a).reverse

theorem length_stridesFrom (shape : List ℕ) (stride : ℕ) :
    (stridesFrom shape stride).length = shape.length := by
  induction shape generalizing stride with
  | nil => rfl
  | cons s shape ih => simp [stridesFrom, ih]

@[simp]
theorem length_packedStrides (shape : List ℕ) : (packedStrides shape).length = shape.length := by
  simp [packedStrides, length_stridesFrom]

theorem stridesFrom_append (l : List ℕ) (s stride : ℕ) :
    stridesFrom (l ++ [s]) stride = stridesFrom l stride ++ [stride * l.prod] := by
  induction l generalizing stride with
  | nil => simp [stridesFrom]
  | cons x l ih => simp [stridesFrom, ih, mul_assoc]

/-- The first stride is the product of the other extents. -/
theorem packedStrides_cons (s : ℕ) (shape : List ℕ) :
    packedStrides (s :: shape) = shape.prod :: packedStrides shape := by
  simp [packedStrides, stridesFrom_append, List.prod_reverse]

theorem packedStrides_drop (shape : List ℕ) (k : ℕ) :
    (packedStrides shape).drop k = packedStrides (shape.drop k) := by
  induction shape generalizing k with
  | nil => simp [packedStrides, stridesFrom]
  | cons s shape ih =>
    cases k with
    | zero => rfl
    | succ k => rw [packedStrides_cons, List.drop_succ_cons, List.drop_succ_cons, ih]

theorem dot_stridesFrom (index shape : List ℕ) (stride : ℕ) :
    dot index (stridesFrom shape stride) = stride * dot index (stridesFrom shape 1) := by
  induction shape generalizing index stride with
  | nil => simp [stridesFrom, dot]
  | cons s shape ih =>
    cases index with
    | nil => simp
    | cons i index =>
      simp only [stridesFrom, dot_cons, one_mul]
      rw [ih index (stride * s), ih index s]
      ring

theorem dot_reverse {index strides : List ℕ} (hlen : index.length = strides.length) :
    dot index.reverse strides.reverse = dot index strides := by
  simp only [dot, ← List.reverse_zipWith hlen, List.sum_reverse]

theorem within_reverse {index shape : List ℕ} :
    Within index.reverse shape.reverse ↔ Within index shape :=
  List.forall₂_reverse_iff

/-- The packed addresses from the last extent on are below the product of the extents. -/
theorem dot_stridesFrom_lt {index shape : List ℕ} (h : Within index shape) :
    dot index (stridesFrom shape 1) < shape.prod := by
  induction h with
  | nil => simp
  | @cons i s index shape hlt h ih =>
    simp only [stridesFrom, dot_cons, mul_one, one_mul, List.prod_cons]
    rw [dot_stridesFrom]
    calc i + s * dot index (stridesFrom shape 1) < s + s * dot index (stridesFrom shape 1) := by omega
      _ = s * (dot index (stridesFrom shape 1) + 1) := by ring
      _ ≤ s * shape.prod := Nat.mul_le_mul_left s ih

theorem digits_dot {index shape : List ℕ} (h : Within index shape) :
    digits shape (dot index (stridesFrom shape 1)) = index := by
  induction h with
  | nil => rfl
  | @cons i s index shape hlt h ih =>
    have hs : 0 < s := Nat.lt_of_le_of_lt (Nat.zero_le _) hlt
    simp only [stridesFrom, dot_cons, mul_one, one_mul, digits]
    rw [dot_stridesFrom, Nat.add_mul_mod_self_left, Nat.mod_eq_of_lt hlt,
      Nat.add_mul_div_left _ _ hs, Nat.div_eq_of_lt hlt, Nat.zero_add, ih]

theorem within_digits {shape : List ℕ} (hpos : 0 < shape.prod) (a : ℕ) :
    Within (digits shape a) shape := by
  induction shape generalizing a with
  | nil => exact .nil
  | cons s shape ih =>
    rw [List.prod_cons] at hpos
    exact within_cons.2 ⟨Nat.mod_lt _ (Nat.pos_of_mul_pos_right hpos),
      ih (Nat.pos_of_mul_pos_left hpos) _⟩

theorem dot_digits {shape : List ℕ} {a : ℕ} (ha : a < shape.prod) :
    dot (digits shape a) (stridesFrom shape 1) = a := by
  induction shape generalizing a with
  | nil =>
    simp only [List.prod_nil, Nat.lt_one_iff] at ha
    simp [digits, ha]
  | cons s shape ih =>
    rw [List.prod_cons] at ha
    simp only [digits, stridesFrom, dot_cons, mul_one, one_mul]
    rw [dot_stridesFrom, ih (Nat.div_lt_of_lt_mul ha), Nat.mod_add_div]

theorem dot_packed_lt {index shape : List ℕ} (h : Within index shape) :
    dot index (packedStrides shape) < shape.prod := by
  have hlen : index.reverse.length = (stridesFrom shape.reverse 1).length := by
    simp [length_stridesFrom, h.length_eq]
  rw [packedStrides, ← dot_reverse (by simpa using hlen), List.reverse_reverse]
  calc dot index.reverse (stridesFrom shape.reverse 1) < shape.reverse.prod :=
        dot_stridesFrom_lt (within_reverse.2 h)
    _ = shape.prod := List.prod_reverse shape

/-- An index with two parts. -/
theorem dot_packed_append {index shape : List ℕ} (h : Within index shape) (index' shape' : List ℕ) :
    dot (index ++ index') (packedStrides (shape ++ shape')) =
      dot index (packedStrides shape) * shape'.prod + dot index' (packedStrides shape') := by
  induction h with
  | nil => simp
  | cons _ _ ih =>
    rw [List.cons_append, List.cons_append, packedStrides_cons, packedStrides_cons, dot_cons, dot_cons, ih,
      List.prod_append]
    ring

theorem unflatten_dot {index shape : List ℕ} (h : Within index shape) :
    unflatten shape (dot index (packedStrides shape)) = index := by
  have hlen : index.reverse.length = (stridesFrom shape.reverse 1).length := by
    simp [length_stridesFrom, h.length_eq]
  rw [unflatten, packedStrides, ← dot_reverse (by simpa using hlen), List.reverse_reverse,
    digits_dot (within_reverse.2 h), List.reverse_reverse]

theorem within_unflatten {shape : List ℕ} (hpos : 0 < shape.prod) (a : ℕ) :
    Within (unflatten shape a) shape := by
  rw [← within_reverse, unflatten, List.reverse_reverse]
  apply within_digits
  rwa [List.prod_reverse]

theorem dot_unflatten {shape : List ℕ} {a : ℕ} (ha : a < shape.prod) :
    dot (unflatten shape a) (packedStrides shape) = a := by
  have hpos : 0 < shape.prod := Nat.lt_of_le_of_lt (Nat.zero_le _) ha
  have hlen := (within_unflatten hpos a).length_eq
  rw [← dot_reverse (by simpa using hlen), unflatten, packedStrides, List.reverse_reverse,
    List.reverse_reverse]
  apply dot_digits
  rwa [List.prod_reverse]

/-- No two indices of a packed array have one address. -/
theorem packed_isInjective (offset : ℕ) (shape : List ℕ) :
    (Layout.mk offset shape (packedStrides shape)).IsInjective := by
  intro i j hi hj he
  have hdot : dot i (packedStrides shape) = dot j (packedStrides shape) := Nat.add_left_cancel he
  rw [← unflatten_dot hi, hdot, unflatten_dot hj]

theorem packed_below {offset n : ℕ} {shape : List ℕ} (hn : 0 < shape.prod → offset + shape.prod ≤ n) :
    (Layout.mk offset shape (packedStrides shape)).Below n := by
  intro i hi
  calc offset + dot i (packedStrides shape) < offset + shape.prod :=
        Nat.add_lt_add_left (dot_packed_lt hi) _
    _ ≤ n := hn hi.prod_pos

/-- An array without two elements at one address has room for all of them. -/
theorem Layout.prod_le {L : Layout} (hinj : L.IsInjective) {n : ℕ} (hb : L.Below n)
    (hpos : 0 < L.shape.prod) : L.offset + L.shape.prod ≤ n := by
  have hmaps : ∀ a ∈ Finset.range L.shape.prod,
      L.address (unflatten L.shape a) ∈ Finset.Ico L.offset n := fun a _ =>
    Finset.mem_Ico.2 ⟨Nat.le_add_right _ _, hb _ (within_unflatten hpos a)⟩
  have hinjOn : Set.InjOn (fun a => L.address (unflatten L.shape a)) (Finset.range L.shape.prod) := by
    intro a ha b hb he
    have hab := hinj _ _ (within_unflatten hpos a) (within_unflatten hpos b) he
    rw [← dot_unflatten (Finset.mem_range.1 ha), hab, dot_unflatten (Finset.mem_range.1 hb)]
  have hcard := Finset.card_le_card_of_injOn _ hmaps hinjOn
  have hlt : L.offset < n := by
    have := hb _ (within_unflatten hpos 0)
    exact Nat.lt_of_le_of_lt (Nat.le_add_right _ _) this
  rw [Finset.card_range, Nat.card_Ico] at hcard
  omega

end SneppxAlg.Lib.Strided
