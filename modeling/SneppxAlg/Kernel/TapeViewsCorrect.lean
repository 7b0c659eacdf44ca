import SneppxAlg.Kernel.TapeBackward
import SneppxAlg.Kernel.TapeViews

/-!
# The backward pass on views

A backward function that reads its gradient in index order hands over the right values, on new cells or
on cells of that gradient (`viewBackward_spec`). Adding it to a gradient in place changes the cells of
that gradient. As long as these are cells of no other gradient, every round adds to the values of the
parents and leaves the others (`sends_sent`, `step_sent`). A program builds a graph without cycles
(`acyclic_build`), so that consumers come first and a gradient stays as it is once its variable was
called: what each variable contributed follows from the gradients at the end (`run_sentAll`).

Main result: `views_correct`.
-/

namespace SneppxAlg.Autodiff

open GradTensor (Dense)
open Lib.Strided

section Views

variable {R : Type} [CommRing R]

/-! ## Cells -/

theorem elem_read (m : Store R) {h : GradView} {i : ℕ} (hi : i < h.size) :
    (m.read h).elem i = m.cells (h.cell i) :=
  Dense.elem_ofFn _ hi

omit [CommRing R] in
/-- The values depend on the cells of the gradient only. -/
theorem read_congr {m m' : Store R} {h : GradView}
    (hcells : ∀ i < h.size, m'.cells (h.cell i) = m.cells (h.cell i)) : m'.read h = m.read h :=
  Dense.ofFn_congr hcells

/-- The storages up to the next one are left alone. -/
structure Extends (m m' : Store R) : Prop where
  cells : ∀ a, a.1 < m.next → m'.cells a = m.cells a
  next : m.next ≤ m'.next

omit [CommRing R] in
theorem Extends.refl (m : Store R) : Extends m m := ⟨fun _ _ => rfl, Nat.le_refl _⟩

omit [CommRing R] in
theorem Extends.read {m m' : Store R} (hm : Extends m m') {h : GradView} (hh : h.storage < m.next) :
    m'.read h = m.read h :=
  read_congr fun _ _ => hm.cells _ hh

omit [CommRing R] in
theorem create_extends (m : Store R) (x : NewTensor R) : Extends m (m.create x).2 :=
  ⟨fun _ ha => if_neg (Nat.ne_of_lt ha), Nat.le_succ _⟩

/-- A packed tensor lies in index order. -/
theorem cell_of_packed {h : GradView} (hp : h.strides = packedStrides h.shape) {i : ℕ} (hi : i < h.size) :
    h.cell i = h.flat i := by
  rw [GradView.cell, GradView.flat, hp, dot_unflatten hi]

omit [CommRing R] in
theorem read_create (m : Store R) (x : NewTensor R) : (m.create x).2.read (m.create x).1 = x.values :=
  Dense.ofFn_congr fun i _ => by simp [Store.create, GradView.cell]

theorem values_packed (x : Dense R) : (NewTensor.packed x).values = x := by
  have hcells : ∀ i < x.shape.prod, x.elem (dot (unflatten x.shape i) (packedStrides x.shape)) = x.elem i :=
    fun i hi => by rw [dot_unflatten hi]
  calc (NewTensor.packed x).values = Dense.ofFn x.shape x.elem := Dense.ofFn_congr hcells
    _ = x := Dense.ofFn_elem x

/-! ## The kernels -/

/-- What a backward function hands over: the right values, on new cells or on cells of `out`. -/
structure Delivers (m : Store R) (out : GradView) (value : Option (Dense R))
    (r : Option GradView × Store R) : Prop where
  ext : Extends m r.2
  value : r.1.map r.2.read = value
  storage : ∀ x, r.1 = some x → x.storage < r.2.next
  cells : ∀ x, r.1 = some x → ∀ j < x.size, m.next ≤ x.storage ∨ ∃ i < out.size, x.cell j = out.cell i

omit [CommRing R] in
theorem delivers_none (m : Store R) (out : GradView) : Delivers m out none (none, m) where
  ext := .refl m
  value := rfl
  storage := fun _ h => nomatch h
  cells := fun _ h => nomatch h

omit [CommRing R] in
theorem delivers_create (m : Store R) (out : GradView) (x : NewTensor R) :
    Delivers m out (some x.values) (some (m.create x).1, (m.create x).2) where
  ext := create_extends m x
  value := congrArg some (read_create m x)
  storage := fun y hy => by
    obtain rfl := Option.some.inj hy
    exact Nat.lt_succ_self _
  cells := fun y hy j hj => by
    obtain rfl := Option.some.inj hy
    exact .inl (Nat.le_refl _)

/-- A view of `out`: each of its elements is one of `out`. -/
theorem delivers_view {m : Store R} {out x : GradView} {values : Dense R} (hout : out.storage < m.next)
    (f : ℕ → ℕ) (hs : x.storage = out.storage) (hshape : values.shape = x.shape)
    (hf : ∀ j < x.size, f j < out.size ∧ x.cell j = out.cell (f j))
    (hvalues : ∀ j < x.size, values.elem j = (m.read out).elem (f j)) :
    Delivers m out (some values) (some x, m) where
  ext := .refl m
  value := by
    have hread : m.read x = Dense.ofFn x.shape values.elem := Dense.ofFn_congr fun j hj => by
      rw [hvalues j hj, elem_read m (hf j hj).1, (hf j hj).2]
    rw [Option.map_some, hread, ← hshape, Dense.ofFn_elem]
  storage := fun y hy => by
    obtain rfl := Option.some.inj hy
    rwa [hs]
  cells := fun y hy j hj => by
    obtain rfl := Option.some.inj hy
    exact .inr ⟨f j, (hf j hj).1, (hf j hj).2⟩

/-! ### Transposing -/

theorem permuted_swapAxes (n dim1 dim2 : ℕ) (l : List ℕ) :
    permuted (swapAxes n dim1 dim2) l = (List.range n).map fun i => l.getD (Equiv.swap dim1 dim2 i) 0 := by
  rw [permuted, swapAxes, TensorEngine.transposeAxes_eq, List.map_map]
  rfl

/-- Exchanging the axes of the index undoes exchanging those of the extents. -/
theorem within_permuted {shape index : List ℕ} {dim1 dim2 : ℕ} (h1 : dim1 < shape.length)
    (h2 : dim2 < shape.length)
    (h : Within index (permuted (swapAxes shape.length dim1 dim2) shape)) :
    Within (permuted (swapAxes shape.length dim1 dim2) index) shape := by
  have hlen : index.length = shape.length := by simpa [permuted_swapAxes] using h.length_eq
  have hentry : ∀ i < shape.length, index.getD i 0 < shape.getD (Equiv.swap dim1 dim2 i) 0 := by
    rw [permuted_swapAxes, ← map_getD_range index, hlen, within_map_map] at h
    exact fun i hi => h i (List.mem_range.mpr hi)
  rw [permuted_swapAxes]
  conv_rhs => rw [← map_getD_range shape]
  refine within_map_map.mpr fun i hi => ?_
  have hswap := hentry (Equiv.swap dim1 dim2 i) (TensorEngine.swap_lt h1 h2 (List.mem_range.mp hi))
  rwa [Equiv.swap_apply_self] at hswap

theorem dot_permuted {n dim1 dim2 : ℕ} {index strides : List ℕ} (hindex : index.length = n)
    (hstrides : strides.length = n) (h1 : dim1 < n) (h2 : dim2 < n) :
    dot (permuted (swapAxes n dim1 dim2) index) strides
      = dot index (permuted (swapAxes n dim1 dim2) strides) := by
  have hperm := TensorEngine.transposeAxes_perm h1 h2
  rw [TensorEngine.transposeAxes_eq] at hperm
  have hleft : dot ((List.range n).map fun i => index.getD (Equiv.swap dim1 dim2 i) 0) strides
      = ((List.range n).map fun i => index.getD (Equiv.swap dim1 dim2 i) 0 * strides.getD i 0).sum := by
    rw [← dot_map_map, ← hstrides, map_getD_range]
  have hright : dot index ((List.range n).map fun i => strides.getD (Equiv.swap dim1 dim2 i) 0)
      = ((List.range n).map fun i => index.getD i 0 * strides.getD (Equiv.swap dim1 dim2 i) 0).sum := by
    rw [← dot_map_map, ← hindex, map_getD_range]
  have hsum := (hperm.map fun i => index.getD (Equiv.swap dim1 dim2 i) 0 * strides.getD i 0).sum_eq
  rw [permuted_swapAxes, permuted_swapAxes, hleft, hright, ← hsum, List.map_map]
  congr 1
  refine List.map_congr_left fun i _ => ?_
  simp

/-- An index of `out`, with the cell of its number. -/
theorem cell_dot {out : GradView} {index : List ℕ} (hi : Within index out.shape) :
    dot index (packedStrides out.shape) < out.size ∧
      out.cell (dot index (packedStrides out.shape)) = (out.storage, out.offset + dot index out.strides) :=
  ⟨dot_packed_lt hi, by rw [GradView.cell, unflatten_dot hi]⟩

theorem transpose_delivers {m : Store R} {out : GradView} (hout : out.storage < m.next) (A : Arith R)
    (dim1 dim2 : UInt64) :
    Delivers m out (valueBackward A (.transpose dim1 dim2) (m.read out))
      (out.transpose dim1.toNat dim2.toNat, m) := by
  by_cases hdim : out.shape.length ≤ dim1.toNat ∨ out.shape.length ≤ dim2.toNat
  · have hdim' : (m.read out).shape.length ≤ dim1.toNat ∨ (m.read out).shape.length ≤ dim2.toNat := hdim
    simp only [valueBackward, if_pos hdim', GradView.transpose, if_pos hdim]
    exact delivers_none m out
  · have hdim' : ¬((m.read out).shape.length ≤ dim1.toNat ∨ (m.read out).shape.length ≤ dim2.toNat) := hdim
    simp only [valueBackward, if_neg hdim', GradView.transpose, if_neg hdim]
    obtain ⟨h1, h2⟩ := not_or.mp hdim
    refine delivers_view hout (fun j => dot (permuted (swapAxes out.shape.length dim1.toNat dim2.toNat)
      (unflatten (permuted (swapAxes out.shape.length dim1.toNat dim2.toNat) out.shape) j))
      (packedStrides out.shape)) rfl rfl (fun j hj => ?_) fun j hj => Dense.elem_ofFn _ hj
    have hpos : 0 < (permuted (swapAxes out.shape.length dim1.toNat dim2.toNat) out.shape).prod :=
      Nat.lt_of_le_of_lt (Nat.zero_le j) hj
    have hin := within_unflatten hpos j
    have hlen : (unflatten (permuted (swapAxes out.shape.length dim1.toNat dim2.toNat) out.shape) j).length
        = out.shape.length := by
      rw [hin.length_eq, permuted_swapAxes, List.length_map, List.length_range]
    obtain ⟨hlt, hcell⟩ := cell_dot (within_permuted (by omega) (by omega) hin)
    refine ⟨hlt, ?_⟩
    rw [hcell, dot_permuted hlen out.length_eq (by omega) (by omega)]
    rfl

/-! ### Narrowing -/

theorem narrow_delivers {m : Store R} {out : GradView} (hout : out.storage < m.next) (A : Arith R)
    (dim start length : UInt64) :
    Delivers m out (valueBackward A (.narrow dim start length) (m.read out))
      (out.narrow dim.toNat start.toNat length.toNat, m) := by
  by_cases hdim : out.shape.length ≤ dim.toNat
  · have hdim' : (m.read out).shape.length ≤ dim.toNat := hdim
    simp only [valueBackward, if_pos hdim', GradView.narrow, if_pos hdim]
    exact delivers_none m out
  · have hdim' : ¬(m.read out).shape.length ≤ dim.toNat := hdim
    by_cases hfit : out.shape.getD dim.toNat 0 < start.toNat + length.toNat
    · have hfit' : (m.read out).shape.getD dim.toNat 0 < start.toNat + length.toNat := hfit
      simp only [valueBackward, if_neg hdim', if_pos hfit', GradView.narrow, if_neg hdim, if_pos hfit]
      exact delivers_none m out
    · have hfit' : ¬(m.read out).shape.getD dim.toNat 0 < start.toNat + length.toNat := hfit
      simp only [valueBackward, if_neg hdim', if_neg hfit', GradView.narrow, if_neg hdim, if_neg hfit]
      refine delivers_view hout (fun j => dot ((unflatten (out.shape.set dim.toNat length.toNat) j).modify
        dim.toNat (· + start.toNat)) (packedStrides out.shape)) rfl rfl (fun j hj => ?_)
        fun j hj => Dense.elem_ofFn _ hj
      have hpos : 0 < (out.shape.set dim.toNat length.toNat).prod :=
        Nat.lt_of_le_of_lt (Nat.zero_le j) hj
      have hin := within_unflatten hpos j
      have hlen : (unflatten (out.shape.set dim.toNat length.toNat) j).length = out.shape.length := by
        rw [hin.length_eq, List.length_set]
      obtain ⟨hlt, hcell⟩ := cell_dot (within_modify hin (Nat.not_lt.mp hfit))
      refine ⟨hlt, ?_⟩
      rw [hcell, dot_modify (hlen.trans out.length_eq.symm) _ _ (by omega), GradView.cell]
      simp only [Prod.mk.injEq, true_and]
      omega

/-! ### Reshaping, and the others -/

theorem reshape_delivers {m : Store R} {out : GradView} (hout : out.storage < m.next) {shape : List ℕ}
    (hsize : shape.prod = out.size) (hflat : ∀ i < out.size, out.flat i = out.cell i) :
    Delivers m out (some (Dense.ofFn shape (m.read out).elem))
      (some (m.reshape out shape).1, (m.reshape out shape).2) := by
  rw [Store.reshape]
  by_cases hc : out.isContiguous ∧ out.shape ≠ []
  · rw [if_pos hc]
    refine delivers_view hout id rfl rfl (fun j hj => ?_) fun j hj => Dense.elem_ofFn _ hj
    have hj' : j < out.size := hsize ▸ hj
    refine ⟨hj', ?_⟩
    rw [id, ← hflat j hj']
    exact cell_of_packed (h := { out with
      shape := shape, strides := packedStrides shape, length_eq := length_packedStrides shape }) rfl hj
  · rw [if_neg hc]
    have hvalue : Dense.ofFn shape (m.read out).elem = Dense.ofFn shape fun i => m.cells (out.flat i) :=
      Dense.ofFn_congr fun i hi => by
        have hi' : i < out.size := hsize ▸ hi
        rw [elem_read m hi', hflat i hi']
    have hd := delivers_create m out (.packed (Dense.ofFn shape fun i => m.cells (out.flat i)))
    rw [values_packed] at hd
    rw [hvalue]
    exact hd

omit [CommRing R] in
theorem other_delivers (m : Store R) (out : GradView) (value : Option (NewTensor R)) :
    Delivers m out (value.map NewTensor.values) (match value with
      | none => (none, m)
      | some x => (some (m.create x).1, (m.create x).2)) := by
  cases value with
  | none => exact delivers_none m out
  | some x => exact delivers_create m out x

/-- A backward function that reads in index order delivers. -/
theorem viewBackward_spec {A : Arith R} {k : Kernel (Dense R)} {m : Store R} {out : GradView}
    (hout : out.storage < m.next) (hread : Readable A k out) :
    Delivers m out (valueBackward A k (m.read out)) (viewBackward A k out m) := by
  unfold Readable at hread
  split at hread
  · exact transpose_delivers hout A _ _
  · exact narrow_delivers hout A _ _ _
  · exact reshape_delivers hout hread.1 hread.2
  · have hvalues : m.readAs (A.reading k) out = m.read out :=
      Dense.ofFn_congr fun i hi => congrArg m.cells (hread i hi)
    rename_i htranspose hnarrow hreshape
    unfold viewBackward valueBackward
    split
    · exact (htranspose _ _ rfl).elim
    · exact (hnarrow _ _ _ rfl).elim
    · exact (hreshape _ rfl).elim
    · rw [hvalues]
      exact other_delivers m out _

/-! ## One contribution -/

theorem flat_injective (g : GradView) {i j : ℕ} (h : g.flat i = g.flat j) : i = j := by
  have hoff : g.offset + i = g.offset + j := congrArg Prod.snd h
  omega

/-- Adding in place is the index-wise sum. -/
theorem read_add {m : Store R} {g x : GradView} (hshape : x.shape = g.shape)
    (hg : ∀ i < g.size, g.flat i = g.cell i) (hx : ∀ i < x.size, x.flat i = x.cell i)
    (hapart : ∀ i < g.size, ∀ j < x.size, g.cell i ≠ x.cell j) :
    (m.add g x).read g = Dense.ofFn g.shape fun i => (m.read g).elem i + (m.read x).elem i := by
  have hsize : x.size = g.size := congrArg List.prod hshape
  have hsrc : ∀ i < g.size, ∀ j < g.size, g.flat i ≠ x.flat j := fun i hi j hj => by
    rw [hg i hi, hx j (hsize ▸ hj)]
    exact hapart i hi j (hsize ▸ hj)
  refine Dense.ofFn_congr fun i hi => ?_
  rw [elem_read m hi, elem_read m (hsize ▸ hi), ← hg i hi, ← hx i (hsize ▸ hi), Store.add, hsize,
    Nat.min_self]
  exact Lib.Scatter.accumulate_dst (fun a _ b _ => flat_injective g) hsrc hi

/-- A gradient without cells of `g` is left alone. -/
theorem read_add_of_apart {m : Store R} {g x h : GradView} (hg : ∀ i < g.size, g.flat i = g.cell i)
    (hapart : ∀ i < h.size, ∀ j < g.size, h.cell i ≠ g.cell j) : (m.add g x).read h = m.read h :=
  read_congr fun i hi => Lib.Scatter.accumulate_of_ne fun j hj => by
    have hj' : j < g.size := Nat.lt_of_lt_of_le hj (Nat.min_le_left _ _)
    rw [hg j hj']
    exact (hapart i hi j hj').symm

/-- The gradients are in storages of the memory. -/
def Held (s : Session (Dense R) GradView (Store R)) : Prop :=
  ∀ u h, s.grads u = some h → h.storage < s.mem.next

section Send

variable {A : Arith R} {out : GradView} {s : Session (Dense R) GradView (Store R)}
  {q : ℕ × Kernel (Dense R)}

theorem send_null (hx : (viewBackward A q.2 out s.mem).1 = none) :
    Session.send (viewKernels A) out s q = { s with mem := (viewBackward A q.2 out s.mem).2 } := by
  simp only [Session.send, Session.gradAccum, viewKernels, hx]

theorem send_first {x : GradView} (hx : (viewBackward A q.2 out s.mem).1 = some x)
    (hg : s.grads q.1 = none) :
    Session.send (viewKernels A) out s q =
      { s with
        mem := (viewBackward A q.2 out s.mem).2
        grads := Function.update s.grads q.1 (some x) } := by
  simp only [Session.send, Session.gradAccum, viewKernels, hx, hg]

theorem send_again {g x : GradView} (hx : (viewBackward A q.2 out s.mem).1 = some x)
    (hg : s.grads q.1 = some g) :
    Session.send (viewKernels A) out s q
      = { s with mem := (viewBackward A q.2 out s.mem).2.add g x } := by
  simp only [Session.send, Session.gradAccum, viewKernels, hx, hg]

theorem isSum_first {l : List (Dense R)} (h : IsSum l none) (x : Dense R) : IsSum (l ++ [x]) (some x) := by
  obtain rfl : l = [] := h
  exact ⟨by simp, by simp, by simp⟩

theorem IsSum.add {l : List (Dense R)} {x y z : Dense R} (h : IsSum l (some y)) (hx : x.shape = y.shape)
    (hz : z = Dense.ofFn y.shape fun i => y.elem i + x.elem i) : IsSum (l ++ [x]) (some z) := by
  obtain ⟨hl, hshape, helem⟩ := h
  subst hz
  refine ⟨by simp, fun w hw => ?_, fun i hi => ?_⟩
  · rcases List.mem_append.mp hw with hw | hw
    · exact hshape w hw
    · exact List.mem_singleton.mp hw ▸ hx
  · have hi' : i < y.size := hi
    rw [Dense.elem_ofFn _ hi', helem i hi, List.map_append, List.sum_append, List.map_singleton,
      List.sum_singleton]

/-- The order of the summands does not matter. -/
theorem IsSum.perm {l l' : List (Dense R)} {o : Option (Dense R)} (h : IsSum l o) (hl : l.Perm l') :
    IsSum l' o := by
  cases o with
  | none => exact (List.Perm.nil_eq (h ▸ hl)).symm
  | some y =>
    obtain ⟨hne, hshape, helem⟩ := h
    refine ⟨fun hnil => hne (List.Perm.eq_nil (hnil ▸ hl)), fun x hx => hshape x (hl.mem_iff.mpr hx),
      fun i hi => ?_⟩
    rw [helem i hi]
    exact (hl.map fun x => x.elem i).sum_eq

/-- After some contributions: the values of the gradients have them added, those of the other variables
and of `out` are what they were. -/
structure Sent (A : Arith R) (out : GradView) (s s' : Session (Dense R) GradView (Store R))
    (l : List (ℕ × Kernel (Dense R))) : Prop where
  held : Held s'
  next : s.mem.next ≤ s'.mem.next
  read_out : s'.mem.read out = s.mem.read out
  frame : ∀ u, (∀ q ∈ l, q.1 ≠ u) → s'.value u = s.value u
  sums : ∀ u before, IsSum before (s.value u) →
    IsSum (before ++ sentTo A (s.mem.read out) u l) (s'.value u)

theorem sentTo_single (A : Arith R) (x : Dense R) (q : ℕ × Kernel (Dense R)) (u : ℕ) :
    sentTo A x u [q] = if q.1 = u then (valueBackward A q.2 x).toList else [] := by
  rw [sentTo]
  by_cases hu : q.1 = u
  · cases hv : valueBackward A q.2 x with
    | none => simp [hu, hv]
    | some y => simp [hu, hv]
  · simp [hu]

omit [CommRing R] in
/-- The values are what they were in a larger memory. -/
theorem value_of_extends (hheld : Held s) {m' : Store R} (hm : Extends s.mem m') (u : ℕ) :
    (s.grads u).map m'.read = s.value u := by
  rw [Session.value]
  cases hu : s.grads u with
  | none => rfl
  | some h => exact congrArg some (hm.read (hheld u h hu))

/-- A single contribution, from what becomes of the values of its variable and of the others. -/
theorem sent_single {s' : Session (Dense R) GradView (Store R)} (hheld : Held s')
    (hnext : s.mem.next ≤ s'.mem.next) (hout : s'.mem.read out = s.mem.read out)
    (hother : ∀ u, u ≠ q.1 → s'.value u = s.value u)
    (hsums : ∀ before, IsSum before (s.value q.1) →
      IsSum (before ++ (valueBackward A q.2 (s.mem.read out)).toList) (s'.value q.1)) :
    Sent A out s s' [q] := by
  refine ⟨hheld, hnext, hout, fun u hu => hother u (hu q List.mem_cons_self).symm, fun u before h => ?_⟩
  rw [sentTo_single]
  by_cases hq : q.1 = u
  · subst hq
    rw [if_pos rfl]
    exact hsums before h
  · rw [if_neg hq, List.append_nil, hother u (Ne.symm hq)]
    exact h

/-- A contribution that meets the condition. -/
theorem send_sent (hheld : Held s) (hout : out.storage < s.mem.next) (hmeets : SendMeets A out s q) :
    Sent A out s (Session.send (viewKernels A) out s q) [q] := by
  have hd := viewBackward_spec hout hmeets.1
  have hvalue := hd.value
  have hheld' : ∀ u h, s.grads u = some h → h.storage < (viewBackward A q.2 out s.mem).2.next :=
    fun u h hu => (hheld u h hu).trans_le hd.ext.next
  cases hx : (viewBackward A q.2 out s.mem).1 with
  | none =>
    rw [hx, Option.map_none] at hvalue
    rw [send_null hx]
    refine sent_single hheld' hd.ext.next (hd.ext.read hout) (fun u _ => value_of_extends hheld hd.ext u)
      fun before h => ?_
    rw [← hvalue, Option.toList_none, List.append_nil]
    rw [← value_of_extends hheld hd.ext q.1] at h
    exact h
  | some x =>
    rw [hx, Option.map_some] at hvalue
    cases hg : s.grads q.1 with
    | none =>
      rw [send_first hx hg]
      refine sent_single (fun u h hu => ?_) hd.ext.next (hd.ext.read hout) (fun u hq => ?_)
        fun before h => ?_
      · dsimp only at hu
        by_cases hq : u = q.1
        · rw [hq, Function.update_self] at hu
          exact Option.some.inj hu ▸ hd.storage x hx
        · rw [Function.update_of_ne hq] at hu
          exact hheld' u h hu
      · rw [Session.value]
        dsimp only
        rw [Function.update_of_ne hq]
        exact value_of_extends hheld hd.ext u
      · rw [Session.value, hg, Option.map_none] at h
        rw [← hvalue, Option.toList_some, Session.value]
        dsimp only
        rw [Function.update_self, Option.map_some]
        exact isSum_first h _
    | some g =>
      rw [send_again hx hg]
      have hadd := hmeets.2 g x hg hx
      have hgs : g.storage < s.mem.next := hheld q.1 g hg
      have hapart : ∀ i < g.size, ∀ j < x.size, g.cell i ≠ x.cell j := fun i hi j hj heq => by
        rcases hd.cells x hx j hj with hfresh | ⟨k, hk, hcell⟩
        · have hst : g.storage = x.storage := congrArg Prod.fst heq
          omega
        · exact hadd.apart k hk i hi (by rw [heq, hcell])
      refine sent_single hheld' hd.ext.next ?_ (fun u hq => ?_) fun before h => ?_
      · rw [← hd.ext.read hout]
        exact read_add_of_apart hadd.inOrder hadd.apart
      · rw [← value_of_extends hheld hd.ext u, Session.value]
        cases hu : s.grads u with
        | none => rfl
        | some h => exact congrArg some (read_add_of_apart hadd.inOrder (hadd.others u h hq hu))
      · have hread := read_add (m := (viewBackward A q.2 out s.mem).2) hadd.shape hadd.inOrder
          hadd.inOrder' hapart
        rw [hd.ext.read hgs] at hread
        rw [Session.value, hg, Option.map_some] at h
        rw [← hvalue, Option.toList_some, Session.value]
        dsimp only
        rw [hg, Option.map_some]
        exact h.add hadd.shape hread

/-- All contributions of a backward function. -/
theorem sends_sent {l : List (ℕ × Kernel (Dense R))} (hheld : Held s) (hout : out.storage < s.mem.next)
    (hmeets : SendsMeet A out s l) :
    Sent A out s (l.foldl (Session.send (viewKernels A) out) s) l := by
  induction l generalizing s with
  | nil =>
    refine ⟨hheld, Nat.le_refl _, rfl, fun _ _ => rfl, fun u before h => ?_⟩
    rw [sentTo, List.filterMap_nil, List.append_nil]
    exact h
  | cons q l ih =>
    obtain ⟨hq, hl⟩ := hmeets
    have h1 := send_sent hheld hout hq
    have h2 := ih h1.held (hout.trans_le h1.next) hl
    refine ⟨h2.held, h1.next.trans h2.next, h2.read_out.trans h1.read_out, fun u hu => ?_,
      fun u before h => ?_⟩
    · rw [List.foldl_cons, h2.frame u fun r hr => hu r (List.mem_cons_of_mem _ hr)]
      refine h1.frame u fun r hr => ?_
      exact List.mem_singleton.mp hr ▸ hu q List.mem_cons_self
    · have hsplit : sentTo A (s.mem.read out) u (q :: l)
          = sentTo A (s.mem.read out) u [q] ++ sentTo A (s.mem.read out) u l := by
        rw [sentTo, sentTo, sentTo, ← List.filterMap_append, List.singleton_append]
      have hrest := h2.sums u _ (h1.sums u before h)
      rw [h1.read_out, List.append_assoc, ← hsplit] at hrest
      exact hrest

end Send

end Views

/-! ## A backward function sends to the parents of its variable -/

section Targets

variable {T H M : Type} {K : Kernels T H M} {data : Ptr → Option T} {requiresGrad : Ptr → Bool}

/-- The variables that a context refers to for their gradients. -/
def Ctx.targets : Ctx T → List Ptr
  | .unary _ a | .alongDim _ a _ | .fakeQuant a _ _ | .transpose a _ _ | .dropout a _ _ | .rope a _ => [a]
  | .binary _ a b | .pow a b _ | .conv1d a b _ _ | .conv2d a b _ _ _ _ => [a, b]
  | .layerNorm a gamma beta _ | .batchNorm a gamma beta _ _ _ => [a, gamma, beta]
  | .concat _ vars _ _ => vars

theorem mem_sendTo {p : Ptr} {k : Kernel T} {q : ℕ × Kernel T} (h : q ∈ sendTo requiresGrad p k) :
    p = some q.1 := by
  cases p with
  | none => cases h
  | some v =>
    rw [sendTo] at h
    split_ifs at h
    · rw [List.mem_singleton.mp h]
    · cases h

theorem mem_concatContributions {dim offset : UInt64} {vars : List Ptr} {sizes : Option (List UInt64)}
    {q : ℕ × Kernel T} (h : q ∈ concatContributions K data requiresGrad dim offset vars sizes) :
    some q.1 ∈ vars := by
  induction vars generalizing offset sizes with
  | nil => cases h
  | cons p vars ih =>
    cases p with
    | none => cases h
    | some v =>
      rcases List.mem_append.mp h with h | h
      · rw [← mem_sendTo h]
        exact List.mem_cons_self
      · exact List.mem_cons_of_mem _ (ih h)

/-- A backward function sends to the variables of its context. -/
theorem mem_contributions {c : Ctx T} {q : ℕ × Kernel T}
    (h : q ∈ contributions K data requiresGrad c) : some q.1 ∈ c.targets := by
  cases c with
  | unary | alongDim | fakeQuant | transpose | dropout =>
    rw [mem_sendTo h]
    exact List.mem_singleton_self _
  | binary op a b =>
    rcases List.mem_append.mp h with h | h
    · simp [Ctx.targets, mem_sendTo h]
    · split_ifs at h
      · simp [Ctx.targets, mem_sendTo h]
      · cases h
  | pow a b result =>
    rcases List.mem_append.mp h with h | h
    · simp [Ctx.targets, mem_sendTo h]
    · cases result with
      | none => cases h
      | some r => simp [Ctx.targets, mem_sendTo h]
  | conv1d | conv2d =>
    rcases List.mem_append.mp h with h | h
    · simp [Ctx.targets, mem_sendTo h]
    · simp [Ctx.targets, mem_sendTo h]
  | layerNorm | batchNorm =>
    rcases List.mem_append.mp h with h | h
    · rcases List.mem_append.mp h with h | h
      · simp [Ctx.targets, mem_sendTo h]
      · simp [Ctx.targets, mem_sendTo h]
    · simp [Ctx.targets, mem_sendTo h]
  | rope a cosTable =>
    cases cosTable with
    | none => cases h
    | some table => simp [Ctx.targets, mem_sendTo h]
  | concat owned vars dim sizes => exact mem_concatContributions h

theorem targets_savedCtx {shape : ℕ → UInt64 → UInt64} {result : T} {op : Op T} {c : Ctx T}
    (hc : op.savedCtx shape result = some c) : c.targets = op.parents := by
  cases op with
  | zeroGrad op operands => cases hc
  | _ =>
    obtain rfl := Option.some.inj hc
    rfl

theorem mem_of_getD {parents : List Ptr} {k p : ℕ} (h : parents.getD k none = some p) :
    some p ∈ parents := by
  rw [List.getD_eq_getElem?_getD] at h
  cases hk : parents[k]? with
  | none => simp [hk] at h
  | some r =>
    rw [hk, Option.getD_some] at h
    exact h ▸ List.mem_of_getElem? hk

theorem targets_recompute (fn : RecomputeFn) (parents : List Ptr) (params : List UInt64) {p : ℕ}
    (h : some p ∈ (fn.ctx parents params : Ctx T).targets) : some p ∈ parents := by
  cases fn with
  | concat => exact h
  | unary | alongDim | fakeQuant | transpose | dropout | rope =>
    exact mem_of_getD (List.mem_singleton.mp h).symm
  | binary | pow | conv1d | conv2d =>
    rcases List.mem_cons.mp h with h | h
    · exact mem_of_getD h.symm
    · exact mem_of_getD (List.mem_singleton.mp h).symm
  | layerNorm | batchNorm =>
    rcases List.mem_cons.mp h with h | h
    · exact mem_of_getD h.symm
    · rcases List.mem_cons.mp h with h | h
      · exact mem_of_getD h.symm
      · exact mem_of_getD (List.mem_singleton.mp h).symm

/-- Whatever context a variable is called with, it refers to the parents. -/
theorem targets_of_built {y x : Variable (Ctx T)} (hy : Built y) (hx : x = y ∨ x = y.checkpoint)
    {c : Ctx T} (hc : x.backwardCtx = some c ∨ x.recomputeCtx = some c) {p : ℕ}
    (hp : some p ∈ c.targets) : some p ∈ x.parents := by
  have hparents : x.parents = y.parents := by
    rcases hx with rfl | rfl
    · rfl
    · rw [Variable.checkpoint]
      split <;> rfl
  have hctx : y.backwardCtx = some c ∨ y.recomputeCtx = some c := by
    rcases hx with rfl | rfl
    · exact hc
    · rw [Variable.checkpoint] at hc
      split_ifs at hc
      · rcases hc with h | h
        · cases h
        · exact .inr h
      · exact hc
  rw [hparents]
  rcases hy with rfl | ⟨shape, result, op, rfl⟩
  · rcases hctx with h | h
    · cases h
    · cases h
  · rcases hctx with h | h
    · change some p ∈ op.parents
      rw [← targets_savedCtx h]
      exact hp
    · obtain ⟨fn, -, rfl⟩ := Option.map_eq_some_iff.mp h
      exact targets_recompute fn _ _ hp

end Targets

/-! ## The graph of a program has no cycles -/

section Acyclic

variable {T H M : Type}

/-- The parents of a variable were made before it. -/
def ParentsBefore (g : Graph T H) : Prop :=
  ∀ v (x : Node T H), g.nodes[v]? = some x → ∀ p, some p ∈ x.var.parents → p < v

theorem mem_operands {op : Op T} {p : Ptr} (h : p ∈ op.parents) : p ∈ op.operands := by
  cases op with
  | zeroGrad op operands => cases h
  | batchNorm a gamma beta mean var eps =>
    simp only [Op.parents, List.mem_cons, List.not_mem_nil, or_false] at h
    rcases h with h | h | h
    · simp [Op.operands, h]
    · simp [Op.operands, h]
    · simp [Op.operands, h]
  | _ => exact h

theorem parents_checkpoint {C : Type} (x : Variable C) : x.checkpoint.parents = x.parents := by
  rw [Variable.checkpoint]
  split <;> rfl

theorem parentsBefore_record {g : Graph T H} (h : ParentsBefore g) (w : ℕ) :
    ParentsBefore (g.tapeRecord w) := by
  rw [Graph.tapeRecord]
  split_ifs with hmem hcp
  · exact h
  · intro v x hx p hp
    dsimp only at hx
    rw [List.getElem?_modify] at hx
    obtain ⟨y, hy, rfl⟩ := Option.map_eq_some_iff.mp hx
    split_ifs at hp
    · rw [parents_checkpoint] at hp
      exact h v y hy p hp
    · exact h v y hy p hp
  · exact h

theorem parentsBefore_push {g : Graph T H} (h : ParentsBefore g) {y : Node T H}
    (hy : ∀ p, some p ∈ y.var.parents → p < g.nodes.length) :
    ParentsBefore { g with nodes := g.nodes ++ [y] } := by
  intro v x hx p hp
  rcases Nat.lt_trichotomy v g.nodes.length with hv | hv | hv
  · rw [List.getElem?_append_left hv] at hx
    exact h v x hx p hp
  · rw [hv, List.getElem?_concat_length] at hx
    obtain rfl := Option.some.inj hx
    exact hv ▸ hy p hp
  · rw [List.getElem?_eq_none (by simpa using hv)] at hx
    cases hx

theorem parentsBefore_apply (K : Kernels T H M) {g : Graph T H} (h : ParentsBefore g) (op : Op T)
    (taped : Bool) : ParentsBefore (g.apply K op taped) := by
  unfold Graph.apply
  by_cases hvalid : (op.accepted && op.operands.all g.valid) = true
  · rw [if_pos hvalid]
    cases K.forward op (op.operands.map g.data) with
    | none => exact h
    | some result =>
      have hnode : ∀ p, some p ∈ (g.newNode K op result).var.parents → p < g.nodes.length := by
        intro p hp
        have hparents : some p ∈ op.parents := by
          unfold Graph.newNode at hp
          dsimp only at hp
          split_ifs at hp
          · exact hp
          · cases hp
        have hall := List.all_eq_true.mp (Bool.and_eq_true_iff.mp hvalid).2 _ (mem_operands hparents)
        simpa [Graph.valid] using hall
      have hpush := parentsBefore_push h hnode
      dsimp only
      split_ifs
      · exact parentsBefore_record hpush _
      · exact hpush
  · rw [if_neg hvalid]
    exact h

theorem parentsBefore_exec (K : Kernels T H M) {g : Graph T H} (h : ParentsBefore g) (c : Cmd T H) :
    ParentsBefore (g.exec K c) := by
  cases c with
  | create data grad rg => exact parentsBefore_push h fun p hp => by cases hp
  | apply op taped => exact parentsBefore_apply K h op taped
  | record v =>
    rw [Graph.exec]
    split_ifs
    · exact parentsBefore_record h v
    · exact h
  | checkpointBegin | checkpointEnd | noGradEnter | noGradExit => exact h

theorem parentsBefore_build (K : Kernels T H M) (prog : List (Cmd T H)) : ParentsBefore (build K prog) :=
  List.foldlRecOn prog _ (fun v x hx => by cases hx) fun _ h c _ => parentsBefore_exec K h c

theorem acyclic_build (K : Kernels T H M) (prog : List (Cmd T H)) :
    (build K prog).tape.Acyclic (build K prog).vars := by
  have hedge : ∀ v p, (build K prog).tape.IsParent (build K prog).vars v p → p < v := by
    rintro v p ⟨-, -, hp⟩
    rw [Graph.vars] at hp
    cases hx : (build K prog).nodes[v]? with
    | none =>
      rw [hx] at hp
      cases hp
    | some x =>
      rw [hx] at hp
      exact parentsBefore_build K prog v x hx p hp
  have hpath : ∀ v p, Relation.TransGen ((build K prog).tape.IsParent (build K prog).vars) v p → p < v := by
    intro v p h
    induction h with
    | single h => exact hedge _ _ h
    | tail _ h ih => exact (hedge _ _ h).trans ih
  exact fun v h => Nat.lt_irrefl v (hpath v v h)

end Acyclic

/-! ## Rounds and runs -/

section Runs

variable {R : Type} [CommRing R] {A : Arith R} {prog : List (Cmd (Dense R) GradView)}

theorem sends_to_parents {v : ℕ} {c : Ctx (Dense R)}
    (hc : ((build (viewKernels A) prog).vars v).context = some c) {q : ℕ × Kernel (Dense R)}
    (hq : q ∈ contributions (viewKernels A) (build (viewKernels A) prog).data
      (build (viewKernels A) prog).requiresGrad c) :
    some q.1 ∈ ((build (viewKernels A) prog).vars v).parents := by
  have hfrom : ((build (viewKernels A) prog).vars v).backwardCtx = some c ∨
      ((build (viewKernels A) prog).vars v).recomputeCtx = some c := by
    rw [Variable.context] at hc
    split at hc
    · exact .inl (hc ▸ ‹_›)
    · split_ifs at hc
      exact .inr hc
  obtain ⟨hvar, hbuilt, -⟩ := (build_sim (viewKernels A) prog).vars v
  exact targets_of_built hbuilt hvar hfrom (mem_contributions hq)

/-- What a round does to the gradients. -/
structure Stepped (A : Arith R) (g : Graph (Dense R) GradView)
    (s s' : Session (Dense R) GradView (Store R)) (v : ℕ) : Prop where
  held : Held s'
  vars : ∀ w, w ≠ v → s'.vars w = s.vars w
  frame : ∀ u, some u ∉ (g.vars v).parents → s'.value u = s.value u
  sums : ∀ u before, IsSum before (s.value u) → IsSum (before ++ g.owedBy A s.value u v) (s'.value u)

/-- A round that calls no backward function. -/
theorem owedBy_of_not_pending {g : Graph (Dense R) GradView} {s : Session (Dense R) GradView (Store R)}
    {v : ℕ} (hvars : s.vars v = g.vars v) (hp : s.pending v = none) (u : ℕ) :
    g.owedBy A s.value u v = [] := by
  rw [Heap.pending, hvars] at hp
  unfold Graph.owedBy
  split_ifs at hp ⊢ with hfn
  · cases hg : s.grads v with
    | none => simp only [Session.value, hg, Option.map_none]
    | some out =>
      rw [hg, Option.bind_some, Option.map_eq_none_iff] at hp
      rw [hp]
      cases s.value v with
      | none => rfl
      | some y => rfl
  · rfl

theorem owedBy_of_pending {g : Graph (Dense R) GradView} {s : Session (Dense R) GradView (Store R)}
    {v : ℕ} {c : Ctx (Dense R)} {out : GradView} (hvars : s.vars v = g.vars v)
    (hp : s.pending v = some (c, out)) (u : ℕ) :
    g.owedBy A s.value u v
      = sentTo A (s.mem.read out) u (contributions (viewKernels A) g.data g.requiresGrad c) := by
  obtain ⟨hfn, hgrad, hctx⟩ := pending_eq_some.1 hp
  rw [hvars] at hfn hctx
  simp only [Graph.owedBy, hfn, if_true, Session.value, hgrad, Option.map_some, hctx]

/-- One round: the parents get what the variable owes them. -/
theorem step_sent {s : Session (Dense R) GradView (Store R)} {v : ℕ} (hheld : Held s)
    (hvars : s.vars v = (build (viewKernels A) prog).vars v)
    (hmeets : StepMeets A (build (viewKernels A) prog) s v) :
    ∃ s', s.step (viewKernels A) (build (viewKernels A) prog) v = some s' ∧
      Stepped A (build (viewKernels A) prog) s s' v := by
  cases hp : s.pending v with
  | none =>
    refine ⟨s, by simp only [Session.step, hp], hheld, fun _ _ => rfl, fun _ _ => rfl,
      fun u before h => ?_⟩
    rw [owedBy_of_not_pending hvars hp, List.append_nil]
    exact h
  | some p =>
    obtain ⟨c, out⟩ := p
    obtain ⟨hfree, hsends⟩ := hmeets c out hp
    obtain ⟨-, hgrad, hctx⟩ := pending_eq_some.1 hp
    have hsent := sends_sent hheld (hheld v out hgrad) hsends
    obtain ⟨t, ht⟩ : ∃ t, t = (contributions (viewKernels A) (build (viewKernels A) prog).data
        (build (viewKernels A) prog).requiresGrad c).foldl (Session.send (viewKernels A) out) s := ⟨_, rfl⟩
    have hvarsSent : t.vars = s.vars := ht ▸ foldl_send_vars _ _ _ _
    rw [← ht] at hsent
    refine ⟨{ t with
        vars := Function.update t.vars v { t.vars v with backwardCtx := none }
        calls := t.calls ++ [v] }, ?_, hsent.held, fun w hw => ?_, fun u hu => ?_, fun u before h => ?_⟩
    · rw [Session.step, hp]
      simp [hfree, ht]
    · dsimp only
      rw [Function.update_of_ne hw, hvarsSent]
    · refine hsent.frame u fun q hq he => hu ?_
      exact he ▸ sends_to_parents (hvars ▸ hctx) hq
    · rw [owedBy_of_pending hvars hp]
      exact hsent.sums u before h

/-- The state after the variables `done`: each has sent what it owes, from the gradient that it has. -/
structure SentAll (A : Arith R) (g : Graph (Dense R) GradView)
    (start : Session (Dense R) GradView (Store R)) (done : List ℕ)
    (s : Session (Dense R) GradView (Store R)) : Prop where
  held : Held s
  vars : ∀ w, w ∉ done → s.vars w = g.vars w
  sums : ∀ u, IsSum ((start.value u).toList ++ done.flatMap (g.owedBy A s.value u)) (s.value u)

theorem owedBy_congr (A : Arith R) (g : Graph (Dense R) GradView) {value value' : ℕ → Option (Dense R)}
    {w : ℕ} (h : value' w = value w) (u : ℕ) : g.owedBy A value' u w = g.owedBy A value u w := by
  rw [Graph.owedBy, Graph.owedBy, h]

/-- One more variable, after its consumers. -/
theorem step_sentAll {start s : Session (Dense R) GradView (Store R)} {done rest : List ℕ} {v : ℕ}
    (hperm : (done ++ v :: rest).Perm (build (viewKernels A) prog).tape.vars)
    (hcons : ConsumersFirst (build (viewKernels A) prog).tape (build (viewKernels A) prog).vars
      (done ++ v :: rest))
    (h : SentAll A (build (viewKernels A) prog) start done s)
    (hmeets : StepMeets A (build (viewKernels A) prog) s v) :
    ∃ s', s.step (viewKernels A) (build (viewKernels A) prog) v = some s' ∧
      Stepped A (build (viewKernels A) prog) s s' v ∧
      SentAll A (build (viewKernels A) prog) start (done ++ [v]) s' := by
  have hnodup : (done ++ v :: rest).Nodup := hperm.nodup_iff.2 (build (viewKernels A) prog).tape.nodup
  have hfresh : v ∉ done := fun hv => List.disjoint_of_nodup_append hnodup hv List.mem_cons_self
  obtain ⟨s', hs', hstep⟩ := step_sent h.held (h.vars v hfresh) hmeets
  -- `v` is no consumer of a variable that was called, nor of itself
  have hstays : ∀ w ∈ done ++ [v], s'.value w = s.value w := by
    intro w hw
    refine hstep.frame w fun hp => ?_
    have hv : v ∈ (build (viewKernels A) prog).tape.vars := hperm.mem_iff.1 (by simp)
    rcases List.mem_append.mp hw with hw | hw
    · obtain ⟨a, b, rfl⟩ := List.append_of_mem hw
      have hbefore : v ∈ a := hcons a w (b ++ v :: rest) (by simp) v hv hp
      exact hfresh (List.mem_append_left _ hbefore)
    · obtain rfl := List.mem_singleton.mp hw
      exact hfresh (hcons done w rest rfl w hv hp)
  refine ⟨s', hs', hstep, hstep.held, fun w hw => ?_, fun u => ?_⟩
  · have hne : w ≠ v := fun he => hw (he ▸ List.mem_append_right _ List.mem_cons_self)
    rw [hstep.vars w hne]
    exact h.vars w fun hmem => hw (List.mem_append_left _ hmem)
  · have howed : (done ++ [v]).flatMap ((build (viewKernels A) prog).owedBy A s'.value u)
        = (done ++ [v]).flatMap ((build (viewKernels A) prog).owedBy A s.value u) :=
      List.flatMap_congr fun w hw => owedBy_congr A _ (hstays w hw) u
    rw [howed, List.flatMap_append, List.flatMap_singleton, ← List.append_assoc]
    exact hstep.sums u _ (h.sums u)

end Runs

/-! ## The pass -/

section Pass

variable {R : Type} [CommRing R] {A : Arith R} {prog : List (Cmd (Dense R) GradView)} {mem : Store R}
  {loss : ℕ}

/-- The gradients that the graph starts with are in the memory. -/
def InMemory (g : Graph (Dense R) GradView) (mem : Store R) : Prop :=
  ∀ u h, g.grads u = some h → h.storage < mem.next

omit [CommRing R] in
theorem grads_eq_none {g : Graph (Dense R) GradView} (h : g.nodes.all fun x => x.grad.isNone) (u : ℕ) :
    g.grads u = none := by
  rw [Graph.grads, Option.bind_eq_none_iff]
  exact fun x hx => Option.isNone_iff_eq_none.mp (List.all_eq_true.mp h x (List.mem_of_getElem? hx))

omit [CommRing R] in
theorem inMemory_of_isNone {g : Graph (Dense R) GradView} (mem : Store R)
    (h : g.nodes.all fun x => x.grad.isNone) : InMemory g mem := by
  intro u hv hu
  rw [grads_eq_none h u] at hu
  cases hu

theorem start_held {g : Graph (Dense R) GradView} (hmem : InMemory g mem) (x : Node (Dense R) GradView) :
    Held (g.start (viewKernels A) mem loss x) := by
  intro u h hu
  simp only [Graph.start, backwardStart] at hu
  by_cases hl : u = loss
  · subst hl
    rw [Function.update_self] at hu
    obtain rfl := Option.some.inj hu
    exact Nat.lt_succ_self _
  · rw [Function.update_of_ne hl] at hu
    exact (hmem u h hu).trans (Nat.lt_succ_self _)

theorem start_sentAll {g : Graph (Dense R) GradView} (hmem : InMemory g mem)
    (x : Node (Dense R) GradView) :
    SentAll A g (g.start (viewKernels A) mem loss x) [] (g.start (viewKernels A) mem loss x) := by
  refine ⟨start_held hmem x, fun _ _ => rfl, fun u => ?_⟩
  rw [List.flatMap_nil, List.append_nil]
  cases (g.start (viewKernels A) mem loss x).value u with
  | none => rfl
  | some y => exact ⟨by simp, by simp, by simp⟩

theorem order_spec (hn : (build (viewKernels A) prog).tape.vars.length < 500000) :
    (build (viewKernels A) prog).order.Perm (build (viewKernels A) prog).tape.vars ∧
      ConsumersFirst (build (viewKernels A) prog).tape (build (viewKernels A) prog).vars
        (build (viewKernels A) prog).order := by
  obtain ⟨hsort, hfirst⟩ := topologicalSort_spec hn (acyclic_build (viewKernels A) prog)
  exact ⟨(List.reverse_perm _).trans hsort, consumersFirst_reverse hsort hfirst⟩

/-- Every part of the pass succeeds, and leads to a state where its variables have sent what they owe. -/
theorem run_sentAll (hmem : InMemory (build (viewKernels A) prog) mem)
    (hn : (build (viewKernels A) prog).tape.vars.length < 500000)
    (hmeets : RunMeets A (build (viewKernels A) prog) mem loss) {x : Node (Dense R) GradView}
    (hx : (build (viewKernels A) prog).nodes[loss]? = some x) (done : List ℕ) :
    ∀ rest, (build (viewKernels A) prog).order = done ++ rest →
      ∃ s, (build (viewKernels A) prog).Reached A mem loss done rest s ∧
        SentAll A (build (viewKernels A) prog)
          ((build (viewKernels A) prog).start (viewKernels A) mem loss x) done s := by
  obtain ⟨hperm, hcons⟩ := order_spec hn
  induction done using List.reverseRecOn with
  | nil => exact fun rest horder => ⟨_, ⟨x, hx, horder, rfl⟩, start_sentAll hmem x⟩
  | append_singleton done v ih =>
    intro rest horder
    rw [List.append_assoc, List.singleton_append] at horder
    obtain ⟨s, hreached, hsent⟩ := ih (v :: rest) horder
    obtain ⟨s', hs', -, hsent'⟩ := step_sentAll (horder ▸ hperm) (horder ▸ hcons) hsent
      (hmeets done v rest s hreached)
    obtain ⟨y, hy, -, hrun⟩ := hreached
    refine ⟨s', ⟨y, hy, by rw [horder, List.append_assoc, List.singleton_append], ?_⟩, hsent'⟩
    rw [List.foldlM_append, hrun]
    exact congrArg (fun o => Option.bind o some) hs'

/-- A pass whose rounds meet the condition: every round changes the gradients of the parents only, and at
the end every gradient is the sum of the contributions of its consumers. -/
theorem views_correct (A : Arith R) (prog : List (Cmd (Dense R) GradView)) (mem : Store R) (loss : ℕ)
    (hmem : InMemory (build (viewKernels A) prog) mem)
    (hn : (build (viewKernels A) prog).tape.vars.length < 500000)
    (hmeets : RunMeets A (build (viewKernels A) prog) mem loss) :
    FramesParents A (build (viewKernels A) prog) mem loss ∧
      SumsContributions A (build (viewKernels A) prog) mem loss := by
  obtain ⟨hperm, hcons⟩ := order_spec hn
  constructor
  · intro done v rest s s' hreached hs u hu
    obtain ⟨x, hx, horder, hrun⟩ := id hreached
    obtain ⟨t, ⟨y, hy, -, hrun'⟩, hsent⟩ := run_sentAll hmem hn hmeets hx done (v :: rest) horder
    obtain rfl := Option.some.inj (hx.symm.trans hy)
    obtain rfl := Option.some.inj (hrun.symm.trans hrun')
    obtain ⟨t', ht', hstep, -⟩ := step_sentAll (horder ▸ hperm) (horder ▸ hcons) hsent
      (hmeets done v rest s hreached)
    obtain rfl := Option.some.inj (hs.symm.trans ht')
    exact hstep.frame u hu
  · intro x hx
    obtain ⟨s, ⟨y, hy, -, hrun⟩, hsent⟩ :=
      run_sentAll hmem hn hmeets hx _ [] (List.append_nil _).symm
    obtain rfl := Option.some.inj (hx.symm.trans hy)
    refine ⟨s, by simp only [Graph.backward, hx]; exact hrun, fun u => (hsent.sums u).perm ?_⟩
    exact (hperm.flatMap_right _).append_left _

end Pass

/-! ## Two programs -/

/-- Negations, sums, differences and reshapes of integers. -/
def intArith : Arith ℤ where
  forward op operands :=
    match op, operands with
    | .unary .neg _, [some a] => some (Dense.ofFn a.shape fun i => -a.elem i)
    | .binary .add _ _, [some a, some b] => some (Dense.ofFn a.shape fun i => a.elem i + b.elem i)
    | .binary .sub _ _, [some a, some b] => some (Dense.ofFn a.shape fun i => a.elem i - b.elem i)
    | .reshape _ shape, [some a] => some (Dense.ofFn (shape.map UInt64.toNat) a.elem)
    | _, _ => none
  contribution k out :=
    match k with
    | .unary .neg _ | .binary .sub 1 _ _ => some (.packed (Dense.ofFn out.shape fun i => -out.elem i))
    | .binary .add _ _ _ | .binary .sub 0 _ _ => some (.packed out)
    | _ => none
  reading k :=
    match k with
    | .unary .neg _ | .binary .sub 1 _ _ => .contiguous
    | _ => .data

/-- A memory without storages. -/
def zeroStore : Store ℤ := ⟨fun _ => 0, 0⟩

/-- `x`, `-x`, `x` reshaped, and the sum of the last two. -/
def sharedProgram : List (Cmd (Dense ℤ) GradView) :=
  [.create (Dense.ofFn [2] fun i => i) none true, .apply (.unary .neg 0) true,
    .apply (.reshape 0 [2]) true, .apply (.binary .add 1 2) true]

/-- The gradient of `u` after the variables `done`. -/
def gradsAfter (A : Arith ℤ) (prog : List (Cmd (Dense ℤ) GradView)) (loss : ℕ) (done : List ℕ) (u : ℕ) :
    Option (Option (List ℤ)) :=
  (build (viewKernels A) prog).nodes[loss]?.bind fun x =>
    (done.foldlM (Session.step (viewKernels A) (build (viewKernels A) prog))
      ((build (viewKernels A) prog).start (viewKernels A) zeroStore loss x)).map fun s =>
        (s.value u).map Dense.data

/-- The reshaped variable hands its gradient on to `x` as a view, and the negation then adds to it: one
less one in the gradient of a variable that it does not know. -/
theorem not_framesParents_shared :
    ¬∀ (A : Arith ℤ) (prog : List (Cmd (Dense ℤ) GradView)) (mem : Store ℤ) (loss : ℕ),
      InMemory (build (viewKernels A) prog) mem → (build (viewKernels A) prog).tape.vars.length < 500000 →
      FramesParents A (build (viewKernels A) prog) mem loss ∧
        SumsContributions A (build (viewKernels A) prog) mem loss := by
  intro h
  obtain ⟨hframe, -⟩ := h intArith sharedProgram zeroStore 3 (inMemory_of_isNone _ (by decide +kernel))
    (by decide +kernel)
  have hbefore : gradsAfter intArith sharedProgram 3 [3, 2] 2 = some (some [1, 1]) := by decide +kernel
  have hafter : gradsAfter intArith sharedProgram 3 [3, 2, 1] 2 = some (some [0, 0]) := by decide +kernel
  have horder : (build (viewKernels intArith) sharedProgram).order = [3, 2] ++ [1] := by decide +kernel
  have hparents : some 2 ∉ ((build (viewKernels intArith) sharedProgram).vars 1).parents := by
    decide +kernel
  obtain ⟨x, hx, hbefore⟩ := Option.bind_eq_some_iff.mp hbefore
  obtain ⟨s, hs, hvalue⟩ := Option.map_eq_some_iff.mp hbefore
  obtain ⟨x', hx', hafter⟩ := Option.bind_eq_some_iff.mp hafter
  obtain rfl := Option.some.inj (hx.symm.trans hx')
  obtain ⟨s', hs', hvalue'⟩ := Option.map_eq_some_iff.mp hafter
  have hsplit : [3, 2, 1] = [3, 2] ++ [1] := rfl
  rw [hsplit, List.foldlM_append, hs] at hs'
  have hstep : s.step (viewKernels intArith) (build (viewKernels intArith) sharedProgram) 1 = some s' := by
    simpa using hs'
  have heq := hframe [3, 2] 1 [] s s' ⟨x, hx, horder, hs⟩ hstep 2 hparents
  rw [heq, hvalue] at hvalue'
  cases hvalue'

/-- `x`, `-x`, the difference of the two, and that reshaped. -/
def mixedProgram : List (Cmd (Dense ℤ) GradView) :=
  [.create (Dense.ofFn [2] fun i => i) none true, .apply (.unary .neg 0) true,
    .apply (.binary .sub 0 1) true, .apply (.reshape 2 [2, 1]) true]

section Meets

variable {R : Type} [CommRing R] {A : Arith R} {g : Graph (Dense R) GradView}

/-- The first contribution to a variable only has to be read in order. -/
theorem sendMeets_of_first {out : GradView} {s : Session (Dense R) GradView (Store R)}
    {q : ℕ × Kernel (Dense R)} (hread : Readable A q.2 out) (hfirst : s.grads q.1 = none) :
    SendMeets A out s q :=
  ⟨hread, fun g x hg => by rw [hfirst] at hg; cases hg⟩

/-- The rounds of a run meet the condition. -/
def MeetsFrom (A : Arith R) (g : Graph (Dense R) GradView) :
    Session (Dense R) GradView (Store R) → List ℕ → Prop
  | _, [] => True
  | s, v :: l => StepMeets A g s v ∧ ∀ t, s.step (viewKernels A) g v = some t → MeetsFrom A g t l

theorem stepMeets_of_meetsFrom {done rest : List ℕ} {v : ℕ} {s t : Session (Dense R) GradView (Store R)}
    (h : MeetsFrom A g s (done ++ v :: rest))
    (hrun : done.foldlM (Session.step (viewKernels A) g) s = some t) : StepMeets A g t v := by
  induction done generalizing s with
  | nil =>
    obtain rfl := Option.some.inj hrun
    exact h.1
  | cons w done ih =>
    rw [List.foldlM_cons] at hrun
    obtain ⟨r, hr, hrun⟩ := Option.bind_eq_some_iff.mp hrun
    exact ih (h.2 r hr) hrun

theorem runMeets_of_meetsFrom {mem : Store R} {loss : ℕ}
    (h : ∀ x, g.nodes[loss]? = some x → MeetsFrom A g (g.start (viewKernels A) mem loss x) g.order) :
    RunMeets A g mem loss := by
  rintro done v rest s ⟨x, hx, horder, hrun⟩
  exact stepMeets_of_meetsFrom (horder ▸ h x hx) hrun

end Meets

/-- A contiguous gradient of the shape `[2, 1]`. -/
def column (storage : ℕ) : GradView :=
  { storage := storage, offset := 0, shape := [2, 1], strides := [1, 1], length_eq := rfl }

/-- A contiguous vector of two elements. -/
def pair (storage : ℕ) : GradView :=
  { storage := storage, offset := 0, shape := [2], strides := [1], length_eq := rfl }

/-- The gradient of `x` has a storage of its own when the negation is called. -/
theorem mixed_addable {s : Session (Dense ℤ) GradView (Store ℤ)}
    (hothers : ∀ u h, u ≠ 0 → s.grads u = some h → h.storage ≠ 1) :
    Addable s (pair 2) 0 (pair 1) (pair 3) where
  shape := rfl
  inOrder := by decide
  inOrder' := by decide
  apart := by decide
  others u h hu hg _ _ _ _ he := hothers u h hu hg (congrArg Prod.fst he)

theorem mixed_meets : RunMeets intArith (build (viewKernels intArith) mixedProgram) zeroStore 3 := by
  refine runMeets_of_meetsFrom fun x hx => ?_
  have horder : (build (viewKernels intArith) mixedProgram).order = [3, 2, 1] := by decide +kernel
  have hread : ∀ i < (pair 0).size, (pair 0).flat i = (pair 0).cell i := by decide
  have hcopied : ∀ i < (pair 0).size, (pair 0).address .contiguous i = (pair 0).cell i := by decide
  rw [horder]
  obtain rfl := Option.some.inj hx
  refine ⟨fun c out hp => ?_, fun t ht => ?_⟩
  · obtain rfl := Option.some.inj (pending_eq_some.1 hp).2.1
    obtain rfl := Option.some.inj (pending_eq_some.1 hp).2.2
    have hcolumn : ∀ i < (column 0).size, (column 0).flat i = (column 0).cell i := by decide
    exact ⟨rfl, sendMeets_of_first ⟨rfl, hcolumn⟩ rfl, trivial⟩
  obtain rfl := Option.some.inj ht
  refine ⟨fun c out hp => ?_, fun t ht => ?_⟩
  · obtain rfl := Option.some.inj (pending_eq_some.1 hp).2.1
    obtain rfl := Option.some.inj (pending_eq_some.1 hp).2.2
    exact ⟨rfl, sendMeets_of_first hread rfl, sendMeets_of_first hcopied rfl, trivial⟩
  obtain rfl := Option.some.inj ht
  refine ⟨fun c out hp => ?_, fun t ht => trivial⟩
  obtain rfl := Option.some.inj (pending_eq_some.1 hp).2.1
  obtain rfl := Option.some.inj (pending_eq_some.1 hp).2.2
  have hown : ∀ i < (pair 2).size, (pair 2).address .contiguous i = (pair 2).cell i := by decide
  refine ⟨rfl, ⟨hown, fun g x hg hx => ?_⟩, trivial⟩
  obtain rfl := Option.some.inj hg
  obtain rfl := Option.some.inj hx
  refine mixed_addable fun u h hu hg => ?_
  change Function.update (Function.update (Function.update (Function.update
    (build (viewKernels intArith) mixedProgram).grads 3 (some (column 0))) 2 (some (pair 0)))
    0 (some (pair 1))) 1 (some (pair 2)) u = some h at hg
  rw [Function.update_apply, Function.update_of_ne hu, Function.update_apply, Function.update_apply,
    grads_eq_none (by decide +kernel)] at hg
  split_ifs at hg
  · exact Option.some.inj hg ▸ by decide
  · exact Option.some.inj hg ▸ by decide
  · exact Option.some.inj hg ▸ by decide

/-- `x` has two consumers, and the gradient of the difference is a view. -/
theorem views_correct_mixed :
    gradsAfter intArith mixedProgram 3 [3, 2, 1] 0 = some (some [2, 2]) ∧
      FramesParents intArith (build (viewKernels intArith) mixedProgram) zeroStore 3 ∧
      SumsContributions intArith (build (viewKernels intArith) mixedProgram) zeroStore 3 :=
  ⟨by decide +kernel, views_correct intArith mixedProgram zeroStore 3
    (inMemory_of_isNone _ (by decide +kernel)) (by decide +kernel) mixed_meets⟩

end SneppxAlg.Autodiff
