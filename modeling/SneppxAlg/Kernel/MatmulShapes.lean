import SneppxAlg.Kernel.Matmul

/-!
# What a matrix product is to be

The result is to have the leading extents of both operands, joined, and at each place of these the product of the two
matrices of the operands; a vector is a matrix with one row, or one column, without the extent (`Correct`).

A sum of products is the right one for all data only if the pairs of places are the right ones, up to their order
(`MultipliesRight`), and it is in the result only if no other batch is stored into the same part of it
(`StoresApart`).

Here is what the statement rests on: that the leading extents which the source computes are the joined ones where none
is 0, that the elements of a prepared operand can be read one after another, and where the elements of packed
operands are.
-/

namespace SneppxAlg.Matmul

open Lib.AddingLoops Lib.Strided
open FloatView
open TensorEngine (Outcome numel extents rowMajor isContiguous flatOffset offsetFrom extents_cons length_extents
  PackedFrom packedFrom_one_iff dot_eq_zero_of_prod_eq_one
  dot_digits_zero)
open Finset (range)

/-! ## The definition -/

/-- The leading extents of both operands, joined. -/
def broadcastLead (aLead bLead : List UInt64) : List UInt64 :=
  let n := max aLead.length bLead.length
  List.zipWith (fun av bv => if av = 1 then bv else av) (padLead n aLead) (padLead n bLead)

namespace Sizes

variable (s : Sizes)

/-- The index of an element in a matrix on the left. -/
def left (i l : ℕ) : List ℕ := if s.a1 then [l] else [i, l]

/-- The index of an element in a matrix on the right. -/
def right (l j : ℕ) : List ℕ := if s.b1 then [l] else [l, j]

/-- The index of an element in a matrix of the result. -/
def out (i j : ℕ) : List ℕ := (if s.a1 then [] else [i]) ++ (if s.b1 then [] else [j])

end Sizes

variable {R : Type}

/-- The operands pass the checks. -/
structure Accepted (a b : View R) (s : Sizes) (lead : List UInt64) : Prop where
  dims_a : 1 ≤ a.shape.length ∧ a.shape.length ≤ 8
  dims_b : 1 ≤ b.shape.length ∧ b.shape.length ≤ 8
  sizes : sizes a.shape b.shape = some s
  lead : outLead (leadOf a.shape) (leadOf b.shape) = some lead

/-- There is memory for the result and for copies of the operands, and the batches can be numbered. -/
structure Room (alloc : ℕ → Bool) (a b : View R) (s : Sizes) (lead : List UInt64) : Prop where
  lead_fits : (extents lead).prod < 2 ^ 63
  result_fits : 4 * ((extents lead).prod * (s.aM.toNat * s.bN.toNat)) < 2 ^ 64
  result : alloc (4 * ((extents lead).prod * (s.aM.toNat * s.bN.toNat))) = true
  left : alloc (4 * (extents a.shape).prod) = true
  right : alloc (4 * (extents b.shape).prod) = true

section Statement

variable [CommSemiring R]

/-- The tensor is the product of the operands. -/
structure IsProduct (a b : View R) (s : Sizes) (r : FloatTensor R) : Prop where
  shape : r.shape = broadcastLead (leadOf a.shape) (leadOf b.shape) ++ s.outDims
  elems : ∀ c, Within c (extents (broadcastLead (leadOf a.shape) (leadOf b.shape))) →
    ∀ i < s.aM.toNat, ∀ j < s.bN.toNat,
      r.data (dot (c ++ s.out i j) (packedStrides (extents r.shape))) =
        ∑ l ∈ range s.aK.toNat, a.data (a.place (leadCoords (leadOf a.shape) c ++ s.left i l)) *
          b.data (b.place (leadCoords (leadOf b.shape) c ++ s.right l j))

/-- Whatever the operands contain, the result is their product, and every element of it is written: it does not
matter what the new tensor contains. -/
def Correct (alloc : ℕ → Bool) (a b : View R) (s : Sizes) : Prop :=
  ∀ init x y, ∃ r, matmulOnto init alloc (a.withData x) (b.withData y) = .ok r ∧
    IsProduct (a.withData x) (b.withData y) s r

end Statement

/-! ## When they agree -/

/-- The pairs of places whose products make an element. -/
def pairs (a b : View R) (s : Sizes) (c : List ℕ) (i j : ℕ) : List (ℕ × ℕ) :=
  (List.range s.aK.toNat).map fun l =>
    (a.place (leadCoords (leadOf a.shape) c ++ s.left i l), b.place (leadCoords (leadOf b.shape) c ++ s.right l j))

/-- The pairs of places that the loops multiply for it. -/
def pairsOfLoop (a b : View R) (s : Sizes) (c : List ℕ) (i j : ℕ) : List (ℕ × ℕ) :=
  (List.range s.aK.toNat).map fun l =>
    (a.source (leadOffset (leadOf a.shape) c * (s.aM.toNat * s.aK.toNat) + i * s.aK.toNat + l),
      b.source (leadOffset (leadOf b.shape) c * (s.aK.toNat * s.bN.toNat) + l * s.bN.toNat + j))

def MultipliesRight (a b : View R) (s : Sizes) (lead : List UInt64) : Prop :=
  ∀ c, Within c (extents lead) → ∀ i < s.aM.toNat, ∀ j < s.bN.toNat,
    (pairsOfLoop a b s c i j).Perm (pairs a b s c i j)

/-- Each batch has its own part of the result. -/
def StoresApart (s : Sizes) (lead : List UInt64) : Prop :=
  s.a1 ∨ s.b1 → s.aM = 0 ∨ s.bN = 0 ∨ (extents lead).prod = 1

instance (s : Sizes) (lead : List UInt64) : Decidable (StoresApart s lead) :=
  inferInstanceAs (Decidable (_ → _))

/-- No more than one extent is not 1. -/
def AtMostOne (lead : List UInt64) : Prop := lead.countP (· ≠ 1) ≤ 1

instance (lead : List UInt64) : Decidable (AtMostOne lead) := inferInstanceAs (Decidable (_ ≤ _))

/-! ## Leading extents -/

section Extents

variable {aLead bLead lead out : List UInt64} {c : List ℕ}

/-- The extents are those at the end of `out`, or 1. -/
def Spreads (lead out : List UInt64) : Prop :=
  List.Forall₂ (fun s o => s = 1 ∨ s = o) lead (out.drop (out.length - lead.length))

theorem joinExtent_eq_some {av bv o : UInt64} (h : joinExtent av bv = some o) :
    (av = bv ∨ av = 1 ∨ bv = 1) ∧ o.toNat = max av.toNat bv.toNat := by
  rw [joinExtent] at h
  split_ifs at h with hne hlt
  · obtain rfl := Option.some.inj h
    exact ⟨by tauto, (max_eq_left (UInt64.lt_iff_toNat_lt.mp hlt).le).symm⟩
  · obtain rfl := Option.some.inj h
    rw [UInt64.lt_iff_toNat_lt, not_lt] at hlt
    exact ⟨by tauto, (max_eq_right hlt).symm⟩

theorem joinExtent_of_ne_zero {av bv o : UInt64} (h : joinExtent av bv = some o) (ha : av ≠ 0) (hb : bv ≠ 0) :
    o = (if av = 1 then bv else av) ∧ o ≠ 0 ∧ (av = 1 ∨ av = o) ∧ (bv = 1 ∨ bv = o) := by
  obtain ⟨hpair, hmax⟩ := joinExtent_eq_some h
  simp only [ne_eq, ← UInt64.toNat_inj, UInt64.toNat_zero, UInt64.toNat_one, apply_ite UInt64.toNat] at hpair ha hb ⊢
  split_ifs <;> omega

theorem joinExtent_of_zero {av bv o : UInt64} (h : joinExtent av bv = some o) (h0 : av = 0 ∨ bv = 0) :
    (if av = 1 then bv else av) = 0 := by
  obtain ⟨hpair, -⟩ := joinExtent_eq_some h
  simp only [← UInt64.toNat_inj, UInt64.toNat_zero, UInt64.toNat_one, apply_ite UInt64.toNat] at hpair h0 ⊢
  split_ifs <;> omega

theorem joined_of_ne_zero {p q : List UInt64} (hlen : p.length = q.length)
    (h : (p.zip q).mapM (fun x => joinExtent x.1 x.2) = some out) (hp : 0 ∉ p) (hq : 0 ∉ q) :
    out = List.zipWith (fun av bv => if av = 1 then bv else av) p q ∧ 0 ∉ out ∧
      List.Forall₂ (fun s o => s = 1 ∨ s = o) p out ∧ List.Forall₂ (fun s o => s = 1 ∨ s = o) q out := by
  induction p generalizing q out with
  | nil =>
    obtain rfl := List.length_eq_zero_iff.mp hlen.symm
    obtain rfl : out = [] := by simpa using h.symm
    simp
  | cons av p ih =>
    obtain _ | ⟨bv, q⟩ := q
    · cases hlen
    · rw [List.zip_cons_cons, List.mapM_cons] at h
      simp only [Option.bind_eq_bind, Option.bind_eq_some_iff, Option.pure_def, Option.some.injEq] at h
      obtain ⟨o, ho, rest, hrest, rfl⟩ := h
      rw [List.mem_cons, not_or] at hp hq
      obtain ⟨h1, h2, h3, h4⟩ := joinExtent_of_ne_zero ho (Ne.symm hp.1) (Ne.symm hq.1)
      obtain ⟨g1, g2, g3, g4⟩ := ih (Nat.succ.inj hlen) hrest hp.2 hq.2
      refine ⟨?_, ?_, .cons h3 g3, .cons h4 g4⟩
      · rw [List.zipWith_cons_cons, ← h1, ← g1]
      · rw [List.mem_cons, not_or]
        exact ⟨Ne.symm h2, g2⟩

theorem zero_mem_of_joined {p q : List UInt64} (hlen : p.length = q.length)
    (h : (p.zip q).mapM (fun x => joinExtent x.1 x.2) = some out) (h0 : 0 ∈ p ∨ 0 ∈ q) :
    0 ∈ List.zipWith (fun av bv => if av = 1 then bv else av) p q := by
  induction p generalizing q out with
  | nil =>
    obtain rfl := List.length_eq_zero_iff.mp hlen.symm
    simp at h0
  | cons av p ih =>
    obtain _ | ⟨bv, q⟩ := q
    · cases hlen
    · rw [List.zip_cons_cons, List.mapM_cons] at h
      simp only [Option.bind_eq_bind, Option.bind_eq_some_iff, Option.pure_def, Option.some.injEq] at h
      obtain ⟨o, ho, rest, hrest, rfl⟩ := h
      rw [List.zipWith_cons_cons, List.mem_cons]
      by_cases hhead : av = 0 ∨ bv = 0
      · exact Or.inl (joinExtent_of_zero ho hhead).symm
      · refine Or.inr (ih (Nat.succ.inj hlen) hrest ?_)
        rw [not_or] at hhead
        simpa [Ne.symm hhead.1, Ne.symm hhead.2] using h0

theorem length_padLead {n : ℕ} (h : lead.length ≤ n) : (padLead n lead).length = n := by
  rw [padLead, List.length_append, List.length_replicate]
  omega

theorem zero_mem_padLead {n : ℕ} : 0 ∈ padLead n lead ↔ 0 ∈ lead := by
  simp [padLead, List.mem_replicate]

theorem spreads_of_padLead {n : ℕ} (h : List.Forall₂ (fun s o => s = 1 ∨ s = o) (padLead n lead) out)
    (hn : lead.length ≤ n) : Spreads lead out := by
  have hlen : out.length = n := h.length_eq.symm.trans (length_padLead hn)
  have hdrop := List.forall₂_drop (n - lead.length) h
  rwa [padLead, List.drop_left' List.length_replicate, ← hlen] at hdrop

/-- The extents that the source computes, where none is 0. -/
theorem outLead_of_ne_zero (h : outLead aLead bLead = some lead) (ha : 0 ∉ aLead) (hb : 0 ∉ bLead) :
    lead = broadcastLead aLead bLead ∧ 0 ∉ lead ∧ Spreads aLead lead ∧ Spreads bLead lead := by
  have hlenA := length_padLead (le_max_left aLead.length bLead.length)
  have hlenB := length_padLead (le_max_right aLead.length bLead.length)
  obtain ⟨h1, h2, h3, h4⟩ := joined_of_ne_zero (hlenA.trans hlenB.symm) h (mt zero_mem_padLead.mp ha)
    (mt zero_mem_padLead.mp hb)
  exact ⟨h1, h2, spreads_of_padLead h3 (le_max_left _ _), spreads_of_padLead h4 (le_max_right _ _)⟩

theorem zero_mem_broadcastLead (h : outLead aLead bLead = some lead) (h0 : 0 ∈ aLead ∨ 0 ∈ bLead) :
    0 ∈ broadcastLead aLead bLead := by
  have hlenA := length_padLead (le_max_left aLead.length bLead.length)
  have hlenB := length_padLead (le_max_right aLead.length bLead.length)
  exact zero_mem_of_joined (hlenA.trans hlenB.symm) h (h0.imp zero_mem_padLead.mpr zero_mem_padLead.mpr)

theorem toNat_pos {s : UInt64} (h : 0 ≠ s) : 0 < s.toNat :=
  Nat.pos_of_ne_zero fun h0 => h (UInt64.toNat_inj.mp h0.symm)

theorem extents_take_append_drop (l : List UInt64) (k : ℕ) :
    extents (l.take k) ++ extents (l.drop k) = extents l := by
  simp only [extents, ← List.map_append, List.take_append_drop]

theorem within_zipWith (h : List.Forall₂ (fun s o => s = 1 ∨ s = o) lead out) (hc : Within c (extents out)) :
    Within (List.zipWith (fun s c => if s = 1 then 0 else c) lead c) (extents lead) := by
  induction h generalizing c with
  | nil => exact .nil
  | @cons s o lead out hs h ih =>
    cases hc with
    | @cons x _ c _ hx hc =>
      refine within_cons.mpr ⟨?_, ih hc⟩
      change (if s = 1 then 0 else x) < s.toNat
      split_ifs with h1
      · rw [h1]
        exact Nat.one_pos
      · rwa [hs.resolve_left h1]

theorem Within.drop {index shape : List ℕ} (h : Within index shape) (k : ℕ) : Within (index.drop k) (shape.drop k) :=
  List.forall₂_drop k h

/-- The coordinates of an operand are inside it. -/
theorem Spreads.within (h : Spreads lead out) (hc : Within c (extents out)) :
    Within (leadCoords lead c) (extents lead) := by
  have hdrop := Within.drop hc (out.length - lead.length)
  rw [extents, ← List.map_drop] at hdrop
  have hlen : c.length = out.length := hc.length_eq.trans (length_extents out)
  rw [leadCoords, hlen]
  exact within_zipWith h hdrop

theorem within_of_forall₂ {c' : List ℕ} (h : List.Forall₂ (fun s o => s = 1 ∨ s = o) lead out) (hpos : 0 ∉ out)
    (hc : Within c' (extents lead)) : Within c' (extents out) ∧
      List.zipWith (fun s c => if s = 1 then 0 else c) lead c' = c' := by
  induction h generalizing c' with
  | nil =>
    cases hc
    exact ⟨.nil, rfl⟩
  | @cons s o lead out hs h ih =>
    cases hc with
    | @cons x _ c' _ hx hc =>
      rw [List.mem_cons, not_or] at hpos
      obtain ⟨hw, hz⟩ := ih hpos.2 hc
      rw [List.zipWith_cons_cons, hz]
      rcases hs with rfl | rfl
      · obtain rfl := Nat.lt_one_iff.mp hx
        exact ⟨within_cons.mpr ⟨toNat_pos hpos.1, hw⟩, rfl⟩
      · refine ⟨within_cons.mpr ⟨hx, hw⟩, ?_⟩
        split_ifs with h1
        · rw [h1] at hx
          rw [Nat.lt_one_iff.mp hx]
        · rfl

theorem within_replicate {l : List UInt64} (h : 0 ∉ l) : Within (List.replicate l.length 0) (extents l) := by
  induction l with
  | nil => exact .nil
  | cons s l ih =>
    rw [List.mem_cons, not_or] at h
    exact within_cons.mpr ⟨toNat_pos h.1, ih h.2⟩

/-- Each matrix of an operand is used. -/
theorem Spreads.exists_coords (h : Spreads lead out) (hpos : 0 ∉ out) {c' : List ℕ}
    (hc : Within c' (extents lead)) : ∃ c, Within c (extents out) ∧ leadCoords lead c = c' := by
  obtain ⟨hw, hz⟩ := within_of_forall₂ h (fun h0 => hpos (List.mem_of_mem_drop h0)) hc
  have hfront := within_replicate (l := out.take (out.length - lead.length)) fun h0 => hpos (List.mem_of_mem_take h0)
  rw [List.length_take, min_eq_left (Nat.sub_le _ _)] at hfront
  refine ⟨List.replicate (out.length - lead.length) 0 ++ c', ?_, ?_⟩
  · rw [← extents_take_append_drop out (out.length - lead.length)]
    exact List.rel_append hfront hw
  · have hlen : c'.length = lead.length := hc.length_eq.trans (length_extents lead)
    rw [leadCoords, List.length_append, List.length_replicate, hlen, Nat.add_sub_cancel,
      List.drop_left' List.length_replicate, hz]

theorem prod_le_of_forall₂ (h : List.Forall₂ (fun s o => s = 1 ∨ s = o) lead out) (hpos : 0 ∉ out) :
    (extents lead).prod ≤ (extents out).prod := by
  induction h with
  | nil => exact le_rfl
  | @cons s o lead out hs h ih =>
    rw [List.mem_cons, not_or] at hpos
    rw [extents_cons, extents_cons, List.prod_cons, List.prod_cons]
    refine Nat.mul_le_mul ?_ (ih hpos.2)
    rcases hs with rfl | rfl
    · exact toNat_pos hpos.1
    · exact le_rfl

theorem prod_pos {l : List UInt64} (h : 0 ∉ l) : 0 < (extents l).prod :=
  List.prod_pos fun _ hx => by
    obtain ⟨s, hs, rfl⟩ := List.mem_map.mp hx
    exact toNat_pos (ne_of_mem_of_not_mem hs h).symm

theorem Spreads.prod_le (h : Spreads lead out) (hpos : 0 ∉ out) : (extents lead).prod ≤ (extents out).prod := by
  have hdrop := prod_le_of_forall₂ h fun h0 => hpos (List.mem_of_mem_drop h0)
  have hfront := prod_pos (l := out.take (out.length - lead.length)) fun h0 => hpos (List.mem_of_mem_take h0)
  rw [← extents_take_append_drop out (out.length - lead.length), List.prod_append]
  exact hdrop.trans (Nat.le_mul_of_pos_left _ hfront)

/-- The offset of a matrix counts matrices of the operand. -/
theorem Spreads.leadOffset_lt (h : Spreads lead out) (hc : Within c (extents out)) :
    leadOffset lead c < (extents lead).prod :=
  dot_stridesFrom_lt (h.within hc)

end Extents

/-! ## Places -/

section Places

variable {s : Sizes} {c : List ℕ}

/-- What the sizes say about the extents of the operands. -/
structure Sizes.Describes (s : Sizes) (aShape bShape : List UInt64) : Prop where
  left : extents aShape = extents (leadOf aShape) ++ (if s.a1 then [s.aK.toNat] else [s.aM.toNat, s.aK.toNat])
  right : extents bShape = extents (leadOf bShape) ++ (if s.b1 then [s.aK.toNat] else [s.aK.toNat, s.bN.toNat])
  one_left : s.a1 = true → s.aM = 1
  one_right : s.b1 = true → s.bN = 1

theorem eq_leadOf_append {shape : List UInt64} (h : 2 ≤ shape.length) :
    shape = leadOf shape ++ [shape.getD (shape.length - 2) 0, shape.getD (shape.length - 1) 0] := by
  obtain rfl | ⟨front, y, rfl⟩ := List.eq_nil_or_concat' shape
  · cases h
  · obtain rfl | ⟨front, x, rfl⟩ := List.eq_nil_or_concat' front
    · simp at h
    · simp [leadOf]

theorem eq_singleton {shape : List UInt64} (h : shape.length = 1) : shape = leadOf shape ++ [shape.getD 0 0] := by
  obtain ⟨x, rfl⟩ := List.length_eq_one_iff.mp h
  rfl

theorem describes_of_sizes {aShape bShape : List UInt64} (h : sizes aShape bShape = some s)
    (ha : 1 ≤ aShape.length) (hb : 1 ≤ bShape.length) : s.Describes aShape bShape := by
  simp only [sizes, Option.ite_none_left_eq_some, Option.some.injEq, not_not] at h
  obtain ⟨-, hinner, rfl⟩ := h
  refine ⟨?_, ?_, fun h1 => if_pos h1, fun h1 => if_pos h1⟩
  · by_cases h1 : aShape.length = 1
    · conv_lhs => rw [eq_singleton h1]
      simp [h1, extents]
    · conv_lhs => rw [eq_leadOf_append (show 2 ≤ aShape.length by omega)]
      simp [h1, extents]
  · rw [hinner]
    by_cases h1 : bShape.length = 1
    · conv_lhs => rw [eq_singleton h1]
      simp [h1, extents]
    · conv_lhs => rw [eq_leadOf_append (show 2 ≤ bShape.length by omega)]
      simp [h1, extents]

variable {aShape bShape lead : List UInt64} {i j l : ℕ} (D : s.Describes aShape bShape)
include D

theorem Sizes.Describes.prod_left :
    (extents aShape).prod = (extents (leadOf aShape)).prod * (s.aM.toNat * s.aK.toNat) := by
  rw [D.left, List.prod_append]
  split_ifs with h1
  · simp [D.one_left h1]
  · simp

theorem Sizes.Describes.prod_right :
    (extents bShape).prod = (extents (leadOf bShape)).prod * (s.aK.toNat * s.bN.toNat) := by
  rw [D.right, List.prod_append]
  split_ifs with h1
  · simp [D.one_right h1]
  · simp

theorem Sizes.Describes.prod_out :
    (extents (lead ++ s.outDims)).prod = (extents lead).prod * (s.aM.toNat * s.bN.toNat) := by
  rw [extents, List.map_append, List.prod_append, Sizes.outDims]
  congr 1
  split_ifs with h1 h2 h2
  · simp [D.one_left h1, D.one_right h2]
  · simp [D.one_left h1]
  · simp [D.one_right h2]
  · simp

theorem Sizes.Describes.place_left (hc : Within c (extents (leadOf aShape))) (hi : i < s.aM.toNat) :
    dot (c ++ s.left i l) (packedStrides (extents aShape)) =
      dot c (packedStrides (extents (leadOf aShape))) * (s.aM.toNat * s.aK.toNat) + i * s.aK.toNat + l := by
  rw [D.left, dot_packed_append hc, Sizes.left]
  split_ifs with h1
  · have hone := D.one_left h1
    rw [hone] at hi ⊢
    obtain rfl := Nat.lt_one_iff.mp hi
    simp [packedStrides_cons]
  · simp [packedStrides_cons, add_assoc]

theorem Sizes.Describes.place_right (hc : Within c (extents (leadOf bShape))) (hj : j < s.bN.toNat) :
    dot (c ++ s.right l j) (packedStrides (extents bShape)) =
      dot c (packedStrides (extents (leadOf bShape))) * (s.aK.toNat * s.bN.toNat) + l * s.bN.toNat + j := by
  rw [D.right, dot_packed_append hc, Sizes.right]
  split_ifs with h1
  · have hone := D.one_right h1
    rw [hone] at hj ⊢
    obtain rfl := Nat.lt_one_iff.mp hj
    simp [packedStrides_cons]
  · simp [packedStrides_cons, add_assoc]

theorem Sizes.Describes.place_out (hc : Within c (extents lead)) (hi : i < s.aM.toNat) (hj : j < s.bN.toNat) :
    dot (c ++ s.out i j) (packedStrides (extents (lead ++ s.outDims))) =
      dot c (packedStrides (extents lead)) * (s.aM.toNat * s.bN.toNat) + i * s.bN.toNat + j := by
  rw [extents, List.map_append, ← extents, dot_packed_append hc, Sizes.out, Sizes.outDims]
  split_ifs with h1 h2 h2
  · rw [D.one_left h1] at hi ⊢
    rw [D.one_right h2] at hj ⊢
    obtain rfl := Nat.lt_one_iff.mp hi
    obtain rfl := Nat.lt_one_iff.mp hj
    simp
  · rw [D.one_left h1] at hi ⊢
    obtain rfl := Nat.lt_one_iff.mp hi
    simp [packedStrides_cons]
  · rw [D.one_right h2] at hj ⊢
    obtain rfl := Nat.lt_one_iff.mp hj
    simp [packedStrides_cons]
  · simp [packedStrides_cons, add_assoc]

end Places

end SneppxAlg.Matmul
