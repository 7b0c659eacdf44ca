import Mathlib

/-!
# Sums over the paths of a graph

The edges of a graph carry additive maps between the values of their ends. A path from a fixed node
takes a value there to a value at its end, and `pathSum` adds up the values of all paths that end in a
node.

When a rank increases along every edge, only finitely many paths end in a node, and the sums satisfy
one equation for each node: the path sum of a node is its start value plus what its predecessors send
(`pathSum_eq`).
-/

namespace SneppxAlg.Lib.PathSum

variable {V : Type} {M : V → Type} [∀ v, AddCommMonoid (M v)]

/-- The edges from one node to another, and the map of each. -/
structure Edges (V : Type) (M : V → Type) [∀ v, AddCommMonoid (M v)] where
  edge : V → V → Type
  finite : ∀ u v, Finite (edge u v)
  map : ∀ {u v}, edge u v → M u →+ M v

/-- The paths from `s`. -/
inductive Path (E : Edges V M) (s : V) : V → Type
  | nil : Path E s s
  | snoc {u v : V} (p : Path E s u) (e : E.edge u v) : Path E s v

def Path.value {E : Edges V M} {s : V} (x : M s) : {v : V} → Path E s v → M v
  | _, .nil => x
  | _, .snoc p e => E.map e (p.value x)

/-- The sum of the values of all paths from `s` to `v`. -/
noncomputable def pathSum (E : Edges V M) (s : V) (x : M s) (v : V) : M v :=
  finsum fun p : Path E s v => p.value x

/-- A path is empty or has a last edge, which leaves one of the nodes `T`. -/
def pathEquiv (E : Edges V M) (s v : V) (T : Finset V) (hT : ∀ {u v}, E.edge u v → u ∈ T) :
    Path E s v ≃ PLift (s = v) ⊕ (Σ u : T, Path E s u × E.edge u v) where
  toFun
    | .nil => .inl ⟨rfl⟩
    | .snoc (u := u) p e => .inr ⟨⟨u, hT e⟩, p, e⟩
  invFun
    | .inl ⟨h⟩ => h ▸ .nil
    | .inr ⟨_, p, e⟩ => .snoc p e
  left_inv p := by
    cases p with
    | nil => rfl
    | snoc p e => rfl
  right_inv x := by
    rcases x with ⟨⟨rfl⟩⟩ | ⟨u, p, e⟩
    · rfl
    · rfl

section Ranked

variable (E : Edges V M) (s : V) (T : Finset V) (hT : ∀ {u v}, E.edge u v → u ∈ T) (rank : V → ℕ)
  (hrank : ∀ {u v}, E.edge u v → rank u < rank v)

include hT hrank

/-- Finitely many paths end in a node. -/
theorem finite_path (v : V) : Finite (Path E s v) := by
  induction hr : rank v using Nat.strong_induction_on generalizing v with
  | _ n ih =>
    have hfin : ∀ u : T, Finite (Path E s u × E.edge u v) := by
      intro u
      have := E.finite u v
      by_cases he : Nonempty (E.edge u v)
      · have := ih (rank u) (hr ▸ hrank he.some) u rfl
        infer_instance
      · have := not_nonempty_iff.1 he
        infer_instance
    exact Finite.of_equiv _ (pathEquiv E s v T hT).symm

/-- What the predecessors send is the sum over the paths with a last edge. -/
theorem sum_snoc (x : M s) (v : V) :
    (finsum fun q : Σ u : T, Path E s u × E.edge u v => E.map q.2.2 (q.2.1.value x))
      = ∑ u ∈ T, finsum fun e : E.edge u v => E.map e (pathSum E s x u) := by
  classical
  have hpaths : ∀ u, Finite (Path E s u) := finite_path E s T hT rank hrank
  have hedges : ∀ u, Finite (E.edge u v) := fun u => E.finite u v
  let _ : ∀ u, Fintype (Path E s u) := fun u => Fintype.ofFinite _
  let _ : ∀ u, Fintype (E.edge u v) := fun u => Fintype.ofFinite _
  rw [← Finset.sum_coe_sort T]
  calc (finsum fun q : Σ u : T, Path E s u × E.edge u v => E.map q.2.2 (q.2.1.value x))
      = ∑ u : T, ∑ q : Path E s u × E.edge u v, E.map q.2 (q.1.value x) := by
        rw [finsum_eq_sum_of_fintype, Fintype.sum_sigma]
    _ = ∑ u : T, ∑ e : E.edge u v, E.map e (pathSum E s x u) := by
        refine Fintype.sum_congr _ _ fun u => ?_
        rw [Fintype.sum_prod_type_right]
        refine Fintype.sum_congr _ _ fun e => ?_
        rw [pathSum, finsum_eq_sum_of_fintype, map_sum]
    _ = ∑ u : T, finsum fun e : E.edge u v => E.map e (pathSum E s x u) :=
        Fintype.sum_congr _ _ fun u => (finsum_eq_sum_of_fintype _).symm

/-- The path sum of a node: the start value, and what the predecessors send. -/
theorem pathSum_eq [DecidableEq V] (x : M s) (v : V) :
    pathSum E s x v
      = Pi.single s x v + ∑ u ∈ T, finsum fun e : E.edge u v => E.map e (pathSum E s x u) := by
  have hfin := finite_path E s T hT rank hrank v
  have hfin' : Finite (PLift (s = v) ⊕ Σ u : T, Path E s u × E.edge u v) :=
    Finite.of_equiv _ (pathEquiv E s v T hT)
  have hsigma : Finite (Σ u : T, Path E s u × E.edge u v) :=
    Finite.of_injective (fun q => (Sum.inr q : PLift (s = v) ⊕ Σ u : T, Path E s u × E.edge u v))
      Sum.inr_injective
  let _ := Fintype.ofFinite (Path E s v)
  let _ := Fintype.ofFinite (Σ u : T, Path E s u × E.edge u v)
  have hnil : ∑ h : PLift (s = v), ((pathEquiv E s v T hT).symm (.inl h)).value x
      = Pi.single s x v := by
    by_cases hsv : s = v
    · subst hsv
      rw [Fintype.sum_subsingleton _ ⟨rfl⟩, Pi.single_eq_same]
      rfl
    · have : IsEmpty (PLift (s = v)) := ⟨fun h => hsv h.down⟩
      rw [Fintype.sum_empty, Pi.single_eq_of_ne (Ne.symm hsv)]
  calc pathSum E s x v = ∑ p : Path E s v, p.value x := finsum_eq_sum_of_fintype _
    _ = ∑ y, ((pathEquiv E s v T hT).symm y).value x := (Equiv.sum_comp _ _).symm
    _ = _ := by
        rw [Fintype.sum_sum_type, hnil, ← sum_snoc E s T hT rank hrank x v, finsum_eq_sum_of_fintype]
        rfl

end Ranked

end SneppxAlg.Lib.PathSum
