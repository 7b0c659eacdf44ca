import Mathlib.Data.Int.ModEq
import Mathlib.Data.List.GetD
import Mathlib.Data.List.TakeWhile
import Mathlib.Tactic.Positivity
import Mathlib.Tactic.Ring
import SneppxAlg.Lib.BreadthFirst
import SneppxAlg.Lib.Orbit

/-!
# Routes in a topology

The constructors of `net/topology.c` and `SNEPPX_topology_compute_route`. A ring is walked both ways, and the
shorter walk is the route. In a tree the lists of ancestors go from a rank up to the root, but the route is
read off them from their far ends: it starts at the root, or where the list was cut, and not at the source.
In a graph the route is the two ends, whether or not there is an edge. A node has room for 16 children.

So a route is right only from a rank to itself, in a ring, or along an edge of a graph, and the children of a
tree are right only if none of its nodes has more than 16 of them (`route_correct_iff`).

Ranks are integers since -1 stands for none. A constructor has no result here where `int` overflows.
-/

namespace SneppxAlg.TopologyRoute

open Lib.BreadthFirst Lib.Orbit

/-! ## The constructors -/

inductive TopologyType where
  | ring | tree | graph
  deriving DecidableEq

/-- `SNEPPXTopologyNode` without the host name; `children` has the first `num_children` entries. -/
structure TopologyNode where
  rank : ℤ
  prevRank : ℤ
  nextRank : ℤ
  parentRank : ℤ
  children : List ℤ
  dataPort : ℤ
  deriving DecidableEq, Inhabited

structure Topology where
  type : TopologyType
  worldSize : ℤ
  nodes : List TopologyNode
  deriving DecidableEq

def intMax : ℤ := 2 ^ 31 - 1

/-- The values of `i` in `for (int i = 0; i < n; i++)`. -/
def range (n : ℤ) : List ℤ := (List.range n.toNat).map (↑)

/-- An entry of the array of children, if there is room. -/
def addChild (children : List ℤ) (child : ℤ) : List ℤ :=
  if children.length < 16 then children ++ [child] else children

def ringNode (worldSize i : ℤ) : TopologyNode where
  rank := i
  prevRank := (i - 1 + worldSize).tmod worldSize
  nextRank := (i + 1).tmod worldSize
  parentRank := -1
  children := []
  dataPort := 9876 + i

/-- `SNEPPX_topology_create_ring`. -/
def createRing (worldSize : ℤ) : Option Topology :=
  if worldSize < 1 then none
  else if intMax < 2 * worldSize - 2 ∨ intMax < 9876 + (worldSize - 1) then none
  else some { type := .ring, worldSize, nodes := (range worldSize).map (ringNode worldSize) }

def treeChildren (worldSize branchingFactor i : ℤ) : List ℤ :=
  (range branchingFactor).foldl (fun children j =>
    if i * branchingFactor + 1 + j < worldSize then addChild children (i * branchingFactor + 1 + j)
    else children) []

def treeNode (worldSize branchingFactor i : ℤ) : TopologyNode where
  rank := i
  prevRank := -1
  nextRank := -1
  parentRank := if i = 0 then -1 else (i - 1).tdiv branchingFactor
  children := treeChildren worldSize branchingFactor i
  dataPort := 9876 + i

/-- `SNEPPX_topology_create_tree`. -/
def createTree (worldSize branchingFactor : ℤ) : Option Topology :=
  if worldSize < 1 ∨ branchingFactor < 1 then none
  else if intMax < worldSize * branchingFactor ∨ intMax < 9876 + (worldSize - 1) then none
  else some { type := .tree, worldSize, nodes := (range worldSize).map (treeNode worldSize branchingFactor) }

/-- `adjacency_matrix[i * world_size + j]`. -/
def entry (worldSize : ℤ) (adjacencyMatrix : List ℤ) (i j : ℤ) : ℤ :=
  adjacencyMatrix.getD (i * worldSize + j).toNat 0

def graphNode (worldSize : ℤ) (adjacencyMatrix : List ℤ) (i : ℤ) : TopologyNode where
  rank := i
  prevRank := -1
  nextRank := -1
  parentRank := -1
  children := (range worldSize).foldl (fun children j =>
    if entry worldSize adjacencyMatrix i j ≠ 0 then addChild children j else children) []
  dataPort := 9876 + i

/-- `SNEPPX_topology_create_graph`; no result either if the matrix has too few entries to be read. -/
def createGraph (worldSize : ℤ) (adjacencyMatrix : Option (List ℤ)) : Option Topology :=
  match adjacencyMatrix with
  | none => none
  | some m =>
    if worldSize < 1 then none
    else if intMax < worldSize * worldSize - 1 ∨ intMax < 9876 + (worldSize - 1) then none
    else if m.length < worldSize * worldSize then none
    else some { type := .graph, worldSize, nodes := (range worldSize).map (graphNode worldSize m) }

/-! ## Routes -/

namespace Topology

variable (topo : Topology)

/-- `topo->nodes[rank]`. -/
def node (rank : ℤ) : TopologyNode := topo.nodes.getD rank.toNat default

def nextRank (rank : ℤ) : ℤ := (topo.node rank).nextRank
def prevRank (rank : ℤ) : ℤ := (topo.node rank).prevRank
def parentRank (rank : ℤ) : ℤ := (topo.node rank).parentRank

/-- `find_route_ring`: the loops get as many steps as there are ranks; `alloc` says whether `malloc` succeeds. -/
def findRouteRing (alloc : Bool) (src dst : ℤ) : Option (List ℤ) := do
  let fwd ← stepsTo topo.nextRank dst topo.worldSize.toNat src
  let rev ← stepsTo topo.prevRank dst topo.worldSize.toNat src
  if !alloc then none
  else if fwd ≤ rev then some (List.iterate topo.nextRank src (fwd + 1))
  else some (List.iterate topo.prevRank src (rev + 1))

/-- A rank and its ancestors, as many as there is room for. -/
def ancestors : (room : ℕ) → ℤ → List ℤ
  | 0, _ => []
  | room + 1, cur => if 0 ≤ cur then cur :: ancestors room (topo.parentRank cur) else []

/-- `find_route_tree`. -/
def findRouteTree (alloc : Bool) (src dst : ℤ) : Option (List ℤ) :=
  let srcAnc := topo.ancestors 1024 src
  let dstAnc := topo.ancestors 1024 dst
  match srcAnc.find? fun rank => dstAnc.contains rank with
  | none => some []
  | some lca =>
    if !alloc then none
    else some (srcAnc.reverse.takeWhile (· ≠ lca) ++ lca :: (dstAnc.reverse.takeWhile (· ≠ lca)).reverse)

/-- `SNEPPX_topology_compute_route`, `none` if it returns -1. -/
def computeRoute (alloc : Bool) (src dst : ℤ) : Option (List ℤ) :=
  if src < 0 ∨ topo.worldSize ≤ src ∨ dst < 0 ∨ topo.worldSize ≤ dst then none
  else if src = dst then (if alloc then some [src] else none)
  else match topo.type with
    | .ring => topo.findRouteRing alloc src dst
    | .tree => topo.findRouteTree alloc src dst
    | .graph => if alloc then some [src, dst] else none

end Topology

/-! ## What routes and children are meant to be -/

/-- The arguments of a constructor. -/
inductive Shape where
  | ring (worldSize : ℤ)
  | tree (worldSize branchingFactor : ℤ)
  | graph (worldSize : ℤ) (adjacencyMatrix : List ℤ)

namespace Shape

def worldSize : Shape → ℤ
  | ring w | tree w _ | graph w _ => w

def create : Shape → Option Topology
  | ring w => createRing w
  | tree w b => createTree w b
  | graph w m => createGraph w (some m)

/-- In the complete tree with branching factor `b`. -/
def IsParent (b i j : ℤ) : Prop := 0 < j ∧ i = (j - 1) / b

/-- There is a link from `i` to `j`. -/
def Linked : Shape → ℤ → ℤ → Prop
  | ring w, i, j => j = (i + 1) % w ∨ j = (i - 1) % w
  | tree _ b, i, j => IsParent b i j ∨ IsParent b j i
  | graph w m, i, j => entry w m i j ≠ 0

/-- The ranks along a way from `src` to `dst`, none of them twice. -/
structure IsRoute (shape : Shape) (src dst : ℤ) (route : List ℤ) : Prop where
  path : IsPath shape.Linked src dst route
  nodup : route.Nodup

/-- A route is found if there is memory, and what is returned is one. -/
structure RouteCorrect (shape : Shape) (topo : Topology) (src dst : ℤ) : Prop where
  found : ∃ route, topo.computeRoute true src dst = some route
  isRoute : ∀ alloc route, topo.computeRoute alloc src dst = some route → shape.IsRoute src dst route

def IsRank (shape : Shape) (i : ℤ) : Prop := 0 ≤ i ∧ i < shape.worldSize

/-- In a tree the children of a rank are those that have it as their parent. -/
def ChildrenCorrect (shape : Shape) (topo : Topology) : Prop :=
  topo.type = .tree → ∀ i j, shape.IsRank i → shape.IsRank j →
    (j ∈ (topo.node i).children ↔ topo.parentRank j = i)

/-- A ring, or a graph with an edge that makes the direct way a route. -/
def DirectOrRing : Shape → ℤ → ℤ → Prop
  | ring _, _, _ => True
  | tree _ _, _, _ => False
  | graph w m, src, dst => entry w m src dst ≠ 0

/-- No node of the tree has more than 16 children. -/
def Narrow : Shape → Prop
  | tree w b => b ≤ 16 ∨ w ≤ 17
  | _ => True

end Shape

/-! ## Reading the nodes -/

theorem mem_range {n i : ℤ} : i ∈ range n ↔ 0 ≤ i ∧ i < n := by
  simp only [range, List.mem_map, List.mem_range]
  constructor
  · rintro ⟨k, hk, rfl⟩
    omega
  · intro ⟨h0, hn⟩
    exact ⟨i.toNat, by omega, by omega⟩

theorem nodup_range (n : ℤ) : (range n).Nodup := List.nodup_range.map Nat.cast_injective

/-- What a constructor has built: a node for every rank. -/
structure Built (topo : Topology) (type : TopologyType) (w : ℤ) (g : ℤ → TopologyNode) : Prop where
  pos : 1 ≤ w
  type_eq : topo.type = type
  worldSize_eq : topo.worldSize = w
  node_eq : ∀ i, 0 ≤ i → i < w → topo.node i = g i

theorem built_map (type : TopologyType) {w : ℤ} (g : ℤ → TopologyNode) (hw : 1 ≤ w) :
    Built { type, worldSize := w, nodes := (range w).map g } type w g where
  pos := hw
  type_eq := rfl
  worldSize_eq := rfl
  node_eq i h0 hi := by
    rw [Topology.node, List.getD_eq_getElem?_getD, range, List.getElem?_map, List.getElem?_map,
      List.getElem?_range (by omega), Option.map_some, Option.map_some, Option.getD_some, Int.toNat_of_nonneg h0]

section

variable {w b : ℤ} {m : List ℤ} {topo : Topology}

theorem createRing_built (h : createRing w = some topo) : Built topo .ring w (ringNode w) := by
  unfold createRing at h
  split_ifs at h with hw
  exact Option.some.inj h ▸ built_map .ring _ (by omega)

theorem createTree_built (h : createTree w b = some topo) : 1 ≤ b ∧ Built topo .tree w (treeNode w b) := by
  unfold createTree at h
  split_ifs at h with hw
  exact ⟨by omega, Option.some.inj h ▸ built_map .tree _ (by omega)⟩

theorem createGraph_built (h : createGraph w (some m) = some topo) : Built topo .graph w (graphNode w m) := by
  unfold createGraph at h
  dsimp only at h
  split_ifs at h with hw
  exact Option.some.inj h ▸ built_map .graph _ (by omega)

end

namespace Shape

variable {shape : Shape} {topo : Topology} {w src dst : ℤ}

theorem isRoute_self : shape.IsRoute src src [src] := ⟨isPath_singleton src, List.nodup_singleton src⟩

/-- Where only the memory can be missing, all depends on the one route. -/
theorem routeCorrect_iff_isRoute {route : List ℤ}
    (hroute : ∀ alloc, topo.computeRoute alloc src dst = if alloc then some route else none) :
    shape.RouteCorrect topo src dst ↔ shape.IsRoute src dst route := by
  refine ⟨fun h => h.isRoute true route (hroute true), fun h => ⟨⟨route, hroute true⟩, fun alloc r hr => ?_⟩⟩
  rw [hroute] at hr
  split_ifs at hr
  exact Option.some.inj hr ▸ h

/-- The route of a rank to itself. -/
theorem routeCorrect_self (h : 0 ≤ src ∧ src < topo.worldSize) : shape.RouteCorrect topo src src :=
  (routeCorrect_iff_isRoute fun alloc => by
    rw [Topology.computeRoute, if_neg (by omega), if_pos rfl]).mpr isRoute_self

theorem computeRoute_of_ne (alloc : Bool) (hsrc : 0 ≤ src ∧ src < topo.worldSize)
    (hdst : 0 ≤ dst ∧ dst < topo.worldSize) (hne : src ≠ dst) :
    topo.computeRoute alloc src dst = match topo.type with
      | .ring => topo.findRouteRing alloc src dst
      | .tree => topo.findRouteTree alloc src dst
      | .graph => if alloc then some [src, dst] else none := by
  rw [Topology.computeRoute, if_neg (by omega), if_neg hne]

/-! ## Rings -/

section Ring

variable {f : ℤ → ℤ} {d : ℤ} {n : ℕ}

/-- Walking `d` ranks on in each step. -/
theorem iterate_shift (hf : ∀ i, 0 ≤ i → i < w → f i = (i + d) % w) (hsrc : 0 ≤ src ∧ src < w) (n : ℕ) :
    f^[n] src = (src + n * d) % w := by
  induction n with
  | zero => rw [Function.iterate_zero_apply, Nat.cast_zero, zero_mul, add_zero, Int.emod_eq_of_lt hsrc.1 hsrc.2]
  | succ n ih =>
    have hw : 0 < w := by omega
    rw [Function.iterate_succ_apply', ih, hf _ (Int.emod_nonneg _ hw.ne') (Int.emod_lt_of_pos _ hw),
      Int.emod_add_emod]
    congr 1
    push_cast
    ring

theorem exists_stepsTo_shift (hf : ∀ i, 0 ≤ i → i < w → f i = (i + d) % w) (hd : d * d = 1)
    (hsrc : 0 ≤ src ∧ src < w) (hdst : 0 ≤ dst ∧ dst < w) : ∃ n, stepsTo f dst w.toNat src = some n := by
  have hw : 0 < w := by omega
  have hn := Int.emod_nonneg ((dst - src) * d) hw.ne'
  have hlt := Int.emod_lt_of_pos ((dst - src) * d) hw
  refine exists_stepsTo (n := (((dst - src) * d) % w).toNat) (by omega) ?_
  rw [iterate_shift hf hsrc, Int.toNat_of_nonneg hn]
  have hmod : src + ((dst - src) * d % w) * d ≡ src + (dst - src) * d * d [ZMOD w] :=
    ((Int.mod_modEq _ _).mul_right d).add_left src
  rw [hmod, mul_assoc, hd, mul_one, add_sub_cancel, Int.emod_eq_of_lt hdst.1 hdst.2]

/-- The ranks on the way to the destination, around the ring in steps of `d`. -/
theorem isRoute_iterate (hf : ∀ i, 0 ≤ i → i < w → f i = (i + d) % w) (hd : d = 1 ∨ d = -1)
    (hsrc : 0 ≤ src ∧ src < w) {fuel : ℕ} (hn : stepsTo f dst fuel src = some n) :
    (ring w).IsRoute src dst (List.iterate f src (n + 1)) := by
  obtain ⟨hreach, hleast⟩ := stepsTo_spec hn
  have hw : 0 < w := by omega
  refine ⟨⟨?_, head?_iterate f src n, by rw [getLast?_iterate, hreach]⟩, nodup_iterate (hreach ▸ hleast)⟩
  refine (isChain_iterate f src (n + 1)).imp_of_mem_imp fun a b ha _ hab => ?_
  obtain ⟨m, -, rfl⟩ := List.mem_iterate.mp ha
  rw [iterate_shift hf hsrc, hf _ (Int.emod_nonneg _ hw.ne') (Int.emod_lt_of_pos _ hw)] at hab
  rw [iterate_shift hf hsrc]
  rcases hd with rfl | rfl
  · exact .inl hab
  · exact .inr hab

theorem ring_routeCorrect (h : Built topo .ring w (ringNode w)) (hsrc : 0 ≤ src ∧ src < w)
    (hdst : 0 ≤ dst ∧ dst < w) (hne : src ≠ dst) : (ring w).RouteCorrect topo src dst := by
  have hnext : ∀ i, 0 ≤ i → i < w → topo.nextRank i = (i + 1) % w := fun i h0 hi => by
    rw [Topology.nextRank, h.node_eq i h0 hi]
    exact Int.tmod_eq_emod_of_nonneg (by omega)
  have hprev : ∀ i, 0 ≤ i → i < w → topo.prevRank i = (i + -1) % w := fun i h0 hi => by
    rw [Topology.prevRank, h.node_eq i h0 hi, ← Int.add_emod_right]
    exact Int.tmod_eq_emod_of_nonneg (by omega)
  obtain ⟨fwd, hfwd⟩ := exists_stepsTo_shift hnext (by norm_num) hsrc hdst
  obtain ⟨rev, hrev⟩ := exists_stepsTo_shift hprev (by norm_num) hsrc hdst
  have hroute : ∀ alloc, topo.computeRoute alloc src dst =
      if alloc then some (if fwd ≤ rev then List.iterate topo.nextRank src (fwd + 1)
        else List.iterate topo.prevRank src (rev + 1)) else none := fun alloc => by
    rw [computeRoute_of_ne alloc (h.worldSize_eq ▸ hsrc) (h.worldSize_eq ▸ hdst) hne, h.type_eq]
    dsimp only
    rw [Topology.findRouteRing, h.worldSize_eq, hfwd, hrev, apply_ite some]
    cases alloc <;> rfl
  rw [routeCorrect_iff_isRoute hroute]
  split_ifs
  · exact isRoute_iterate hnext (.inl rfl) hsrc hfwd
  · exact isRoute_iterate hprev (.inr rfl) hsrc hrev

end Ring

/-! ## Graphs -/

theorem graph_routeCorrect_iff {m : List ℤ} (h : Built topo .graph w (graphNode w m))
    (hsrc : 0 ≤ src ∧ src < w) (hdst : 0 ≤ dst ∧ dst < w) (hne : src ≠ dst) :
    (graph w m).RouteCorrect topo src dst ↔ entry w m src dst ≠ 0 := by
  have hroute : ∀ alloc, topo.computeRoute alloc src dst = if alloc then some [src, dst] else none :=
    fun alloc => by
      rw [computeRoute_of_ne alloc (h.worldSize_eq ▸ hsrc) (h.worldSize_eq ▸ hdst) hne, h.type_eq]
  rw [routeCorrect_iff_isRoute hroute]
  constructor
  · intro hr
    exact (List.isChain_cons_cons.mp hr.path.1).1
  · intro hedge
    exact ⟨⟨List.isChain_cons_cons.mpr ⟨hedge, List.isChain_singleton dst⟩, rfl, rfl⟩, by simpa using hne⟩

/-! ## Trees -/

section Tree

variable {b : ℤ}

theorem head?_takeWhile_append {l : List ℤ} (hl : l ≠ []) (x : ℤ) (r : List ℤ) :
    (l.takeWhile (· ≠ x) ++ x :: r).head? = l.head? := by
  cases l with
  | nil => exact absurd rfl hl
  | cons y l =>
    rw [List.takeWhile_cons]
    by_cases hy : y = x
    · subst hy
      simp
    · simp [hy]

section Built

variable (h : Built topo .tree w (treeNode w b))

include h

theorem parentRank_tree {i : ℤ} (hi : 0 < i) (hlt : i < w) :
    topo.parentRank i = (i - 1) / b := by
  rw [Topology.parentRank, h.node_eq i hi.le hlt, treeNode, if_neg hi.ne',
    Int.tdiv_eq_ediv_of_nonneg (by omega)]

theorem parentRank_root : topo.parentRank 0 = -1 := by
  rw [Topology.parentRank, h.node_eq 0 le_rfl (by have := h.pos; omega), treeNode, if_pos rfl]

theorem parentRank_lt {i : ℤ} (h0 : 0 ≤ i) (hlt : i < w) :
    topo.parentRank i < i := by
  rcases h0.eq_or_lt with rfl | hi
  · rw [parentRank_root h]
    omega
  · rw [parentRank_tree h hi hlt]
    have := Int.ediv_le_self b (show 0 ≤ i - 1 by omega)
    omega

/-- Ranks fall towards the root. -/
theorem ancestors_sorted (room : ℕ) {cur : ℤ} (hcur : cur < w) :
    (∀ i ∈ topo.ancestors room cur, i ≤ cur) ∧ (topo.ancestors room cur).Pairwise (· > ·) := by
  induction room generalizing cur with
  | zero => exact ⟨by simp [Topology.ancestors], List.Pairwise.nil⟩
  | succ room ih =>
    rw [Topology.ancestors]
    split_ifs with h0
    · have hlt := parentRank_lt h h0 hcur
      obtain ⟨hle, hsorted⟩ := ih (hlt.trans hcur)
      refine ⟨?_, List.pairwise_cons.mpr ⟨fun i hi => (hle i hi).trans_lt hlt, hsorted⟩⟩
      rw [List.forall_mem_cons]
      exact ⟨le_rfl, fun i hi => (hle i hi).trans hlt.le⟩
    · exact ⟨by simp, List.Pairwise.nil⟩

/-- A list of ancestors that ends where it starts is that of the root. -/
theorem eq_root_of_getLast? (hb : 1 ≤ b) {room : ℕ} (hroom : 2 ≤ room)
    (hsrc : 0 ≤ src ∧ src < w) (hlast : (topo.ancestors room src).getLast? = some src) : src = 0 := by
  obtain ⟨room, rfl⟩ := Nat.exists_eq_add_of_le' hroom
  by_contra hne
  have hpos : 0 < src := by omega
  have hparent : 0 ≤ topo.parentRank src := by
    rw [parentRank_tree h hpos hsrc.2]
    exact Int.ediv_nonneg (by omega) (by omega)
  have hsorted := (ancestors_sorted h (room + 2) hsrc.2).2
  rw [Topology.ancestors, if_pos hsrc.1] at hlast hsorted
  have hmem : src ∈ topo.ancestors (room + 1) (topo.parentRank src) := by
    rw [List.getLast?_cons_of_ne_nil] at hlast
    · exact List.mem_of_getLast? hlast
    · rw [Topology.ancestors, if_pos hparent]
      exact List.cons_ne_nil _ _
  exact lt_irrefl src ((List.pairwise_cons.mp hsorted).1 src hmem)

/-- The route starts and ends at the far ends of the lists of ancestors. -/
theorem tree_not_routeCorrect (hb : 1 ≤ b) (hsrc : 0 ≤ src ∧ src < w)
    (hdst : 0 ≤ dst ∧ dst < w) (hne : src ≠ dst) : ¬(tree w b).RouteCorrect topo src dst := by
  intro hr
  obtain ⟨route, hroute⟩ := hr.found
  obtain ⟨⟨-, hhead, hlast⟩, -⟩ := hr.isRoute true route hroute
  rw [computeRoute_of_ne true (h.worldSize_eq ▸ hsrc) (h.worldSize_eq ▸ hdst) hne, h.type_eq] at hroute
  dsimp only [Topology.findRouteTree] at hroute
  split at hroute
  next hnone =>
    obtain rfl := Option.some.inj hroute
    exact absurd hhead (by simp)
  next lca hfind =>
    have hmem := List.mem_of_find?_eq_some hfind
    have hdmem : lca ∈ topo.ancestors 1024 dst := by
      simpa using List.find?_some hfind
    obtain rfl := Option.some.inj hroute
    have hsrc0 : src = 0 := by
      refine eq_root_of_getLast? h hb (Nat.le_add_left 2 1022) hsrc ?_
      rw [head?_takeWhile_append (by simpa using List.ne_nil_of_mem hmem), List.head?_reverse] at hhead
      exact hhead
    have hdst0 : dst = 0 := by
      refine eq_root_of_getLast? h hb (Nat.le_add_left 2 1022) hdst ?_
      rw [← List.head?_reverse, List.reverse_append, List.reverse_cons, List.reverse_reverse,
        List.append_assoc, List.singleton_append,
        head?_takeWhile_append (by simpa using List.ne_nil_of_mem hdmem), List.head?_reverse] at hlast
      exact hlast
    exact hne (hsrc0.trans hdst0.symm)

end Built

/-! ## Children -/

/-- The loop keeps the first children there is room for. -/
theorem foldl_addChild (p : ℤ → Prop) [DecidablePred p] (g : ℤ → ℤ) {children : List ℤ}
    (hroom : children.length ≤ 16) (l : List ℤ) :
    l.foldl (fun cs j => if p j then addChild cs (g j) else cs) children =
      children ++ ((l.filter p).map g).take (16 - children.length) := by
  induction l generalizing children with
  | nil => simp
  | cons j l ih =>
    rw [List.foldl_cons, List.filter_cons]
    by_cases hj : p j
    · rw [if_pos hj, if_pos (by simpa using hj), List.map_cons, addChild]
      split_ifs with hlt
      · rw [ih (by rw [List.length_append, List.length_singleton]; omega), List.append_assoc, List.singleton_append, List.length_append,
          List.length_singleton, show 16 - children.length = 16 - (children.length + 1) + 1 by omega,
          List.take_succ_cons]
      · rw [ih hroom, show 16 - children.length = 0 by omega, List.take_zero, List.take_zero]
    · rw [if_neg hj, if_neg (by simpa using hj), ih hroom]

theorem treeChildren_eq (w b i : ℤ) :
    treeChildren w b i = (((range b).filter fun j => i * b + 1 + j < w).map (i * b + 1 + ·)).take 16 := by
  rw [treeChildren, foldl_addChild (fun j => i * b + 1 + j < w) _ (by simp)]
  rfl

theorem mem_allChildren {i j : ℤ} (hb : 1 ≤ b) (hi : 0 ≤ i) :
    j ∈ ((range b).filter fun k => i * b + 1 + k < w).map (i * b + 1 + ·) ↔
      j < w ∧ 0 < j ∧ (j - 1) / b = i := by
  have hib : 0 ≤ i * b := mul_nonneg hi (by omega)
  rw [Int.ediv_eq_iff_of_pos (by omega)]
  simp only [List.mem_map, List.mem_filter, mem_range, decide_eq_true_eq]
  constructor
  · rintro ⟨k, ⟨⟨h0, hk⟩, hlt⟩, rfl⟩
    omega
  · intro h
    exact ⟨j - 1 - i * b, by omega, by omega⟩

theorem length_allChildren_le {i : ℤ} (hb : 1 ≤ b) (hi : 0 ≤ i) (hnarrow : (tree w b).Narrow) :
    ((range b).filter fun k => i * b + 1 + k < w).length ≤ 16 := by
  have hib : 0 ≤ i * b := mul_nonneg hi (by omega)
  have hlength : ∀ n : ℤ, (range n).length = n.toNat := fun n => by rw [range, List.length_map, List.length_range]
  rcases hnarrow with hb16 | hw17
  · have := List.length_filter_le (fun k => decide (i * b + 1 + k < w)) (range b)
    rw [hlength] at this
    omega
  · have hsub : ((range b).filter fun k => i * b + 1 + k < w) ⊆ range (w - 1) := by
      intro k hk
      simp only [List.mem_filter, mem_range, decide_eq_true_eq] at hk
      exact mem_range.mpr (by omega)
    have := ((nodup_range b).filter fun k => i * b + 1 + k < w).length_le_of_subset hsub
    rw [hlength] at this
    omega

theorem treeChildren_root (hb : 16 < b) (hw : 17 < w) : treeChildren w b 0 = (range 16).map (1 + ·) := by
  obtain ⟨n, hn⟩ : ∃ n, b.toNat = 16 + n := ⟨b.toNat - 16, by omega⟩
  have hrange : range b = range 16 ++ ((List.range n).map (16 + ·)).map (↑) := by
    rw [range, hn, List.range_add, List.map_append]
    rfl
  have hfilter : ((range 16).filter fun k => 0 * b + 1 + k < w) = range 16 := by
    refine List.filter_eq_self.mpr fun k hk => ?_
    rw [mem_range] at hk
    rw [decide_eq_true_eq]
    omega
  rw [treeChildren_eq, hrange, List.filter_append, hfilter, List.map_append,
    List.take_left' (by rw [List.length_map]; rfl), zero_mul, zero_add]

theorem parentRank_eq_iff (h : Built topo .tree w (treeNode w b)) {i j : ℤ} (hi : 0 ≤ i) (hj : 0 ≤ j ∧ j < w) :
    topo.parentRank j = i ↔ 0 < j ∧ (j - 1) / b = i := by
  rcases hj.1.eq_or_lt with rfl | hpos
  · rw [parentRank_root h]
    omega
  · rw [parentRank_tree h hpos hj.2]
    exact (and_iff_right hpos).symm

theorem tree_childrenCorrect_iff (h : Built topo .tree w (treeNode w b)) (hb : 1 ≤ b) :
    (tree w b).ChildrenCorrect topo ↔ (tree w b).Narrow := by
  constructor
  · intro hcorrect
    by_contra hwide
    obtain ⟨hb16, hw17⟩ := not_or.mp hwide
    have hchild := hcorrect h.type_eq 0 17 ⟨le_rfl, show (0 : ℤ) < w by omega⟩ ⟨by omega, show (17 : ℤ) < w by omega⟩
    rw [parentRank_eq_iff h le_rfl ⟨by omega, by omega⟩, h.node_eq 0 le_rfl (by omega)] at hchild
    have hmem : (17 : ℤ) ∈ treeChildren w b 0 :=
      hchild.mpr ⟨by omega, Int.ediv_eq_zero_of_lt (by omega) (by omega)⟩
    rw [treeChildren_root (by omega) (by omega)] at hmem
    exact absurd hmem (by decide)
  · intro hnarrow _ i j hi hj
    rw [parentRank_eq_iff h hi.1 hj, h.node_eq i hi.1 hi.2, treeNode, treeChildren_eq, List.take_of_length_le
      (by rw [List.length_map]; exact length_allChildren_le hb hi.1 hnarrow), mem_allChildren hb hi.1]
    exact and_iff_right hj.2

end Tree

/-! ## All topologies -/

/-- Routes and children are right exactly in a topology, and between ranks, of this kind. -/
theorem route_correct_iff (hcreate : shape.create = some topo) (hsrc : shape.IsRank src) (hdst : shape.IsRank dst) :
    (shape.RouteCorrect topo src dst ↔ src = dst ∨ shape.DirectOrRing src dst) ∧
      (shape.ChildrenCorrect topo ↔ shape.Narrow) := by
  cases shape with
  | ring w =>
    have hbuilt := createRing_built hcreate
    constructor
    · rcases eq_or_ne src dst with rfl | hne
      · exact iff_of_true (routeCorrect_self (hbuilt.worldSize_eq ▸ hsrc)) (.inl rfl)
      · exact iff_of_true (ring_routeCorrect hbuilt hsrc hdst hne) (.inr trivial)
    · exact iff_of_true (fun htree => by simp [hbuilt.type_eq] at htree) trivial
  | tree w b =>
    obtain ⟨hb, hbuilt⟩ := createTree_built hcreate
    refine ⟨?_, tree_childrenCorrect_iff hbuilt hb⟩
    rcases eq_or_ne src dst with rfl | hne
    · exact iff_of_true (routeCorrect_self (hbuilt.worldSize_eq ▸ hsrc)) (.inl rfl)
    · exact iff_of_false (tree_not_routeCorrect hbuilt hb hsrc hdst hne) (not_or.mpr ⟨hne, not_false⟩)
  | graph w m =>
    have hbuilt := createGraph_built hcreate
    constructor
    · rcases eq_or_ne src dst with rfl | hne
      · exact iff_of_true (routeCorrect_self (hbuilt.worldSize_eq ▸ hsrc)) (.inl rfl)
      · rw [graph_routeCorrect_iff hbuilt hsrc hdst hne]
        exact (or_iff_right hne).symm
    · exact iff_of_true (fun htree => by simp [hbuilt.type_eq] at htree) trivial

/-- A ring, a tree and a graph, where the tree has no route from the root to a child. -/
theorem route_correct_iff_threeRanks :
    (∃ topo, (ring 3).create = some topo ∧ (ring 3).RouteCorrect topo 0 2) ∧
    (∃ topo, (tree 3 2).create = some topo ∧ ¬(tree 3 2).RouteCorrect topo 0 2 ∧ (tree 3 2).ChildrenCorrect topo) ∧
    ∃ topo, (graph 3 [0, 1, 0, 0, 0, 1, 1, 0, 0]).create = some topo ∧
      (graph 3 [0, 1, 0, 0, 0, 1, 1, 0, 0]).RouteCorrect topo 1 2 := by
  refine ⟨⟨_, rfl, ?_⟩, ⟨_, rfl, ?_, ?_⟩, _, rfl, ?_⟩
  · exact (route_correct_iff rfl ⟨by decide, by decide⟩ ⟨by decide, by decide⟩).1.mpr (.inr trivial)
  · exact fun h => absurd
      ((route_correct_iff rfl ⟨by decide, by decide⟩ ⟨by decide, by decide⟩).1.mp h) (by simp [DirectOrRing])
  · have hroot : (tree 3 2).IsRank 0 := ⟨by decide, by decide⟩
    exact (route_correct_iff rfl hroot hroot).2.mpr (.inl (by decide))
  · exact (route_correct_iff rfl ⟨by decide, by decide⟩ ⟨by decide, by decide⟩).1.mpr
      (.inr (show entry 3 [0, 1, 0, 0, 0, 1, 1, 0, 0] 1 2 ≠ 0 by decide))

/-- From the root of a tree of two ranks to its child. -/
theorem not_route_to_child : ∃ topo, (tree 2 1).create = some topo ∧
    topo.computeRoute true 0 1 = some [0] ∧ ¬(tree 2 1).RouteCorrect topo 0 1 := by
  refine ⟨_, rfl, rfl, fun h => ?_⟩
  have hlast : [(0 : ℤ)].getLast? = some 1 := (h.isRoute true [0] rfl).path.2.2
  exact absurd hlast (by decide)

end Shape

end SneppxAlg.TopologyRoute
